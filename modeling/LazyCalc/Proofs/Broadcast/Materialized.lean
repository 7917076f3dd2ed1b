import LazyCalc.Proofs.Broadcast.Grid
import LazyCalc.Proofs.Engine.Plain
import Mathlib.Data.List.Forall2
/-!
What bare values come to when lists are made of all their sequences. A bare value shares nothing, so
a store does not matter to it.
-/

namespace LazyCalc

open List (Forall₂)

def listOf (xs : List (Except Failure Plain)) : Except Failure Plain := Tree.list <$> xs.mapM id

/-- With enough fuel a value materializes to `x`, or fails with it. -/
def Value.Denotes (v : Linked.Value) (x : Except Failure Plain) : Prop :=
  ∃ N, ∀ n ≥ N, ∀ k ≥ N, v.materialize (Drive.ofFuel n) k = pure (Item.ofPlain x)

def Item.Denotes : Linked.Item → Except Failure Plain → Prop
  | .ok v, x => Value.Denotes v x
  | .error e, x => x = .error e

/-- Whatever the fuel, a calculation gives one bare item, and that materializes to `x`. -/
def Comes (X : Nat → Engine Linked.Item) (x : Except Failure Plain) : Prop :=
  ∃ item : Linked.Item, (∀ n, X n = pure item) ∧ item.Bare ∧ item.Denotes x

/-- The pulls of a bare sequence give items that materialize to the results of a list, up to the first
failure. -/
inductive Feeds : Linked.Sequence → List (Except Failure Plain) → Prop
  | ended {s s' : Linked.Sequence} (hpull : ∀ n, (Drive.ofFuel (n + 2)).pull s = pure (none, s'))
    (hbare : s'.Bare) : Feeds s []
  | failed {s s' : Linked.Sequence} {e : Failure} {xs : List (Except Failure Plain)}
    (hpull : ∀ n, (Drive.ofFuel (n + 2)).pull s = pure (some (.error e), s')) (hbare : s'.Bare) :
    Feeds s (.error e :: xs)
  | next {s s' : Linked.Sequence} {v : Linked.Value} {x : Except Failure Plain}
    {xs : List (Except Failure Plain)}
    (hpull : ∀ n, (Drive.ofFuel (n + 2)).pull s = pure (some (.ok v), s')) (hbare : s'.Bare)
    (hv : Value.Denotes v x) (hrest : Feeds s' xs) : Feeds s (x :: xs)

def plains (ts : List Plain) : List Linked.Value := ts.map .ofPlain

theorem drop_plains (n : Nat) (ts : List Plain) : (Drive.ofFuel n).drop (plains ts) = pure () := by
  funext st
  exact Engine.dropValues_ofPlain ts st

theorem reverse_plains (ts : List Plain) : (plains ts).reverse = plains ts.reverse :=
  List.map_reverse.symm

theorem ofPlain_list (ts : List Plain) : (.list (plains ts) : Linked.Value) = .ofPlain (.list ts) := by
  rw [Tree.ofPlain, Tree.map, Tree.mapList_eq_map]
  rfl

section

variable {α : Type} {e : Failure} {a : α} {xs : List (Except Failure α)}

theorem mapM_error_cons : (.error e :: xs : List (Except Failure α)).mapM id = .error e := by
  rw [List.mapM_cons]
  rfl

theorem mapM_ok_cons :
    (.ok a :: xs : List (Except Failure α)).mapM id = List.cons a <$> xs.mapM id := by
  rw [List.mapM_cons, map_eq_pure_bind]
  rfl

end

theorem mapValues_denotes {n : Nat} {f : Linked.Value → Engine Linked.Item} {vs : List Linked.Value}
    {xs : List (Except Failure Plain)} (made : List Plain) (hbare : Tree.BareList vs)
    (h : Forall₂ (fun v x => f v = pure (Item.ofPlain x)) vs xs) :
    (Drive.ofFuel n).mapValues f vs (plains made) =
      pure (Item.ofPlain ((fun ts => Tree.list (made.reverse ++ ts)) <$> xs.mapM id)) := by
  induction h generalizing made with
  | nil =>
    rw [Drive.mapValues, reverse_plains, ofPlain_list, List.mapM_nil, map_pure, List.append_nil]
    rfl
  | @cons v x vs xs hv h ih =>
    rw [Drive.mapValues, hv, pure_bind]
    cases x with
    | error e =>
      have hdrop : (Drive.ofFuel n).drop vs = pure () := Engine.dropValues_bare vs hbare.2
      simp only [Item.ofPlain_error, hdrop, reverse_plains, drop_plains, pure_bind, mapM_error_cons]
      rfl
    | ok t =>
      refine (ih (t :: made) hbare.2).trans ?_
      simp only [mapM_ok_cons, Functor.map_map, List.reverse_cons, List.append_assoc,
        List.singleton_append]

theorem Feeds.walk {s : Linked.Sequence} {xs : List (Except Failure Plain)} (h : Feeds s xs) :
    ∃ N, ∀ n ≥ N, ∀ k ≥ N, ∀ fuel > xs.length, ∀ made : List Plain,
      ∃ s' : Linked.Sequence, s'.Bare ∧
        ((∃ ts, xs.mapM id = .ok ts ∧
          (Drive.ofFuel n).walkFor (Sequence.convertStep (Value.materialize (Drive.ofFuel n) k)) fuel
            (plains made) s = pure (.onward (plains (ts.reverse ++ made)), s')) ∨
        ∃ (e : Failure) (taken : List Plain), xs.mapM id = .error e ∧
          (Drive.ofFuel n).walkFor (Sequence.convertStep (Value.materialize (Drive.ofFuel n) k)) fuel
            (plains made) s = pure (.halt ⟨plains taken, some e⟩, s')) := by
  induction h with
  | @ended s s' hpull hbare =>
    refine ⟨2, fun n hn k hk fuel hfuel made => ⟨s', hbare, .inl ⟨[], rfl, ?_⟩⟩⟩
    obtain ⟨n, rfl⟩ := Nat.exists_eq_add_of_le' hn
    obtain ⟨fuel, rfl⟩ := Nat.exists_eq_succ_of_ne_zero (Nat.ne_of_gt hfuel)
    rw [Drive.walkFor, hpull, pure_bind]
    rfl
  | @failed s s' e xs hpull hbare =>
    refine ⟨2, fun n hn k hk fuel hfuel made =>
      ⟨s', hbare, .inr ⟨e, made.reverse, mapM_error_cons, ?_⟩⟩⟩
    obtain ⟨n, rfl⟩ := Nat.exists_eq_add_of_le' hn
    obtain ⟨fuel, rfl⟩ := Nat.exists_eq_succ_of_ne_zero (Nat.ne_of_gt (Nat.zero_lt_of_lt hfuel))
    rw [Drive.walkFor, hpull, pure_bind]
    simp only [Sequence.convertStep, pure_bind, reverse_plains]
  | @next s s' v x xs hpull hbare hv hrest ih =>
    obtain ⟨N, hN⟩ := ih
    obtain ⟨M, hM⟩ := hv
    refine ⟨2 + N + M, fun n hn k hk fuel hfuel made => ?_⟩
    have hv : v.materialize (Drive.ofFuel n) k = pure (Item.ofPlain x) :=
      hM n (by omega) k (by omega)
    obtain ⟨m, rfl⟩ := Nat.exists_eq_add_of_le' (show 2 ≤ n by omega)
    obtain ⟨fuel, rfl⟩ := Nat.exists_eq_succ_of_ne_zero (Nat.ne_of_gt (Nat.zero_lt_of_lt hfuel))
    have hfuel' : fuel > xs.length := Nat.lt_of_succ_lt_succ hfuel
    rw [Drive.walkFor, hpull, pure_bind]
    simp only [Sequence.convertStep, hv, pure_bind]
    cases x with
    | error e =>
      refine ⟨s', hbare, .inr ⟨e, made.reverse, mapM_error_cons, ?_⟩⟩
      simp only [Item.ofPlain_error, pure_bind, reverse_plains]
    | ok t =>
      obtain ⟨s'', hbare', hwalk⟩ := hN (m + 2) (by omega) k (by omega) fuel hfuel' (t :: made)
      refine ⟨s'', hbare', ?_⟩
      simp only [Item.ofPlain_ok, pure_bind, mapM_ok_cons]
      obtain ⟨ts, hts, hwalk⟩ | ⟨e, taken, hts, hwalk⟩ := hwalk
      · refine .inl ⟨t :: ts, by rw [hts]; rfl, ?_⟩
        rw [List.reverse_cons, List.append_assoc]
        exact hwalk
      · exact .inr ⟨e, taken, by rw [hts]; rfl, hwalk⟩

theorem Feeds.denotes {s : Linked.Sequence} {xs : List (Except Failure Plain)} (h : Feeds s xs) :
    Value.Denotes (.sequence s) (listOf xs) := by
  obtain ⟨N, hN⟩ := h.walk
  refine ⟨N + xs.length + 1, fun n hn k hk => ?_⟩
  obtain ⟨k, rfl⟩ := Nat.exists_eq_succ_of_ne_zero (show k ≠ 0 by omega)
  obtain ⟨s', hbare, hwalk⟩ := hN n (by omega) k (by omega) n (by omega) []
  have hdrop : (Drive.ofFuel n).dropSequence s' = pure () :=
    Engine.dropValues_bare [.sequence s'] ⟨hbare, trivial⟩
  rw [Value.materialize, Sequence.convert, Drive.walk]
  obtain ⟨ts, hts, hwalk⟩ | ⟨e, taken, hts, hwalk⟩ := hwalk
  · rw [Drive.fuel_ofFuel, show ([] : List Linked.Value) = plains [] from rfl, hwalk, pure_bind]
    simp only [hdrop, pure_bind, listOf, hts, reverse_plains, ofPlain_list]
    rw [List.append_nil, List.reverse_reverse]
    rfl
  · rw [Drive.fuel_ofFuel, show ([] : List Linked.Value) = plains [] from rfl, hwalk, pure_bind]
    simp only [hdrop, pure_bind, listOf, hts, Drive.settle, drop_plains]
    rfl

theorem denotes_list {vs : List Linked.Value} {xs : List (Except Failure Plain)}
    (hbare : Tree.BareList vs) (h : Forall₂ Value.Denotes vs xs) :
    Value.Denotes (.list vs) (listOf xs) := by
  have hall : ∃ N, ∀ n ≥ N, ∀ k ≥ N, Forall₂ (fun (v : Linked.Value) x =>
      v.materialize (Drive.ofFuel n) k = pure (Item.ofPlain x)) vs xs := by
    clear hbare
    induction h with
    | nil => exact ⟨0, fun _ _ _ _ => .nil⟩
    | cons hv h ih =>
      obtain ⟨N, hN⟩ := hv
      obtain ⟨M, hM⟩ := ih
      exact ⟨N + M, fun n hn k hk =>
        .cons (hN n (by omega) k (by omega)) (hM n (by omega) k (by omega))⟩
  obtain ⟨N, hN⟩ := hall
  refine ⟨N + 1, fun n hn k hk => ?_⟩
  obtain ⟨k, rfl⟩ := Nat.exists_eq_succ_of_ne_zero (show k ≠ 0 by omega)
  rw [Value.materialize]
  exact mapValues_denotes [] hbare (hN n (by omega) k (by omega))

theorem mapM_ok {α : Type} (as : List α) :
    (as.map .ok : List (Except Failure α)).mapM id = .ok as := by
  induction as with
  | nil => rfl
  | cons a as ih => rw [List.map_cons, mapM_ok_cons, ih]; rfl

mutual

theorem denotes_ofPlain (t : Plain) : Value.Denotes (.ofPlain t) (.ok t) := by
  cases t with
  | scalar x =>
    refine ⟨1, fun n _ k hk => ?_⟩
    obtain ⟨k, rfl⟩ := Nat.exists_eq_succ_of_ne_zero (Nat.ne_of_gt hk)
    rw [Tree.ofPlain, Tree.map, Value.materialize]
    rfl
  | list ts =>
    have h := denotes_list (Tree.bareList_ofPlain ts) (denotes_plains ts)
    rwa [listOf, mapM_ok] at h
  | sequence e => exact e.elim

theorem denotes_plains (ts : List Plain) :
    Forall₂ Value.Denotes (Tree.mapList Empty.elim ts) (ts.map .ok) := by
  cases ts with
  | nil => exact .nil
  | cons t ts => exact .cons (denotes_ofPlain t) (denotes_plains ts)

end

theorem comes_ofPlain (x : Except Failure Plain) : Comes (fun _ => pure (Item.ofPlain x)) x := by
  refine ⟨Item.ofPlain x, fun _ => rfl, ?_⟩
  cases x with
  | error e => exact ⟨trivial, rfl⟩
  | ok t => exact ⟨Tree.bare_ofPlain t, denotes_ofPlain t⟩

section

variable {vs ws : List Linked.Value} {xs : List (Except Failure Plain)}

theorem pull_direct (n : Nat) (source : Linked.Source) (hint : Hint) (hooks : List String) :
    (Drive.ofFuel (n + 1)).pull ⟨.direct source, hint, false, hooks⟩ = (do
      let (item, source) ← source.step (Drive.ofFuel n)
      pure (item, ⟨.direct source, hint, Sequence.closes item, hooks⟩)) := rfl

theorem bare_ofValues (hint : Hint) (finished : Bool) (h : Tree.BareList vs) :
    Sequence.Bare { Sequence.ofValues vs hint with finished } :=
  ⟨rfl, Source.bareItems_ofValues.mpr h⟩

section

variable {source source' : Linked.Source} {hint : Hint}

theorem Feeds.of_end
    (hstep : ∀ n, source.step (Drive.ofFuel (n + 1)) = pure (none, source')) (hbare : source'.Bare) :
    Feeds (.ofSource source hint) [] := by
  have hpull (n : Nat) : (Drive.ofFuel (n + 2)).pull (.ofSource source hint) =
      pure (none, ⟨.direct source', hint, true, []⟩) := by
    rw [Sequence.ofSource, pull_direct, hstep, pure_bind]
    rfl
  exact .ended hpull ⟨rfl, hbare⟩

theorem Feeds.of_item {item : Linked.Item} {x : Except Failure Plain}
    (hstep : ∀ n, source.step (Drive.ofFuel (n + 1)) = pure (some item, source'))
    (hbare : source'.Bare) (hitem : item.Denotes x) (hrest : Feeds (.ofSource source' hint) xs) :
    Feeds (.ofSource source hint) (x :: xs) := by
  have hpull (n : Nat) : (Drive.ofFuel (n + 2)).pull (.ofSource source hint) =
      pure (some item, ⟨.direct source', hint, Sequence.closes (some item), []⟩) := by
    rw [Sequence.ofSource, pull_direct, hstep, pure_bind]
  cases item with
  | error e =>
    obtain rfl := hitem
    exact .failed hpull ⟨rfl, hbare⟩
  | ok v => exact .next hpull ⟨rfl, hbare⟩ hitem hrest

end

theorem feeds_mapped {mapping : Mapping Nat} (hcell : mapping.cell? = none) (inner hint : Hint)
    (hbare : Tree.BareList vs)
    (h : Forall₂ (fun v x => Comes (fun n => mapping.apply (Drive.ofFuel n) v) x) vs xs) :
    Feeds (.ofSource (.mapped (.ofValues vs inner) mapping) hint) xs := by
  induction h with
  | nil =>
    have hstep (n : Nat) : Source.step (Drive.ofFuel (n + 1))
        (.mapped (.ofValues [] inner) mapping) =
          pure (none, .mapped { Sequence.ofValues [] inner with finished := true } mapping) := rfl
    exact .of_end hstep ⟨bare_ofValues inner true trivial, hcell⟩
  | @cons v x vs xs hv h ih =>
    obtain ⟨item, happly, hitem, hdenotes⟩ := hv
    have happly (n : Nat) : mapping.apply (Drive.ofFuel n) v = pure item := happly n
    have hstep (n : Nat) : Source.step (Drive.ofFuel (n + 1))
        (.mapped (.ofValues (v :: vs) inner) mapping) =
          pure (some item, .mapped (.ofValues vs inner) mapping) := by
      change (mapping.apply (Drive.ofFuel (n + 1)) v >>= fun item =>
        pure (some item, Source.mapped (Sequence.ofValues vs inner) mapping)) = _
      rw [happly]
      rfl
    exact .of_item hstep ⟨bare_ofValues inner false hbare.2, hcell⟩ hdenotes (ih hbare.2)

theorem feeds_zipped {pairing : Pairing Nat} (hcell : pairing.cell? = none) (left right hint : Hint)
    (hvs : Tree.BareList vs) (hws : Tree.BareList ws)
    (h : Forall₂ (fun p x => Comes (fun n => pairing.apply (Drive.ofFuel n) p.1 p.2) x)
      (vs.zip ws) xs) :
    Feeds (.ofSource (.zipped (.ofValues vs left) (.ofValues ws right) pairing) hint) xs := by
  induction vs generalizing ws xs with
  | nil =>
    cases h
    have hstep (n : Nat) : Source.step (Drive.ofFuel (n + 1))
        (.zipped (.ofValues [] left) (.ofValues ws right) pairing) = pure (none,
          .zipped { Sequence.ofValues [] left with finished := true } (.ofValues ws right)
            pairing) := rfl
    exact .of_end hstep
      ⟨bare_ofValues left true trivial, bare_ofValues right false hws, hcell⟩
  | cons v vs ih =>
    cases ws with
    | nil =>
      cases h
      -- the value on the left has been pulled already, and is dropped
      have hdrop (n : Nat) : (Drive.ofFuel n).drop [v] = pure () :=
        Engine.dropValues_bare [v] ⟨hvs.1, trivial⟩
      have hstep (n : Nat) : Source.step (Drive.ofFuel (n + 1))
          (.zipped (.ofValues (v :: vs) left) (.ofValues [] right) pairing) = pure (none,
            .zipped (.ofValues vs left) { Sequence.ofValues [] right with finished := true }
              pairing) := by
        change ((Drive.ofFuel (n + 1)).drop [v] >>= fun _ => pure (none, Source.zipped
          (Sequence.ofValues vs left) { Sequence.ofValues [] right with finished := true }
            pairing)) = _
        rw [hdrop]
        rfl
      exact .of_end hstep
        ⟨bare_ofValues left false hvs.2, bare_ofValues right true trivial, hcell⟩
    | cons w ws =>
      obtain _ | ⟨⟨item, happly, hitem, hdenotes⟩, h⟩ := h
      have happly (n : Nat) : pairing.apply (Drive.ofFuel n) v w = pure item := happly n
      have hstep (n : Nat) : Source.step (Drive.ofFuel (n + 1))
          (.zipped (.ofValues (v :: vs) left) (.ofValues (w :: ws) right) pairing) =
            pure (some item, .zipped (.ofValues vs left) (.ofValues ws right) pairing) := by
        change (pairing.apply (Drive.ofFuel (n + 1)) v w >>= fun item => pure (some item,
          Source.zipped (Sequence.ofValues vs left) (Sequence.ofValues ws right) pairing)) = _
        rw [happly]
        rfl
      exact .of_item hstep
        ⟨bare_ofValues left false hvs.2, bare_ofValues right false hws.2, hcell⟩ hdenotes
        (ih hvs.2 hws.2 h)

end

end LazyCalc
