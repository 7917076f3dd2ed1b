import LazyCalc.Proofs.Broadcast.Lazied
import Mathlib.Order.Filter.AtTopBot.Basic
/-!
A lazy broadcast and an eager one: they succeed together, with the same, once the result of the lazy
one is materialized. Where only the roots are lazy they also fail with the same.
-/

namespace LazyCalc

open List (Forall₂)

mutual

theorem Lazied.ofPlain (t : Plain) : Lazied t (.ofPlain t) := by
  cases t with
  | scalar x => exact .scalar x
  | list ts => exact .list (Lazied.plains ts)
  | sequence e => exact e.elim

theorem Lazied.plains (ts : List Plain) :
    Forall₂ Lazied ts (Tree.mapList Empty.elim ts : List Linked.Value) := by
  cases ts with
  | nil => exact .nil
  | cons t ts => exact .cons (Lazied.ofPlain t) (Lazied.plains ts)

end

/-- A plain value, or a sequence over the elements of a plain list. -/
inductive RootLazied : Plain → Linked.Value → Prop
  | plain (t : Plain) : RootLazied t (.ofPlain t)
  | wrapped (ts : List Plain) (hlength : ts.length ≠ 1) :
    RootLazied (.list ts) (.sequence (.wrap (.ofPlain (.list ts))))

theorem Tree.unwrap_list {σ : Type} {ts : List (Tree σ)} (h : ts.length ≠ 1) :
    (Tree.list ts).unwrap = .list ts := by
  match ts, h with
  | [], _ => rfl
  | _ :: _ :: _, _ => rfl

theorem drop_mapList (n : Nat) (ts : List Plain) :
    (Drive.ofFuel n).drop (Tree.mapList Empty.elim ts) = pure () :=
  drop_bare (Tree.bareList_ofPlain ts) n

section

variable (f : Scalar → Except Failure Plain) (limit : Nat)

theorem oneSilent_plain (depth n : Nat) (a : Plain) : oneSilent f limit depth n (.ofPlain a) =
    pure (Item.ofPlain ((Grid.of id a.strip).compute f limit depth)) :=
  (broadcastOne_plain limit (drop_mapList n) _ _ depth a).trans (Grid.carry_silent f limit n depth _)

theorem comes_items_plain (depth : Nat) (ts : List Plain) :
    Forall₂ (fun v x => Comes (fun n => oneSilent f limit depth n v) x) (Tree.mapList Empty.elim ts)
      (Grid.computeRows f limit depth (Grid.ofList id (Tree.stripList ts))) := by
  induction ts with
  | nil => exact .nil
  | cons t ts ih =>
    refine .cons ?_ ih
    have h := oneSilent_plain f limit depth (a := t)
    rw [Tree.ofPlain] at h
    simp only [h]
    exact comes_ofPlain _

theorem RootLazied.one {a : Plain} {v : Linked.Value} (hv : RootLazied a v) :
    Comes (fun n => oneSilent f limit 0 n v) ((Grid.of id a.strip).compute f limit 0) := by
  cases hv with
  | plain =>
    simp only [oneSilent_plain]
    exact comes_ofPlain _
  | wrapped ts hlength =>
    rw [Tree.strip_list_of_unwrap (Tree.unwrap_list hlength), Grid.of, Grid.compute,
      if_neg (Nat.not_lt_zero limit)]
    unfold oneSilent
    simp only [broadcastOne_eq, if_neg (Nat.not_lt_zero limit), Tree.unwrap]
    exact comes_mapped f limit (Tree.bareList_ofPlain ts) (comes_items_plain f limit 1 ts)

end

section

variable (f : Scalar × Scalar → Except Failure Plain) (limit : Nat)

theorem twoSilent_plain (depth n : Nat) (a b : Plain) :
    twoSilent f limit depth n (.ofPlain a) (.ofPlain b) =
      pure (Item.ofPlain ((Grid.pair a.strip b.strip).compute f limit depth)) :=
  (broadcastTwo_plain limit (drop_mapList n) _ _ depth a b).trans
    (Grid.carry_silent f limit n depth _)

theorem comes_plain (depth : Nat) (a b : Plain) :
    Comes (fun n => twoSilent f limit depth n (a.map Empty.elim) (b.map Empty.elim))
      ((Grid.pair a.strip b.strip).compute f limit depth) := by
  have h := twoSilent_plain f limit depth (a := a) (b := b)
  rw [Tree.ofPlain, Tree.ofPlain] at h
  simp only [h]
  exact comes_ofPlain _

theorem comes_pairs_plain (depth : Nat) (ts us : List Plain) :
    Forall₂ (fun p x => Comes (fun n => twoSilent f limit depth n p.1 p.2) x)
      ((Tree.mapList Empty.elim ts).zip (Tree.mapList Empty.elim us))
      (Grid.computeRows f limit depth (Grid.pairRows (Tree.stripList ts) (Tree.stripList us))) := by
  induction ts generalizing us with
  | nil => exact .nil
  | cons t ts ih =>
    cases us with
    | nil => exact .nil
    | cons u us => exact .cons (comes_plain f limit depth t u) (ih us)

theorem comes_lefts_plain (depth : Nat) (ts : List Plain) (y : Scalar) :
    Forall₂ (fun v z => Comes (fun n => twoSilent f limit depth n v (.scalar y)) z)
      (Tree.mapList Empty.elim ts)
      (Grid.computeRows f limit depth (Grid.ofList (fun x => (x, y)) (Tree.stripList ts))) := by
  induction ts with
  | nil => exact .nil
  | cons t ts ih =>
    have h := comes_plain f limit depth t (.scalar y)
    rw [Tree.strip, Grid.pair_scalar] at h
    exact .cons h ih

theorem comes_rights_plain (depth : Nat) (x : Scalar) (us : List Plain) :
    Forall₂ (fun w z => Comes (fun n => twoSilent f limit depth n (.scalar x) w) z)
      (Tree.mapList Empty.elim us)
      (Grid.computeRows f limit depth (Grid.ofList (fun y => (x, y)) (Tree.stripList us))) := by
  induction us with
  | nil => exact .nil
  | cons u us ih =>
    have h := comes_plain f limit depth (.scalar x) u
    rw [Tree.strip, Grid.pair] at h
    exact .cons h ih

theorem RootLazied.two {a b : Plain} {v w : Linked.Value} (hv : RootLazied a v)
    (hw : RootLazied b w) :
    Comes (fun n => twoSilent f limit 0 n v w) ((Grid.pair a.strip b.strip).compute f limit 0) := by
  cases hv with
  | plain =>
    cases hw with
    | plain =>
      simp only [twoSilent_plain]
      exact comes_ofPlain _
    | wrapped us hlength =>
      rw [Tree.strip_list_of_unwrap (Tree.unwrap_list hlength)]
      unfold twoSilent
      simp only [broadcastTwo_eq, if_neg (Nat.not_lt_zero limit), Tree.ofPlain, Tree.unwrap_map]
      cases ha : a.unwrap with
      | scalar x =>
        rw [← Tree.strip_unwrap a, ha, Tree.strip, Grid.pair, Grid.of, Grid.compute,
          if_neg (Nat.not_lt_zero limit)]
        exact comes_against f limit .left x (Tree.bareList_ofPlain us)
          (comes_rights_plain f limit 1 x us)
      | list ts =>
        rw [Tree.strip_list_of_unwrap ha, Grid.pair, Grid.compute, if_neg (Nat.not_lt_zero limit)]
        exact comes_zipped f limit (Tree.bareList_ofPlain ts) (Tree.bareList_ofPlain us)
          (comes_pairs_plain f limit 1 ts us)
      | sequence e => exact e.elim
  | wrapped ts hlength =>
    rw [Tree.strip_list_of_unwrap (Tree.unwrap_list hlength)]
    cases hw with
    | plain =>
      unfold twoSilent
      simp only [broadcastTwo_eq, if_neg (Nat.not_lt_zero limit), Tree.ofPlain, Tree.unwrap_map]
      cases hb : b.unwrap with
      | scalar y =>
        rw [← Tree.strip_unwrap b, hb, Tree.strip, Grid.pair, Grid.compute,
          if_neg (Nat.not_lt_zero limit)]
        exact comes_against f limit .right y (Tree.bareList_ofPlain ts)
          (comes_lefts_plain f limit 1 ts y)
      | list us =>
        rw [Tree.strip_list_of_unwrap hb, Grid.pair, Grid.compute, if_neg (Nat.not_lt_zero limit)]
        exact comes_zipped f limit (Tree.bareList_ofPlain ts) (Tree.bareList_ofPlain us)
          (comes_pairs_plain f limit 1 ts us)
      | sequence e => exact e.elim
    | wrapped us hlength' =>
      rw [Tree.strip_list_of_unwrap (Tree.unwrap_list hlength'), Grid.pair, Grid.compute,
        if_neg (Nat.not_lt_zero limit)]
      unfold twoSilent
      simp only [broadcastTwo_eq, if_neg (Nat.not_lt_zero limit), Tree.unwrap]
      exact comes_zipped f limit (Tree.bareList_ofPlain ts) (Tree.bareList_ofPlain us)
        (comes_pairs_plain f limit 1 ts us)

end

def materialized (n : Nat) (broadcast : Engine Linked.Item) : Engine Linked.Item := do
  match ← broadcast with
  | .ok v => Value.materialize (Drive.ofFuel n) n v
  | .error e => pure (.error e)

theorem Comes.materialized {X : Nat → Engine Linked.Item} {y : Except Failure Plain}
    (h : Comes X y) : ∀ᶠ n in Filter.atTop, materialized n (X n) = pure (Item.ofPlain y) := by
  obtain ⟨item, hX, -, hy⟩ := h
  cases item with
  | error e =>
    obtain rfl := hy
    refine Filter.Eventually.of_forall fun n => ?_
    rw [LazyCalc.materialized, hX, pure_bind]
    rfl
  | ok v =>
    obtain ⟨N, hN⟩ := hy
    filter_upwards [Filter.eventually_ge_atTop N] with n hn
    rw [LazyCalc.materialized, hX, pure_bind]
    exact hN n hn n hn

/-- One broadcast gives a plain result whatever the fuel, and the other, materialized, gives one with
enough fuel. They succeed together, with the same; if `same` holds they also fail with the same. -/
def MaterializesLike (eager delayed : Nat → Engine Linked.Item) (same : Prop) : Prop :=
  ∃ x y : Except Failure Plain, (∀ n, eager n = pure (Item.ofPlain x)) ∧
    (∀ᶠ n in Filter.atTop, materialized n (delayed n) = pure (Item.ofPlain y)) ∧
    (∀ t, x = .ok t ↔ y = .ok t) ∧ (same → x = y)

theorem Comes.materializesLike {eager delayed : Nat → Engine Linked.Item} {same : Prop}
    {x y : Except Failure Plain} (heager : ∀ n, eager n = pure (Item.ofPlain x))
    (hy : Comes delayed y) (hsuccess : SameSuccess y x) (hsame : same → Comes delayed x) :
    MaterializesLike eager delayed same := by
  by_cases h : same
  · exact ⟨x, x, heager, (hsame h).materialized, fun t => Iff.rfl, fun _ => rfl⟩
  · exact ⟨x, y, heager, hy.materialized, fun t => (hsuccess t).symm, fun h' => absurd h' h⟩

/-- Broadcasts over values in which lists were made sequences agree with broadcasts over the lists. -/
theorem broadcast_lazied_materializesLike (limit : Nat) :
    (∀ (f : Scalar → Except Failure Plain) (a : Plain) (v : Linked.Value), Lazied a v →
      MaterializesLike (fun n => oneSilent f limit 0 n (.ofPlain a))
        (fun n => oneSilent f limit 0 n v) (RootLazied a v)) ∧
    ∀ (f : Scalar × Scalar → Except Failure Plain) (a b : Plain) (v w : Linked.Value),
      Lazied a v → Lazied b w →
      MaterializesLike (fun n => twoSilent f limit 0 n (.ofPlain a) (.ofPlain b))
        (fun n => twoSilent f limit 0 n v w) (RootLazied a v ∧ RootLazied b w) := by
  refine ⟨fun f a v hv => ?_, fun f a b v w hv hw => ?_⟩
  · obtain ⟨y, hy, hsuccess⟩ := hv.one f limit 0
    exact hy.materializesLike (fun n => oneSilent_plain f limit 0 n a) hsuccess (·.one f limit)
  · obtain ⟨y, hy, hsuccess⟩ := Lazied.two f limit hv hw 0
    exact hy.materializesLike (fun n => twoSilent_plain f limit 0 n a b) hsuccess
      fun h => h.1.two f limit h.2

/-- Numbers against pairs of numbers, some of them in sequences. -/
theorem broadcast_lazied_materializesLike_nested :
    let pairOf (p : Scalar × Scalar) : Except Failure Plain := .ok (.list [.scalar p.1, .scalar p.2])
    let a : Plain := .list [.scalar (.integer 1), .list [.scalar (.integer 2), .scalar (.integer 3)]]
    let v : Linked.Value := .list [.scalar (.integer 1),
      .sequence (.wrap (.list [.scalar (.integer 2), .scalar (.integer 3)]))]
    Lazied a v ∧ MaterializesLike (fun n => twoSilent pairOf 8 0 n (.ofPlain a) (.ofPlain a))
      (fun n => twoSilent pairOf 8 0 n v (.sequence (.wrap v)))
      (RootLazied a v ∧ RootLazied a (.sequence (.wrap v))) := by
  intro pairOf a v
  have hinner : Forall₂ Lazied [.scalar (.integer 2), .scalar (.integer 3)]
      [.scalar (.integer 2), .scalar (.integer 3)] := .cons (.scalar _) (.cons (.scalar _) .nil)
  have hitems := List.Forall₂.cons (.scalar (.integer 1))
    (List.Forall₂.cons (Lazied.wrapped hinner (by decide)) .nil)
  have hv : Lazied a v := .list hitems
  have hw : Lazied a (.sequence (.wrap v)) := .wrapped hitems (by decide)
  exact ⟨hv, (broadcast_lazied_materializesLike 8).2 pairOf a a v (.sequence (.wrap v)) hv hw⟩

end LazyCalc
