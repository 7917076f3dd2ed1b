import LazyCalc.Proofs.Broadcast.Materialized
/-!
Lists made sequences. Where a kernel notes nothing and gives plain values, a broadcast over values in
which some lists were replaced by sequences over the same elements gives what the broadcast over the
lists gives, once its result is materialized.
-/

namespace LazyCalc

open List (Forall₂)

namespace Grid

variable {α : Type} (f : α → Except Failure Plain) (limit : Nat)

mutual

def compute (depth : Nat) : Grid α → Except Failure Plain
  | .leaf a => if limit < depth then .error (.nestingTooDeep limit) else f a
  | .rows gs =>
    if limit < depth then .error (.nestingTooDeep limit) else listOf (computeRows (depth + 1) gs)

def computeRows (depth : Nat) : List (Grid α) → List (Except Failure Plain)
  | [] => []
  | g :: gs => compute depth g :: computeRows depth gs

end

end Grid

def Leaf.silent {α : Type} (f : α → Except Failure Plain) : Leaf Nat α :=
  .kernel fun a => { result := (f a).map .ofPlain }

theorem Leaf.run_silent {α : Type} (f : α → Except Failure Plain) (n : Nat) (a : α) :
    (Leaf.silent f).run (Drive.ofFuel n) a = pure (Item.ofPlain (f a)) := by
  have hnote : Engine.note [] = pure () := rfl
  change (Engine.note [] >>= fun _ =>
    pure (((f a).map Tree.ofPlain).map Value.ofTemplate : Linked.Item)) = _
  rw [hnote, pure_bind]
  cases f a with
  | error e => rfl
  | ok t => exact congrArg (fun v => pure (Except.ok v)) (Tree.map_ofPlain Sequence.ofDraft t)

namespace Grid

variable {α : Type} (f : α → Except Failure Plain) (limit n : Nat)

mutual

theorem carry_silent (depth : Nat) (g : Grid α) :
    g.carry (Drive.ofFuel n) ((Leaf.silent f).run (Drive.ofFuel n)) limit depth =
      pure (Item.ofPlain (g.compute f limit depth)) := by
  cases g with
  | leaf a =>
    rw [carry, compute]
    split
    · rfl
    · exact Leaf.run_silent f n a
  | rows gs =>
    rw [carry, compute]
    split
    · rfl
    · exact carryRows_silent (depth + 1) [] gs

theorem carryRows_silent (depth : Nat) (made : List Plain) (gs : List (Grid α)) :
    carryRows (Drive.ofFuel n) ((Leaf.silent f).run (Drive.ofFuel n)) limit depth (plains made) gs =
      pure (Item.ofPlain ((fun ts => Tree.list (made.reverse ++ ts)) <$>
        (computeRows f limit depth gs).mapM id)) := by
  cases gs with
  | nil =>
    rw [carryRows, computeRows, reverse_plains, ofPlain_list, List.mapM_nil, map_pure,
      List.append_nil]
    rfl
  | cons g gs =>
    rw [carryRows, computeRows, carry_silent, pure_bind]
    cases g.compute f limit depth with
    | error e =>
      simp only [Item.ofPlain_error, reverse_plains, drop_plains, pure_bind, mapM_error_cons]
      rfl
    | ok t =>
      refine (carryRows_silent depth (t :: made) gs).trans ?_
      simp only [mapM_ok_cons, Functor.map_map, List.reverse_cons, List.append_assoc,
        List.singleton_append]

end

end Grid

/-- A value that differs from a plain one in that some of the lists, none of one element, are sequences
over the same elements. -/
inductive Lazied : Plain → Linked.Value → Prop
  | scalar (x : Scalar) : Lazied (.scalar x) (.scalar x)
  | list {ts : List Plain} {vs : List Linked.Value} (h : Forall₂ Lazied ts vs) :
    Lazied (.list ts) (.list vs)
  | wrapped {ts : List Plain} {vs : List Linked.Value} (h : Forall₂ Lazied ts vs)
    (hlength : ts.length ≠ 1) : Lazied (.list ts) (.sequence (.wrap (.list vs)))

namespace Lazied

theorem unwrap {t : Plain} {v : Linked.Value} (h : Lazied t v) : Lazied t.unwrap v.unwrap := by
  fun_induction Tree.unwrap t generalizing v with
  | case1 t ih =>
    cases h with
    | list h =>
      obtain _ | ⟨h, ⟨⟩⟩ := h
      have hunwrap := ih h
      rwa [Tree.unwrap]
    | wrapped h hlength => exact absurd rfl hlength
  | case2 t hne =>
    cases h with
    | scalar x => exact .scalar x
    | wrapped h hlength => exact .wrapped h hlength
    | @list ts vs h =>
      obtain _ | ⟨v, _ | ⟨w, vs⟩⟩ := vs
      · exact .list h
      · obtain _ | @⟨t, _, _, _, ht, ⟨⟩⟩ := h
        exact absurd rfl (hne t)
      · exact .list h

theorem of_list {ts : List Plain} {v : Linked.Value} (h : Lazied (.list ts) v) :
    ∃ vs : List Linked.Value, Forall₂ Lazied ts vs ∧
      (v = .list vs ∨ v = .sequence (.wrap (.list vs))) := by
  cases h with
  | list h => exact ⟨_, h, .inl rfl⟩
  | wrapped h hlength => exact ⟨_, h, .inr rfl⟩

mutual

theorem bare {t : Plain} {v : Linked.Value} (h : Lazied t v) : v.Bare := by
  cases h with
  | scalar x => trivial
  | list h => exact bareList h
  | @wrapped ts vs h hlength => exact bare_ofValues (.exact vs.length) false (bareList h)

theorem bareList {ts : List Plain} {vs : List Linked.Value} (h : Forall₂ Lazied ts vs) :
    Tree.BareList vs := by
  cases h with
  | nil => trivial
  | cons hv h => exact ⟨bare hv, bareList h⟩

end

end Lazied

/-- Two results that succeed together, with the same. -/
def SameSuccess (x y : Except Failure Plain) : Prop := ∀ t, x = .ok t ↔ y = .ok t

theorem mapM_eq_ok_iff {xs : List (Except Failure Plain)} {ts : List Plain} :
    xs.mapM id = .ok ts ↔ xs = ts.map .ok := by
  constructor
  · induction xs generalizing ts with
    | nil =>
      rintro ⟨⟩
      rfl
    | cons x xs ih =>
      intro h
      cases x with
      | error e =>
        rw [mapM_error_cons] at h
        cases h
      | ok t =>
        rw [mapM_ok_cons] at h
        cases hxs : xs.mapM id with
        | error e =>
          rw [hxs] at h
          cases h
        | ok us =>
          rw [hxs] at h
          obtain rfl := Except.ok.inj h
          rw [ih hxs]
          rfl
  · rintro rfl
    exact mapM_ok ts

theorem listOf_eq_ok_iff {xs : List (Except Failure Plain)} {t : Plain} :
    listOf xs = .ok t ↔ ∃ ts, t = .list ts ∧ xs = ts.map .ok := by
  constructor
  · intro h
    unfold listOf at h
    cases hxs : xs.mapM id with
    | error e =>
      rw [hxs] at h
      cases h
    | ok ts =>
      rw [hxs] at h
      exact ⟨ts, (Except.ok.inj h).symm, mapM_eq_ok_iff.mp hxs⟩
  · rintro ⟨ts, rfl, rfl⟩
    rw [listOf, mapM_ok]
    rfl

theorem SameSuccess.trans {x y z : Except Failure Plain} (h : SameSuccess x y)
    (h' : SameSuccess y z) : SameSuccess x z := fun t => (h t).trans (h' t)

theorem SameSuccess.listOf {xs ys : List (Except Failure Plain)} (h : Forall₂ SameSuccess xs ys) :
    SameSuccess (listOf xs) (listOf ys) := by
  have hlists (ts : List Plain) : xs = ts.map .ok ↔ ys = ts.map .ok := by
    induction h generalizing ts with
    | nil => exact Iff.rfl
    | cons hxy h ih =>
      cases ts with
      | nil => simp
      | cons t ts => rw [List.map_cons, List.cons.injEq, List.cons.injEq, hxy t, ih ts]
  intro t
  rw [listOf_eq_ok_iff, listOf_eq_ok_iff]
  exact exists_congr fun ts => and_congr_right fun _ => hlists ts

/-- Whatever the fuel, a broadcast over lists comes to the values for their elements, put behind those
that are made already; or it fails, and then one of the elements does. -/
def RowsCome (X : Nat → Engine Linked.Item) (made : List Linked.Value)
    (xs : List (Except Failure Plain)) : Prop :=
  (∃ ws : List Linked.Value, (∀ n, X n = pure (.ok (.list (made.reverse ++ ws)))) ∧
    Tree.BareList ws ∧ Forall₂ Value.Denotes ws xs) ∨
  ∃ e e' : Failure, (∀ n, X n = pure (.error e)) ∧ .error e' ∈ xs

namespace RowsCome

theorem comes {X : Nat → Engine Linked.Item} {xs : List (Except Failure Plain)}
    (h : RowsCome X [] xs) : ∃ y, Comes X y ∧ SameSuccess y (listOf xs) := by
  obtain ⟨ws, hX, hbare, hws⟩ | ⟨e, e', hX, he⟩ := h
  · exact ⟨listOf xs, ⟨.ok (.list ws), hX, hbare, denotes_list hbare hws⟩, fun t => Iff.rfl⟩
  · refine ⟨.error e, ⟨.error e, hX, trivial, rfl⟩, fun t => ⟨fun h => ?_, fun h => ?_⟩⟩
    · cases h
    · obtain ⟨ts, rfl, rfl⟩ := listOf_eq_ok_iff.mp h
      obtain ⟨t, -, h⟩ := List.mem_map.mp he
      cases h

theorem nil (made : List Linked.Value) :
    RowsCome (fun _ => pure (.ok (.list made.reverse))) made [] :=
  .inl ⟨[], fun _ => by rw [List.append_nil], trivial, .nil⟩

theorem cons {X : Nat → Engine Linked.Item} {next : Nat → Linked.Item → Engine Linked.Item}
    {made : List Linked.Value} {x : Except Failure Plain} {xs : List (Except Failure Plain)}
    (hX : Comes X x) (hfail : ∀ n e, next n (.error e) = pure (.error e))
    (hnext : ∀ w : Linked.Value, w.Bare → RowsCome (fun n => next n (.ok w)) (w :: made) xs) :
    RowsCome (fun n => X n >>= next n) made (x :: xs) := by
  obtain ⟨item, hX, hbare, hx⟩ := hX
  cases item with
  | error e =>
    obtain rfl := hx
    refine .inr ⟨e, e, fun n => ?_, List.mem_cons_self⟩
    beta_reduce
    rw [hX, pure_bind, hfail]
  | ok w =>
    obtain ⟨ws, hnext, hws, h⟩ | ⟨e, e', hnext, he⟩ := hnext w hbare
    · refine .inl ⟨w :: ws, fun n => ?_, ⟨hbare, hws⟩, .cons hx h⟩
      beta_reduce
      rw [hX, pure_bind]
      refine (hnext n).trans ?_
      rw [List.reverse_cons, List.append_assoc]
      rfl
    · refine .inr ⟨e, e', fun n => ?_, List.mem_cons_of_mem _ he⟩
      beta_reduce
      rw [hX, pure_bind]
      exact hnext n

end RowsCome

theorem drop_bare {vs : List Linked.Value} (h : Tree.BareList vs) (n : Nat) :
    (Drive.ofFuel n).drop vs = pure () := Engine.dropValues_bare vs h

section

variable (f : Scalar → Except Failure Plain) (limit : Nat)

def oneSilent (depth n : Nat) (v : Linked.Value) : Engine Linked.Item :=
  broadcastOne (Drive.ofFuel n) ((Leaf.silent f).run (Drive.ofFuel n)) (.silent f) limit depth v

theorem rowsCome_items {depth : Nat} {vs made : List Linked.Value}
    {xs : List (Except Failure Plain)} (hvs : Tree.BareList vs) (hmade : Tree.BareList made)
    (h : Forall₂ (fun v x => Comes (fun n => oneSilent f limit depth n v) x) vs xs) :
    RowsCome (fun n => broadcastItems (Drive.ofFuel n) ((Leaf.silent f).run (Drive.ofFuel n))
      (.silent f) limit depth vs made) made xs := by
  induction h generalizing made with
  | nil =>
    simp only [broadcastItems]
    exact .nil made
  | cons hv h ih =>
    simp only [broadcastItems]
    refine .cons hv (fun n e => ?_) fun w hw => ih hvs.2 ⟨hw, hmade⟩
    simp only [drop_bare hvs.2, drop_bare (Tree.bareList_reverse.mpr hmade), pure_bind]

end

section

variable (f : Scalar × Scalar → Except Failure Plain) (limit : Nat)

def twoSilent (depth n : Nat) (v w : Linked.Value) : Engine Linked.Item :=
  broadcastTwo (Drive.ofFuel n) (fun x y => (Leaf.silent f).run (Drive.ofFuel n) (x, y))
    (.silent f) limit depth v w

theorem rowsCome_pairs {depth : Nat} {vs ws made : List Linked.Value}
    {xs : List (Except Failure Plain)} (hvs : Tree.BareList vs) (hws : Tree.BareList ws)
    (hmade : Tree.BareList made)
    (h : Forall₂ (fun p x => Comes (fun n => twoSilent f limit depth n p.1 p.2) x) (vs.zip ws) xs) :
    RowsCome (fun n => broadcastPairs (Drive.ofFuel n)
      (fun x y => (Leaf.silent f).run (Drive.ofFuel n) (x, y)) (.silent f) limit depth vs ws made)
      made xs := by
  induction vs generalizing ws made xs with
  | nil =>
    cases h
    simp only [broadcastPairs, drop_bare hvs, drop_bare hws, pure_bind]
    exact .nil made
  | cons v vs ih =>
    cases ws with
    | nil =>
      cases h
      simp only [broadcastPairs, drop_bare hvs, drop_bare hws, pure_bind]
      exact .nil made
    | cons w ws =>
      obtain _ | ⟨hvw, h⟩ := h
      simp only [broadcastPairs]
      refine .cons hvw (fun n e => ?_) fun u hu => ih hvs.2 hws.2 ⟨hu, hmade⟩ h
      simp only [drop_bare hvs.2, drop_bare hws.2, drop_bare (Tree.bareList_reverse.mpr hmade),
        pure_bind]

theorem rowsCome_lefts {depth : Nat} {vs made : List Linked.Value} (y : Scalar)
    {xs : List (Except Failure Plain)} (hvs : Tree.BareList vs) (hmade : Tree.BareList made)
    (h : Forall₂ (fun v x => Comes (fun n => twoSilent f limit depth n v (.scalar y)) x) vs xs) :
    RowsCome (fun n => broadcastLefts (Drive.ofFuel n)
      (fun x y => (Leaf.silent f).run (Drive.ofFuel n) (x, y)) (.silent f) limit depth vs y made)
      made xs := by
  induction h generalizing made with
  | nil =>
    simp only [broadcastLefts]
    exact .nil made
  | cons hv h ih =>
    simp only [broadcastLefts]
    refine .cons hv (fun n e => ?_) fun w hw => ih hvs.2 ⟨hw, hmade⟩
    simp only [drop_bare hvs.2, drop_bare (Tree.bareList_reverse.mpr hmade), pure_bind]

theorem rowsCome_rights {depth : Nat} {ws made : List Linked.Value} (x : Scalar)
    {xs : List (Except Failure Plain)} (hws : Tree.BareList ws) (hmade : Tree.BareList made)
    (h : Forall₂ (fun w z => Comes (fun n => twoSilent f limit depth n (.scalar x) w) z) ws xs) :
    RowsCome (fun n => broadcastRights (Drive.ofFuel n)
      (fun x y => (Leaf.silent f).run (Drive.ofFuel n) (x, y)) (.silent f) limit depth x ws made)
      made xs := by
  induction h generalizing made with
  | nil =>
    simp only [broadcastRights]
    exact .nil made
  | cons hw h ih =>
    simp only [broadcastRights]
    refine .cons hw (fun n e => ?_) fun u hu => ih hws.2 ⟨hu, hmade⟩
    simp only [drop_bare hws.2, drop_bare (Tree.bareList_reverse.mpr hmade), pure_bind]

end

theorem Grid.compute_deep {α : Type} (f : α → Except Failure Plain) {limit depth : Nat}
    (h : limit < depth) (g : Grid α) : g.compute f limit depth = .error (.nestingTooDeep limit) := by
  cases g <;> rw [compute, if_pos h]

theorem comes_sequence {s : Linked.Sequence} {xs : List (Except Failure Plain)} (h : Feeds s xs)
    (hbare : s.Bare) : Comes (fun _ => pure (.ok (.sequence s))) (listOf xs) :=
  ⟨.ok (.sequence s), fun _ => rfl, hbare, h.denotes⟩

theorem comes_refused (vs : List Linked.Value) (h : Tree.BareList vs) (limit : Nat) :
    Comes (fun n => (Drive.ofFuel n).refuseDepth limit vs) (.error (.nestingTooDeep limit)) := by
  refine ⟨.error (.nestingTooDeep limit), fun n => ?_, trivial, rfl⟩
  simp only [Drive.refuseDepth, drop_bare h, pure_bind]

section

variable (f : Scalar × Scalar → Except Failure Plain) (limit : Nat) {vs ws : List Linked.Value}
  {xs : List (Except Failure Plain)}

theorem comes_zipped {depth : Nat} (hvs : Tree.BareList vs) (hws : Tree.BareList ws)
    (h : Forall₂ (fun p x => Comes (fun n => twoSilent f limit depth n p.1 p.2) x) (vs.zip ws) xs) :
    Comes (fun n => (Drive.ofFuel n).zippedBy (.wrap (.list vs)) (.wrap (.list ws)) (.silent f) limit
      depth) (listOf xs) :=
  comes_sequence (feeds_zipped rfl _ _ _ hvs hws h)
    ⟨rfl, bare_ofValues _ false hvs, bare_ofValues _ false hws, rfl⟩

theorem comes_against {depth : Nat} (side : Side) (x : Scalar) (hvs : Tree.BareList vs)
    (h : Forall₂ (fun v z => Comes (fun n => match side with
      | .left => twoSilent f limit depth n (.scalar x) v
      | .right => twoSilent f limit depth n v (.scalar x)) z) vs xs) :
    Comes (fun n => (Drive.ofFuel n).mappedBy (.wrap (.list vs)) (Leaf.silent f)
      (.against x side (.silent f) limit depth)) (listOf xs) :=
  comes_sequence (feeds_mapped rfl _ _ hvs (by cases side <;> exact h))
    ⟨rfl, bare_ofValues _ false hvs, rfl⟩

end

theorem comes_mapped (f : Scalar → Except Failure Plain) (limit : Nat) {depth : Nat}
    {vs : List Linked.Value} {xs : List (Except Failure Plain)} (hvs : Tree.BareList vs)
    (h : Forall₂ (fun v x => Comes (fun n => oneSilent f limit depth n v) x) vs xs) :
    Comes (fun n => (Drive.ofFuel n).mappedBy (.wrap (.list vs)) (Leaf.silent f)
      (.broadcast (.silent f) limit depth)) (listOf xs) :=
  comes_sequence (feeds_mapped rfl _ _ hvs h) ⟨rfl, bare_ofValues _ false hvs, rfl⟩

namespace Lazied

section

variable (f : Scalar × Scalar → Except Failure Plain) (limit : Nat)

mutual

theorem two {a b : Plain} {v w : Linked.Value} (hv : Lazied a v) (hw : Lazied b w) (depth : Nat) :
    ∃ y, Comes (fun n => twoSilent f limit depth n v w) y ∧
      SameSuccess y ((Grid.pair a.strip b.strip).compute f limit depth) := by
  unfold twoSilent
  simp only [broadcastTwo_eq]
  by_cases hdepth : limit < depth
  · simp only [if_pos hdepth, Grid.compute_deep f hdepth]
    exact ⟨_, comes_refused [w, v] ⟨hw.bare, hv.bare, trivial⟩ limit, fun t => Iff.rfl⟩
  · simp only [if_neg hdepth]
    have hsa := Tree.sizeOf_unwrap_le a
    have hsb := Tree.sizeOf_unwrap_le b
    have hv := hv.unwrap
    have hw := hw.unwrap
    generalize v.unwrap = v at hv ⊢
    generalize w.unwrap = w at hw ⊢
    cases ha : a.unwrap with
    | scalar x =>
      rw [ha] at hv
      cases hv
      rw [← Tree.strip_unwrap a, ha, Tree.strip]
      cases hb : b.unwrap with
      | scalar y =>
        rw [hb] at hw
        cases hw
        rw [← Tree.strip_unwrap b, hb, Tree.strip, Grid.pair, Grid.of, Grid.compute, if_neg hdepth]
        simp only [Leaf.run_silent]
        exact ⟨f (x, y), comes_ofPlain _, fun t => Iff.rfl⟩
      | list us =>
        rw [hb] at hw
        rw [Tree.strip_list_of_unwrap hb, Grid.pair, Grid.of, Grid.compute, if_neg hdepth]
        obtain ⟨ws, hws, hw⟩ := hw.of_list
        obtain ⟨ys, hys, hsame⟩ := rights x hws (depth + 1)
        obtain rfl | rfl := hw
        · obtain ⟨y, hy, hsame'⟩ := (rowsCome_rights f limit x (bareList hws) .nil hys).comes
          exact ⟨y, hy, hsame'.trans (.listOf hsame)⟩
        · exact ⟨listOf ys, comes_against f limit .left x (bareList hws) hys, .listOf hsame⟩
      | sequence e => exact e.elim
    | list ts =>
      rw [ha] at hv
      rw [Tree.strip_list_of_unwrap ha]
      cases hb : b.unwrap with
      | scalar y =>
        rw [hb] at hw
        cases hw
        rw [← Tree.strip_unwrap b, hb, Tree.strip, Grid.pair, Grid.compute, if_neg hdepth]
        obtain ⟨vs, hvs, hv⟩ := hv.of_list
        obtain ⟨ys, hys, hsame⟩ := lefts hvs y (depth + 1)
        obtain rfl | rfl := hv
        · obtain ⟨z, hz, hsame'⟩ := (rowsCome_lefts f limit y (bareList hvs) .nil hys).comes
          exact ⟨z, hz, hsame'.trans (.listOf hsame)⟩
        · exact ⟨listOf ys, comes_against f limit .right y (bareList hvs) hys, .listOf hsame⟩
      | list us =>
        rw [hb] at hw
        rw [Tree.strip_list_of_unwrap hb, Grid.pair, Grid.compute, if_neg hdepth]
        obtain ⟨vs, hvs, hv⟩ := hv.of_list
        obtain ⟨ws, hws, hw⟩ := hw.of_list
        obtain ⟨ys, hys, hsame⟩ := pairs hvs hws (depth + 1)
        have hzipped := comes_zipped f limit (bareList hvs) (bareList hws) hys
        -- a sequence on any side makes the result a sequence
        obtain rfl | rfl := hv
        · obtain rfl | rfl := hw
          · obtain ⟨y, hy, hsame'⟩ :=
              (rowsCome_pairs f limit (bareList hvs) (bareList hws) .nil hys).comes
            exact ⟨y, hy, hsame'.trans (.listOf hsame)⟩
          · exact ⟨listOf ys, hzipped, .listOf hsame⟩
        · obtain rfl | rfl := hw <;> exact ⟨listOf ys, hzipped, .listOf hsame⟩
      | sequence e => exact e.elim
    | sequence e => exact e.elim
termination_by sizeOf a + sizeOf b
decreasing_by
  all_goals
    simp only [ha, hb, Tree.list.sizeOf_spec, Tree.scalar.sizeOf_spec] at hsa hsb ⊢
    omega

theorem pairs {ts us : List Plain} {vs ws : List Linked.Value} (hvs : Forall₂ Lazied ts vs)
    (hws : Forall₂ Lazied us ws) (depth : Nat) :
    ∃ ys, Forall₂ (fun p y => Comes (fun n => twoSilent f limit depth n p.1 p.2) y) (vs.zip ws) ys ∧
      Forall₂ SameSuccess ys (Grid.computeRows f limit depth
        (Grid.pairRows (Tree.stripList ts) (Tree.stripList us))) := by
  cases hvs with
  | nil => exact ⟨[], .nil, .nil⟩
  | cons hv hvs =>
    cases hws with
    | nil => exact ⟨[], .nil, .nil⟩
    | cons hw hws =>
      obtain ⟨y, hy, hsame⟩ := two hv hw depth
      obtain ⟨ys, hys, hsames⟩ := pairs hvs hws depth
      exact ⟨y :: ys, .cons hy hys, .cons hsame hsames⟩
termination_by sizeOf ts + sizeOf us

theorem lefts {ts : List Plain} {vs : List Linked.Value} (hvs : Forall₂ Lazied ts vs) (y : Scalar)
    (depth : Nat) :
    ∃ ys, Forall₂ (fun v z => Comes (fun n => twoSilent f limit depth n v (.scalar y)) z) vs ys ∧
      Forall₂ SameSuccess ys (Grid.computeRows f limit depth
        (Grid.ofList (fun x => (x, y)) (Tree.stripList ts))) := by
  cases hvs with
  | nil => exact ⟨[], .nil, .nil⟩
  | @cons t v ts vs hv hvs =>
    obtain ⟨z, hz, hsame⟩ := two hv (.scalar y) depth
    obtain ⟨ys, hys, hsames⟩ := lefts hvs y depth
    rw [Tree.strip, Grid.pair_scalar] at hsame
    exact ⟨z :: ys, .cons hz hys, .cons hsame hsames⟩
termination_by sizeOf ts + sizeOf (Tree.scalar y : Plain)

theorem rights {us : List Plain} {ws : List Linked.Value} (x : Scalar) (hws : Forall₂ Lazied us ws)
    (depth : Nat) :
    ∃ ys, Forall₂ (fun w z => Comes (fun n => twoSilent f limit depth n (.scalar x) w) z) ws ys ∧
      Forall₂ SameSuccess ys (Grid.computeRows f limit depth
        (Grid.ofList (fun y => (x, y)) (Tree.stripList us))) := by
  cases hws with
  | nil => exact ⟨[], .nil, .nil⟩
  | @cons u w us ws hw hws =>
    obtain ⟨z, hz, hsame⟩ := two (.scalar x) hw depth
    obtain ⟨ys, hys, hsames⟩ := rights x hws depth
    rw [Tree.strip, Grid.pair] at hsame
    exact ⟨z :: ys, .cons hz hys, .cons hsame hsames⟩
termination_by sizeOf (Tree.scalar x : Plain) + sizeOf us

end

end

section

variable (f : Scalar → Except Failure Plain) (limit : Nat)

mutual

theorem one {a : Plain} {v : Linked.Value} (hv : Lazied a v) (depth : Nat) :
    ∃ y, Comes (fun n => oneSilent f limit depth n v) y ∧
      SameSuccess y ((Grid.of id a.strip).compute f limit depth) := by
  unfold oneSilent
  simp only [broadcastOne_eq]
  by_cases hdepth : limit < depth
  · simp only [if_pos hdepth, Grid.compute_deep f hdepth]
    exact ⟨_, comes_refused [v] ⟨hv.bare, trivial⟩ limit, fun t => Iff.rfl⟩
  · simp only [if_neg hdepth]
    have hsize := Tree.sizeOf_unwrap_le a
    have hv := hv.unwrap
    generalize v.unwrap = v at hv ⊢
    cases ha : a.unwrap with
    | scalar x =>
      rw [ha] at hv
      cases hv
      rw [← Tree.strip_unwrap a, ha, Tree.strip, Grid.of, Grid.compute, if_neg hdepth]
      simp only [Leaf.run_silent]
      exact ⟨f x, comes_ofPlain _, fun t => Iff.rfl⟩
    | list ts =>
      rw [ha] at hv
      rw [Tree.strip_list_of_unwrap ha, Grid.of, Grid.compute, if_neg hdepth]
      obtain ⟨vs, hvs, hv⟩ := hv.of_list
      obtain ⟨ys, hys, hsame⟩ := items hvs (depth + 1)
      obtain rfl | rfl := hv
      · obtain ⟨y, hy, hsame'⟩ := (rowsCome_items f limit (bareList hvs) .nil hys).comes
        exact ⟨y, hy, hsame'.trans (.listOf hsame)⟩
      · exact ⟨listOf ys, comes_mapped f limit (bareList hvs) hys, .listOf hsame⟩
    | sequence e => exact e.elim
termination_by sizeOf a
decreasing_by
  simp only [ha, Tree.list.sizeOf_spec] at hsize
  omega

theorem items {ts : List Plain} {vs : List Linked.Value} (hvs : Forall₂ Lazied ts vs)
    (depth : Nat) :
    ∃ ys, Forall₂ (fun v y => Comes (fun n => oneSilent f limit depth n v) y) vs ys ∧
      Forall₂ SameSuccess ys
        (Grid.computeRows f limit depth (Grid.ofList id (Tree.stripList ts))) := by
  cases hvs with
  | nil => exact ⟨[], .nil, .nil⟩
  | cons hv hvs =>
    obtain ⟨y, hy, hsame⟩ := one hv depth
    obtain ⟨ys, hys, hsames⟩ := items hvs depth
    exact ⟨y :: ys, .cons hy hys, .cons hsame hsames⟩
termination_by sizeOf ts

end

end

end Lazied

end LazyCalc
