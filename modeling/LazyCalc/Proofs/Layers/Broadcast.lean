import LazyCalc.Proofs.Layers.Matching
/-!
Broadcasts over values that are alike but for layers do the same: at every level the layers come off
before anything else is done.
-/

namespace LazyCalc

open Filter Told

namespace Pairs

/-- What is known with fuel `n` of pairs that match, and of those that are alike but for layers. -/
structure Known (E R : Lone.Sequence → Lone.Sequence → Prop) (n : Nat) : Prop where
  hint : ∀ s t, E s t → s.hint = t.hint
  pull : PullsMatch E R n
  looseHint : ∀ s t, R s t → s.hint = t.hint
  /-- Lists that are alike but for layers make such sequences. -/
  values : ∀ vs ws : List Lone.Value, Tree.RelList R (Tree.stripList vs) (Tree.stripList ws) →
    R (.ofValues vs (.exact vs.length)) (.ofValues ws (.exact ws.length))

section

variable {E R : Lone.Sequence → Lone.Sequence → Prop} {n : Nat}

abbrev Result (E R : Lone.Sequence → Lone.Sequence → Prop) (B : Parts) :
    Lone.Item → Lone.Item → Prop :=
  Joined E R (Except Failure (Tree Sequence)) B

theorem Result.failure {B : Parts} (hB : Fits E R B) (e : Failure) :
    Result E R B (.error e) (.error e) :=
  ⟨.error e, rfl, rfl, fits_add.mpr ⟨fits_zero, hB⟩⟩

theorem Result.list {B : Parts} (hB : Fits E R B) {made : List (Tree Sequence)}
    (hmade : Fits E R (parts made)) :
    Result E R B (.ok (.list (left made).reverse)) (.ok (.list (right made).reverse)) := by
  rw [← left_reverse, ← right_reverse]
  refine ⟨.ok (.list made.reverse), rfl, rfl, fits_add.mpr ⟨?_, hB⟩⟩
  rwa [parts_ok, parts_list, parts_reverse]

theorem fits_made {B : Parts} {made : List (Tree Sequence)} {x : Tree Sequence}
    (hx : Fits E R (parts (Except.ok x : Except Failure (Tree Sequence)) + B))
    (hmade : Fits E R (parts made)) : Fits E R (parts (x :: made)) :=
  fits_add.mpr ⟨(fits_add.mp hx).1, hmade⟩

namespace Known

theorem mappedBy (K : Known E R n) {α : Type} {s t : Lone.Sequence} (h : R s t) {leaf : Leaf Cell α}
    (hleaf : Fits E R (parts leaf)) (mapping : Mapping Cell) (hmapping : mapping.Broadcasts)
    (hparts : (parts mapping : Parts) = parts leaf) :
    Abreast n (fun m => (Drive.told m).mappedBy s (left leaf) (left mapping))
      (fun m => (Drive.told m).mappedBy t (right leaf) (right mapping))
      (Result E R (parts leaf)) := by
  refine ((matching n K.hint K.pull).retainLeaf leaf hleaf).bind ?_
  rintro _ _ ⟨-, rfl, rfl, -⟩
  refine .pure ⟨.ok (.sequence (ofMapped ⟨s, t⟩ mapping s.hint false [] [])), rfl, ?_,
    fits_add.mpr ⟨fits_sequence.mpr ?_, hleaf⟩⟩
  · exact congrArg (fun h => Except.ok (Tree.sequence
      (⟨.direct (.mapped t (right mapping)), h, false, []⟩ : Lone.Sequence))) (K.looseHint s t h)
  · rw [← hparts] at hleaf
    exact .mapped ⟨s, t⟩ h mapping hmapping s.hint false [] [] hleaf.sequence hleaf.cell

theorem zippedBy (K : Known E R n) {a b a' b' : Lone.Sequence} (ha : R a a') (hb : R b b')
    {leaf : Leaf Cell (Scalar × Scalar)} (hleaf : Fits E R (parts leaf)) (limit depth : Nat) :
    Abreast n (fun m => (Drive.told m).zippedBy a b (left leaf) limit depth)
      (fun m => (Drive.told m).zippedBy a' b' (right leaf) limit depth)
      (Result E R (parts leaf)) := by
  refine ((matching n K.hint K.pull).retainLeaf leaf hleaf).bind ?_
  rintro _ _ ⟨-, rfl, rfl, -⟩
  refine .pure ⟨.ok (.sequence (ofZipped ⟨a, a'⟩ ⟨b, b'⟩ (.broadcast leaf limit depth)
    (a.hint.min b.hint) false [] [])), rfl, ?_, fits_add.mpr ⟨fits_sequence.mpr ?_, hleaf⟩⟩
  · exact congrArg₂ (fun h h' => Except.ok (Tree.sequence (⟨.direct (.zipped a' b'
      (.broadcast (right leaf) limit depth)), Hint.min h h', false, []⟩ : Lone.Sequence)))
      (K.looseHint a a' ha) (K.looseHint b b' hb)
  · exact .zipped ⟨a, a'⟩ ⟨b, b'⟩ ha hb (.broadcast leaf limit depth) trivial _ false [] []
      hleaf.sequence hleaf.cell

mutual

theorem broadcastOne (K : Known E R n) {leaf : Leaf Cell Scalar}
    (hleaf : Fits E R (parts leaf)) (limit depth : Nat) (v w : Lone.Value)
    (h : Tree.Rel R v.strip w.strip) :
    Abreast n
      (fun m => LazyCalc.broadcastOne (Drive.told m) ((left leaf).run (Drive.told m))
        (left leaf) limit depth v)
      (fun m => LazyCalc.broadcastOne (Drive.told m) ((right leaf).run (Drive.told m))
        (right leaf) limit depth w)
      (Result E R (parts leaf)) := by
  simp only [broadcastOne_eq]
  split
  · exact .pure (.failure hleaf _)
  · obtain ⟨x, hv, hw⟩ | ⟨vs, ws, hv, hw, h⟩ | ⟨s, t, hv, hw, h⟩ := h.unwrapped <;> rw [hv, hw]
    · exact (matching n K.hint K.pull).run leaf x hleaf
    · have hsize := Tree.sizeOf_le_of_unwrap hv
      exact broadcastItems K hleaf limit (depth + 1) vs ws h [] fits_zero
    · exact K.mappedBy h hleaf (.broadcast leaf limit (depth + 1)) trivial rfl
termination_by sizeOf v
decreasing_by simp only [Tree.list.sizeOf_spec] at hsize; omega

theorem broadcastItems (K : Known E R n) {leaf : Leaf Cell Scalar}
    (hleaf : Fits E R (parts leaf)) (limit depth : Nat) (vs ws : List Lone.Value)
    (h : Tree.RelList R (Tree.stripList vs) (Tree.stripList ws)) (made : List (Tree Sequence))
    (hmade : Fits E R (parts made)) :
    Abreast n
      (fun m => LazyCalc.broadcastItems (Drive.told m) ((left leaf).run (Drive.told m))
        (left leaf) limit depth vs (left made))
      (fun m => LazyCalc.broadcastItems (Drive.told m) ((right leaf).run (Drive.told m))
        (right leaf) limit depth ws (right made))
      (Result E R (parts leaf)) := by
  match vs, ws, h with
  | [], [], _ =>
    simp only [LazyCalc.broadcastItems]
    exact .pure (.list hleaf hmade)
  | v :: vs, w :: ws, h =>
    simp only [LazyCalc.broadcastItems]
    refine (broadcastOne K hleaf limit depth v w h.1).bind ?_
    rintro _ _ ⟨e | x, rfl, rfl, hx⟩
    · exact .pure (.failure hleaf e)
    · exact broadcastItems K hleaf limit depth vs ws h.2 (x :: made) (fits_made hx hmade)
termination_by sizeOf vs

end

mutual

theorem broadcastTwo (K : Known E R n) {leaf : Leaf Cell (Scalar × Scalar)}
    (hleaf : Fits E R (parts leaf)) (limit depth : Nat) (a b a' b' : Lone.Value)
    (ha : Tree.Rel R a.strip a'.strip) (hb : Tree.Rel R b.strip b'.strip) :
    Abreast n
      (fun m => LazyCalc.broadcastTwo (Drive.told m)
        (fun x y => (left leaf).run (Drive.told m) (x, y)) (left leaf) limit depth a b)
      (fun m => LazyCalc.broadcastTwo (Drive.told m)
        (fun x y => (right leaf).run (Drive.told m) (x, y)) (right leaf) limit depth a' b')
      (Result E R (parts leaf)) := by
  simp only [broadcastTwo_eq]
  split
  · exact .pure (.failure hleaf _)
  · obtain ⟨x, hx, hx'⟩ | ⟨xs, xs', hx, hx', hxs⟩ | ⟨s, s', hx, hx', hs⟩ := ha.unwrapped <;>
      obtain ⟨y, hy, hy'⟩ | ⟨ys, ys', hy, hy', hys⟩ | ⟨t, t', hy, hy', ht⟩ := hb.unwrapped <;>
      have hsizeA := Tree.sizeOf_le_of_unwrap hx <;>
      have hsizeB := Tree.sizeOf_le_of_unwrap hy <;>
      rw [hx, hx', hy, hy']
    case inl.inl => exact (matching n K.hint K.pull).run leaf (x, y) hleaf
    case inl.inr.inl =>
      exact broadcastRights K hleaf limit (depth + 1) x ys ys' hys [] fits_zero
    case inl.inr.inr =>
      exact K.mappedBy ht hleaf (.against x .left leaf limit (depth + 1)) trivial rfl
    case inr.inl.inl =>
      exact broadcastLefts K hleaf limit (depth + 1) xs xs' hxs y [] fits_zero
    case inr.inl.inr.inl =>
      exact broadcastPairs K hleaf limit (depth + 1) xs ys xs' ys' hxs hys [] fits_zero
    case inr.inl.inr.inr => exact K.zippedBy (K.values xs xs' hxs) ht hleaf limit (depth + 1)
    case inr.inr.inl =>
      exact K.mappedBy hs hleaf (.against y .right leaf limit (depth + 1)) trivial rfl
    case inr.inr.inr.inl => exact K.zippedBy hs (K.values ys ys' hys) hleaf limit (depth + 1)
    case inr.inr.inr.inr => exact K.zippedBy hs ht hleaf limit (depth + 1)
termination_by sizeOf a + sizeOf b
decreasing_by
  all_goals
    simp only [Tree.scalar.sizeOf_spec, Tree.list.sizeOf_spec] at hsizeA hsizeB ⊢
    omega

theorem broadcastPairs (K : Known E R n) {leaf : Leaf Cell (Scalar × Scalar)}
    (hleaf : Fits E R (parts leaf)) (limit depth : Nat) (xs ys xs' ys' : List Lone.Value)
    (hxs : Tree.RelList R (Tree.stripList xs) (Tree.stripList xs'))
    (hys : Tree.RelList R (Tree.stripList ys) (Tree.stripList ys')) (made : List (Tree Sequence))
    (hmade : Fits E R (parts made)) :
    Abreast n
      (fun m => LazyCalc.broadcastPairs (Drive.told m)
        (fun x y => (left leaf).run (Drive.told m) (x, y)) (left leaf) limit depth xs ys
        (left made))
      (fun m => LazyCalc.broadcastPairs (Drive.told m)
        (fun x y => (right leaf).run (Drive.told m) (x, y)) (right leaf) limit depth xs' ys'
        (right made))
      (Result E R (parts leaf)) := by
  match xs, xs', hxs, ys, ys', hys with
  | x :: xs, x' :: xs', hxs, y :: ys, y' :: ys', hys =>
    simp only [LazyCalc.broadcastPairs]
    refine (broadcastTwo K hleaf limit depth x y x' y' hxs.1 hys.1).bind ?_
    rintro _ _ ⟨e | z, rfl, rfl, hz⟩
    · exact .pure (.failure hleaf e)
    · exact broadcastPairs K hleaf limit depth xs ys xs' ys' hxs.2 hys.2 (z :: made)
        (fits_made hz hmade)
  | [], [], _, ys, ys', _ =>
    simp only [LazyCalc.broadcastPairs]
    exact .pure (.list hleaf hmade)
  | x :: xs, x' :: xs', _, [], [], _ =>
    simp only [LazyCalc.broadcastPairs]
    exact .pure (.list hleaf hmade)
termination_by sizeOf xs + sizeOf ys

theorem broadcastLefts (K : Known E R n) {leaf : Leaf Cell (Scalar × Scalar)}
    (hleaf : Fits E R (parts leaf)) (limit depth : Nat) (xs xs' : List Lone.Value)
    (hxs : Tree.RelList R (Tree.stripList xs) (Tree.stripList xs')) (y : Scalar)
    (made : List (Tree Sequence)) (hmade : Fits E R (parts made)) :
    Abreast n
      (fun m => LazyCalc.broadcastLefts (Drive.told m)
        (fun x y => (left leaf).run (Drive.told m) (x, y)) (left leaf) limit depth xs y
        (left made))
      (fun m => LazyCalc.broadcastLefts (Drive.told m)
        (fun x y => (right leaf).run (Drive.told m) (x, y)) (right leaf) limit depth xs' y
        (right made))
      (Result E R (parts leaf)) := by
  match xs, xs', hxs with
  | [], [], _ =>
    simp only [LazyCalc.broadcastLefts]
    exact .pure (.list hleaf hmade)
  | x :: xs, x' :: xs', hxs =>
    simp only [LazyCalc.broadcastLefts]
    refine (broadcastTwo K hleaf limit depth x (.scalar y) x' (.scalar y) hxs.1 rfl).bind ?_
    rintro _ _ ⟨e | z, rfl, rfl, hz⟩
    · exact .pure (.failure hleaf e)
    · exact broadcastLefts K hleaf limit depth xs xs' hxs.2 y (z :: made) (fits_made hz hmade)
termination_by sizeOf xs + sizeOf (Tree.scalar y : Lone.Value)

theorem broadcastRights (K : Known E R n) {leaf : Leaf Cell (Scalar × Scalar)}
    (hleaf : Fits E R (parts leaf)) (limit depth : Nat) (x : Scalar) (ys ys' : List Lone.Value)
    (hys : Tree.RelList R (Tree.stripList ys) (Tree.stripList ys')) (made : List (Tree Sequence))
    (hmade : Fits E R (parts made)) :
    Abreast n
      (fun m => LazyCalc.broadcastRights (Drive.told m)
        (fun x y => (left leaf).run (Drive.told m) (x, y)) (left leaf) limit depth x ys
        (left made))
      (fun m => LazyCalc.broadcastRights (Drive.told m)
        (fun x y => (right leaf).run (Drive.told m) (x, y)) (right leaf) limit depth x ys'
        (right made))
      (Result E R (parts leaf)) := by
  match ys, ys', hys with
  | [], [], _ =>
    simp only [LazyCalc.broadcastRights]
    exact .pure (.list hleaf hmade)
  | y :: ys, y' :: ys', hys =>
    simp only [LazyCalc.broadcastRights]
    refine (broadcastTwo K hleaf limit depth (.scalar x) y (.scalar x) y' rfl hys.1).bind ?_
    rintro _ _ ⟨e | z, rfl, rfl, hz⟩
    · exact .pure (.failure hleaf e)
    · exact broadcastRights K hleaf limit depth x ys ys' hys.2 (z :: made) (fits_made hz hmade)
termination_by sizeOf (Tree.scalar x : Lone.Value) + sizeOf ys

end

end Known

end

end Pairs

end LazyCalc
