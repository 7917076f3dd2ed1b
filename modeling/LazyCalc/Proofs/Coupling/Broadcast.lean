import LazyCalc.Proofs.Coupling.Reading
namespace LazyCalc

section

variable {m : Type → Type} [Monad m] {ρ κ : Type} (d : Drive m ρ κ)

theorem broadcastOne_eq (run : Scalar → m (Item ρ κ)) (leaf : Leaf κ Scalar) (limit depth : Nat)
    (v : Value ρ κ) :
    broadcastOne d run leaf limit depth v =
      if limit < depth then d.refuseDepth limit [v]
      else
        match v.unwrap with
        | .scalar s => run s
        | .list items => broadcastItems d run leaf limit (depth + 1) items []
        | .sequence s => d.mappedBy s leaf (.broadcast leaf limit (depth + 1)) := by
  rw [broadcastOne]
  split
  · rfl
  · split <;> rename_i h <;> rw [h]

theorem broadcastTwo_eq (run : Scalar → Scalar → m (Item ρ κ)) (leaf : Leaf κ (Scalar × Scalar))
    (limit depth : Nat) (a b : Value ρ κ) :
    broadcastTwo d run leaf limit depth a b =
      if limit < depth then d.refuseDepth limit [b, a]
      else
        match a.unwrap, b.unwrap with
        | .scalar x, .scalar y => run x y
        | .list xs, .list ys => broadcastPairs d run leaf limit (depth + 1) xs ys []
        | .list xs, .scalar y => broadcastLefts d run leaf limit (depth + 1) xs y []
        | .scalar x, .list ys => broadcastRights d run leaf limit (depth + 1) x ys []
        | .sequence s, .scalar y => d.mappedBy s leaf (.against y .right leaf limit (depth + 1))
        | .scalar x, .sequence s => d.mappedBy s leaf (.against x .left leaf limit (depth + 1))
        | a, b => d.zippedBy (.wrap a) (.wrap b) leaf limit (depth + 1) := by
  rw [broadcastTwo]
  split
  · rfl
  · cases a.unwrap <;> cases b.unwrap <;> rfl

end

theorem Tree.unwrap_map {σ τ : Type} (f : σ → τ) (t : Tree σ) :
    (t.map f).unwrap = t.unwrap.map f := by
  fun_induction unwrap t with
  | case1 t ih => exact ih
  | case2 t h =>
    cases t with
    | scalar x => rfl
    | sequence s => rfl
    | list ts =>
      obtain _ | ⟨t, _ | ⟨u, ts⟩⟩ := ts
      · rfl
      · exact absurd rfl (h t)
      · rfl

theorem parts_unwrap {σ κ : Type} (t : Tree σ) : (parts t.unwrap : Parts σ κ) = parts t := by
  fun_induction Tree.unwrap t with
  | case1 t ih => rw [ih, parts_list, parts_cons, parts_nil, add_zero]
  | case2 t h => rfl

namespace Coupling

variable {m₁ m₂ : Type → Type} [Monad m₁] [Monad m₂] {ρ₁ κ₁ ρ₂ κ₂ σ κ : Type}
  [Paired σ (Sequence ρ₁ κ₁) (Sequence ρ₂ κ₂)] [Paired κ κ₁ κ₂]
  (C : Coupling m₁ m₂ ρ₁ κ₁ ρ₂ κ₂ σ κ)

theorem run {α : Type} (leaf : Leaf κ α) (a : α) :
    C.Triple (Except Failure (Tree σ)) (parts leaf) (fun n => (left leaf).run (C.first n) a)
      (fun n => (right leaf).run (C.second n) a) (parts leaf) := by
  cases leaf with
  | kernel f =>
    refine C.bind 0 (C.note (f a).notes) (by simp) fun _ => ?_
    cases (f a).result with
    | error e => exact C.of_eq (C.refuse e) (by simp) (by simp)
    | ok t =>
      refine C.of_eq (C.templated t fun v hl hr => ?_) rfl rfl
      have hv : C.Triple (Except Failure (Tree σ)) (parts v) (fun _ => pure (.ok (left v)))
          (fun _ => pure (.ok (right v))) 0 :=
        C.pure (Except.ok v : Except Failure (Tree σ)) (by simp)
      rw [hl, hr] at hv
      exact C.of_eq hv (by simp) (by simp)
  | reading k plan =>
    refine C.bind 0 (C.read k) (by simp) fun c => ?_
    exact C.of_eq (C.frame (parts k) (C.readWith (plan a) c)) (by simp) (by simp)

theorem retainLeaf {α : Type} (leaf : Leaf κ α) :
    C.Triple Unit (parts leaf) (fun n => (left leaf).retain (C.first n))
      (fun n => (right leaf).retain (C.second n)) (parts leaf + parts leaf) := by
  cases leaf with
  | kernel f => exact C.pure () (by simp)
  | reading k plan => exact C.retain k

theorem dismissLeaf {α : Type} (leaf : Leaf κ α) :
    C.Triple Unit (parts leaf) (fun n => (left leaf).dismiss (C.first n))
      (fun n => (right leaf).dismiss (C.second n)) 0 := by
  cases leaf with
  | kernel f => exact C.pure () (by simp)
  | reading k plan => exact C.dismiss k

theorem mappedBy {α : Type} (s : σ) (leaf : Leaf κ α) (mapping : Mapping κ)
    (h : (parts mapping : Parts σ κ) = parts leaf) :
    C.Triple (Except Failure (Tree σ)) (parts s + parts leaf)
      (fun n => (C.first n).mappedBy (left s) (left leaf) (left mapping))
      (fun n => (C.second n).mappedBy (right s) (right leaf) (right mapping)) (parts leaf) := by
  refine C.bind (parts s) (C.retainLeaf leaf) (by abel) fun _ => ?_
  refine C.of_eq (C.hinted (A := parts leaf + parts leaf) s fun hs => ?_) (by simp; abel) rfl
  refine C.of_eq (C.frame (parts leaf) (C.newSequence (.mapped s mapping) hs)) ?_ (by simp)
  simp only [parts_mapped, h]
  abel

theorem zippedBy (s t : σ) (leaf : Leaf κ (Scalar × Scalar)) (limit depth : Nat) :
    C.Triple (Except Failure (Tree σ)) (parts s + parts t + parts leaf)
      (fun n => (C.first n).zippedBy (left s) (left t) (left leaf) limit depth)
      (fun n => (C.second n).zippedBy (right s) (right t) (right leaf) limit depth)
      (parts leaf) := by
  refine C.bind (parts s + parts t) (C.retainLeaf leaf) (by abel) fun _ => ?_
  refine C.of_eq (C.hinted (A := parts t + (parts leaf + parts leaf)) s fun hs => ?_)
    (by simp; abel) rfl
  refine C.of_eq (C.hinted (A := parts s + (parts leaf + parts leaf)) t fun ht => ?_) (by abel) rfl
  refine C.of_eq (C.frame (parts leaf) (C.newSequence
    (.zipped s t (.broadcast leaf limit depth)) (congrArg₂ Hint.min hs ht))) ?_ (by simp)
  rw [parts_zipped, show (parts (Pairing.broadcast leaf limit depth) : Parts σ κ) = parts leaf from rfl]
  abel

theorem refuseDepth (limit : Nat) (vs : List (Tree σ)) :
    C.Triple (Except Failure (Tree σ)) (parts vs)
      (fun n => (C.first n).refuseDepth limit (left vs))
      (fun n => (C.second n).refuseDepth limit (right vs)) 0 := by
  refine C.bind 0 (C.drop vs) (by simp) fun _ => ?_
  exact C.of_eq (C.refuse _) (by simp) rfl

section

variable {leaf : Leaf κ Scalar} {run₁ : Nat → Scalar → m₁ (Item ρ₁ κ₁)}
  {run₂ : Nat → Scalar → m₂ (Item ρ₂ κ₂)}

mutual

theorem broadcastOne
    (hrun : ∀ x, C.Triple (Except Failure (Tree σ)) (parts leaf) (fun n => run₁ n x)
      (fun n => run₂ n x) (parts leaf)) (limit depth : Nat) (v : Tree σ) :
    C.Triple (Except Failure (Tree σ)) (parts v + parts leaf)
      (fun n => LazyCalc.broadcastOne (C.first n) (run₁ n) (left leaf) limit depth (left v))
      (fun n => LazyCalc.broadcastOne (C.second n) (run₂ n) (right leaf) limit depth (right v))
      (parts leaf) := by
  simp only [broadcastOne_eq, left, right, Tree.unwrap_map]
  split
  · exact C.of_eq (C.frame (parts leaf) (C.refuseDepth limit [v])) (by simp) (by simp)
  · have hparts := parts_unwrap (κ := κ) v
    cases hv : v.unwrap with
    | scalar x => exact C.of_eq (hrun x) (by rw [← hparts, hv]; simp) rfl
    | list items =>
      have hsize := Tree.sizeOf_le_of_unwrap hv
      exact C.of_eq (broadcastItems hrun limit (depth + 1) items []) (by rw [← hparts, hv]; simp) rfl
    | sequence s =>
      exact C.of_eq (C.mappedBy s leaf (.broadcast leaf limit (depth + 1)) rfl)
        (by rw [← hparts, hv]; simp) rfl
termination_by sizeOf v
decreasing_by simp only [Tree.list.sizeOf_spec] at hsize; omega

theorem broadcastItems
    (hrun : ∀ x, C.Triple (Except Failure (Tree σ)) (parts leaf) (fun n => run₁ n x)
      (fun n => run₂ n x) (parts leaf)) (limit depth : Nat) (vs made : List (Tree σ)) :
    C.Triple (Except Failure (Tree σ)) (parts vs + parts made + parts leaf)
      (fun n => LazyCalc.broadcastItems (C.first n) (run₁ n) (left leaf) limit depth (left vs)
        (left made))
      (fun n => LazyCalc.broadcastItems (C.second n) (run₂ n) (right leaf) limit depth (right vs)
        (right made))
      (parts leaf) := by
  cases vs with
  | nil =>
    simp only [left, right, Tree.mapList, LazyCalc.broadcastItems]
    exact C.of_eq (C.frame (parts leaf) (C.madeList made)) (by simp) (by simp)
  | cons v vs =>
    simp only [left, right, Tree.mapList, LazyCalc.broadcastItems]
    refine C.bind (parts vs + parts made) (broadcastOne hrun limit depth v) (by simp; abel) ?_
    rintro (e | w)
    · refine C.bind (parts made + parts leaf) (C.drop vs) (by simp; abel) fun _ => ?_
      refine C.bind (parts leaf) (C.dropReverse made) (by simp) fun _ => ?_
      exact C.of_eq (C.frame (parts leaf) (C.refuse e)) (by simp) (by simp)
    · exact C.of_eq (broadcastItems hrun limit depth vs (w :: made)) (by simp; abel) rfl
termination_by sizeOf vs

end

end

section

variable {leaf : Leaf κ (Scalar × Scalar)} {run₁ : Nat → Scalar → Scalar → m₁ (Item ρ₁ κ₁)}
  {run₂ : Nat → Scalar → Scalar → m₂ (Item ρ₂ κ₂)}

theorem zippedWrap (limit : Nat) (a b : Tree σ) (depth : Nat) :
    C.Triple (Except Failure (Tree σ)) (parts a + parts b + parts leaf)
      (fun n => (C.first n).zippedBy (.wrap (left a)) (.wrap (left b)) (left leaf) limit depth)
      (fun n => (C.second n).zippedBy (.wrap (right a)) (.wrap (right b)) (right leaf) limit depth)
      (parts leaf) := by
  refine C.of_eq (C.wrapped (A := parts b + parts leaf) a fun s hsl hsr => ?_) (by abel) rfl
  refine C.of_eq (C.wrapped (A := parts s + parts leaf) b fun t htl htr => ?_) (by abel) rfl
  rw [← hsl, ← hsr, ← htl, ← htr]
  exact C.of_eq (C.zippedBy s t leaf limit depth) (by abel) rfl

mutual

theorem broadcastTwo
    (hrun : ∀ x y, C.Triple (Except Failure (Tree σ)) (parts leaf) (fun n => run₁ n x y)
      (fun n => run₂ n x y) (parts leaf)) (limit depth : Nat) (a b : Tree σ) :
    C.Triple (Except Failure (Tree σ)) (parts a + parts b + parts leaf)
      (fun n => LazyCalc.broadcastTwo (C.first n) (run₁ n) (left leaf) limit depth (left a) (left b))
      (fun n => LazyCalc.broadcastTwo (C.second n) (run₂ n) (right leaf) limit depth (right a)
        (right b))
      (parts leaf) := by
  simp only [broadcastTwo_eq, left, right, Tree.unwrap_map]
  split
  · exact C.of_eq (C.frame (parts leaf) (C.refuseDepth limit [b, a])) (by simp; abel) (by simp)
  · have hpa := parts_unwrap (κ := κ) a
    have hpb := parts_unwrap (κ := κ) b
    have hsa := Tree.sizeOf_unwrap_le a
    have hsb := Tree.sizeOf_unwrap_le b
    rw [← hpa, ← hpb]
    generalize a.unwrap = a' at hsa ⊢
    generalize b.unwrap = b' at hsb ⊢
    cases a' with
    | scalar x =>
      cases b' with
      | scalar y => exact C.of_eq (hrun x y) (by simp) rfl
      | list ys => exact C.of_eq (broadcastRights hrun limit (depth + 1) x ys []) (by simp) rfl
      | sequence s =>
        exact C.of_eq (C.mappedBy s leaf (.against x .left leaf limit (depth + 1)) rfl)
          (by simp) rfl
    | list xs =>
      cases b' with
      | scalar y => exact C.of_eq (broadcastLefts hrun limit (depth + 1) xs y []) (by simp) rfl
      | list ys => exact C.of_eq (broadcastPairs hrun limit (depth + 1) xs ys []) (by simp) rfl
      | sequence s => exact C.zippedWrap limit (.list xs) (.sequence s) (depth + 1)
    | sequence s =>
      cases b' with
      | scalar y =>
        exact C.of_eq (C.mappedBy s leaf (.against y .right leaf limit (depth + 1)) rfl)
          (by simp) rfl
      | list ys => exact C.zippedWrap limit (.sequence s) (.list ys) (depth + 1)
      | sequence t => exact C.zippedWrap limit (.sequence s) (.sequence t) (depth + 1)
termination_by sizeOf a + sizeOf b
decreasing_by
  all_goals
    simp only [Tree.scalar.sizeOf_spec, Tree.list.sizeOf_spec] at hsa hsb ⊢
    omega

theorem broadcastPairs
    (hrun : ∀ x y, C.Triple (Except Failure (Tree σ)) (parts leaf) (fun n => run₁ n x y)
      (fun n => run₂ n x y) (parts leaf)) (limit depth : Nat) (xs ys made : List (Tree σ)) :
    C.Triple (Except Failure (Tree σ)) (parts xs + parts ys + parts made + parts leaf)
      (fun n => LazyCalc.broadcastPairs (C.first n) (run₁ n) (left leaf) limit depth (left xs)
        (left ys) (left made))
      (fun n => LazyCalc.broadcastPairs (C.second n) (run₂ n) (right leaf) limit depth (right xs)
        (right ys) (right made))
      (parts leaf) := by
  have hend (xs ys : List (Tree σ)) : C.Triple (Except Failure (Tree σ))
      (parts xs + parts ys + parts made + parts leaf)
      (fun n => do
        (C.first n).drop (left xs)
        (C.first n).drop (left ys)
        pure (.ok (.list (left made).reverse)))
      (fun n => do
        (C.second n).drop (right xs)
        (C.second n).drop (right ys)
        pure (.ok (.list (right made).reverse))) (parts leaf) := by
    refine C.bind (parts ys + parts made + parts leaf) (C.drop xs) (by abel) fun _ => ?_
    refine C.bind (parts made + parts leaf) (C.drop ys) (by simp; abel) fun _ => ?_
    exact C.of_eq (C.frame (parts leaf) (C.madeList made)) (by simp) (by simp)
  match xs, ys with
  | x :: xs, y :: ys =>
    simp only [left, right, Tree.mapList, LazyCalc.broadcastPairs]
    refine C.bind (parts xs + parts ys + parts made) (broadcastTwo hrun limit depth x y) (by simp; abel) ?_
    rintro (e | w)
    · refine C.bind (parts ys + parts made + parts leaf) (C.drop xs) (by simp; abel) fun _ => ?_
      refine C.bind (parts made + parts leaf) (C.drop ys) (by simp; abel) fun _ => ?_
      refine C.bind (parts leaf) (C.dropReverse made) (by simp) fun _ => ?_
      exact C.of_eq (C.frame (parts leaf) (C.refuse e)) (by simp) (by simp)
    · exact C.of_eq (broadcastPairs hrun limit depth xs ys (w :: made)) (by simp; abel) rfl
  | [], ys =>
    simp only [left, right, Tree.mapList, LazyCalc.broadcastPairs]
    exact hend [] ys
  | x :: xs, [] =>
    simp only [left, right, Tree.mapList, LazyCalc.broadcastPairs]
    exact hend (x :: xs) []
termination_by sizeOf xs + sizeOf ys

theorem broadcastLefts
    (hrun : ∀ x y, C.Triple (Except Failure (Tree σ)) (parts leaf) (fun n => run₁ n x y)
      (fun n => run₂ n x y) (parts leaf)) (limit depth : Nat) (xs : List (Tree σ)) (y : Scalar) (made : List (Tree σ)) :
    C.Triple (Except Failure (Tree σ)) (parts xs + parts made + parts leaf)
      (fun n => LazyCalc.broadcastLefts (C.first n) (run₁ n) (left leaf) limit depth (left xs) y
        (left made))
      (fun n => LazyCalc.broadcastLefts (C.second n) (run₂ n) (right leaf) limit depth (right xs) y
        (right made))
      (parts leaf) := by
  cases xs with
  | nil =>
    simp only [left, right, Tree.mapList, LazyCalc.broadcastLefts]
    exact C.of_eq (C.frame (parts leaf) (C.madeList made)) (by simp) (by simp)
  | cons x xs =>
    simp only [left, right, Tree.mapList, LazyCalc.broadcastLefts]
    refine C.bind (parts xs + parts made) (broadcastTwo hrun limit depth x (.scalar y)) (by simp; abel) ?_
    rintro (e | w)
    · refine C.bind (parts made + parts leaf) (C.drop xs) (by simp; abel) fun _ => ?_
      refine C.bind (parts leaf) (C.dropReverse made) (by simp) fun _ => ?_
      exact C.of_eq (C.frame (parts leaf) (C.refuse e)) (by simp) (by simp)
    · exact C.of_eq (broadcastLefts hrun limit depth xs y (w :: made)) (by simp; abel) rfl
termination_by sizeOf xs + sizeOf (Tree.scalar y : Tree σ)

theorem broadcastRights
    (hrun : ∀ x y, C.Triple (Except Failure (Tree σ)) (parts leaf) (fun n => run₁ n x y)
      (fun n => run₂ n x y) (parts leaf)) (limit depth : Nat) (x : Scalar) (ys made : List (Tree σ)) :
    C.Triple (Except Failure (Tree σ)) (parts ys + parts made + parts leaf)
      (fun n => LazyCalc.broadcastRights (C.first n) (run₁ n) (left leaf) limit depth x (left ys)
        (left made))
      (fun n => LazyCalc.broadcastRights (C.second n) (run₂ n) (right leaf) limit depth x (right ys)
        (right made))
      (parts leaf) := by
  cases ys with
  | nil =>
    simp only [left, right, Tree.mapList, LazyCalc.broadcastRights]
    exact C.of_eq (C.frame (parts leaf) (C.madeList made)) (by simp) (by simp)
  | cons y ys =>
    simp only [left, right, Tree.mapList, LazyCalc.broadcastRights]
    refine C.bind (parts ys + parts made) (broadcastTwo hrun limit depth (.scalar x) y) (by simp; abel) ?_
    rintro (e | w)
    · refine C.bind (parts made + parts leaf) (C.drop ys) (by simp; abel) fun _ => ?_
      refine C.bind (parts leaf) (C.dropReverse made) (by simp) fun _ => ?_
      exact C.of_eq (C.frame (parts leaf) (C.refuse e)) (by simp) (by simp)
    · exact C.of_eq (broadcastRights hrun limit depth x ys (w :: made)) (by simp; abel) rfl
termination_by sizeOf (Tree.scalar x : Tree σ) + sizeOf ys

end

end

end Coupling

end LazyCalc
