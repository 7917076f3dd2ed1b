import LazyCalc.Engine.Reading
/-!
Broadcasting a kernel for scalars over values. At every level a list of one element is first
replaced by that element. Then lists are gone through at once, two lists side by side up to the
shorter one, and a sequence on any side gives a sequence that goes on by itself, one element for
each pull. Nesting beyond the limit is refused before it is looked into.
-/

namespace LazyCalc

namespace Tree

variable {σ : Type} [SizeOf σ]

theorem sizeOf_unwrap_le (t : Tree σ) : sizeOf t.unwrap ≤ sizeOf t := by
  fun_induction unwrap t with
  | case1 t ih => simp only [list.sizeOf_spec, List.cons.sizeOf_spec]; omega
  | case2 t h => exact Nat.le_refl _

theorem sizeOf_le_of_unwrap {t u : Tree σ} (h : t.unwrap = u) : sizeOf u ≤ sizeOf t :=
  h ▸ sizeOf_unwrap_le t

end Tree

variable {m : Type → Type} [Monad m] {ρ κ : Type} (d : Drive m ρ κ)

namespace Leaf

variable {α : Type}

/-- One call of the kernel. A kernel that reads a collection has a copy of it to itself. -/
def run : Leaf κ α → α → m (Item ρ κ)
  | .kernel f, a => do
    let outcome := f a
    d.note outcome.notes
    pure (outcome.result.map Value.ofTemplate)
  | .reading i plan, a => do
    let collection ← d.read i
    collection.readWith d (plan a)

def retain : Leaf κ α → m Unit
  | .kernel _ => pure ()
  | .reading i _ => d.retain i

def dismiss : Leaf κ α → m Unit
  | .kernel _ => pure ()
  | .reading i _ => d.dismiss i

end Leaf

namespace Drive

def mappedBy {α : Type} (s : Sequence ρ κ) (leaf : Leaf κ α) (mapping : Mapping κ) :
    m (Item ρ κ) := do
  leaf.retain d
  pure (.ok (.sequence (s.mapped mapping)))

def zippedBy (s t : Sequence ρ κ) (leaf : Leaf κ (Scalar × Scalar)) (limit depth : Nat) :
    m (Item ρ κ) := do
  leaf.retain d
  pure (.ok (.sequence (s.zipped t (.broadcast leaf limit depth))))

def refuseDepth (limit : Nat) (vs : List (Value ρ κ)) : m (Item ρ κ) := do
  d.drop vs
  pure (.error (.nestingTooDeep limit))

end Drive

mutual

/-- Broadcasts `run` over one value; `leaf` stands for it where that has to wait. -/
def broadcastOne (run : Scalar → m (Item ρ κ)) (leaf : Leaf κ Scalar) (limit depth : Nat)
    (v : Value ρ κ) : m (Item ρ κ) :=
  if limit < depth then d.refuseDepth limit [v]
  else
    match _h : v.unwrap with
    | .scalar s => run s
    | .list items => broadcastItems run leaf limit (depth + 1) items []
    | .sequence s => d.mappedBy s leaf (.broadcast leaf limit (depth + 1))
termination_by sizeOf v
decreasing_by
  have := Tree.sizeOf_le_of_unwrap _h
  simp only [Tree.list.sizeOf_spec] at this; omega

def broadcastItems (run : Scalar → m (Item ρ κ)) (leaf : Leaf κ Scalar) (limit depth : Nat)
    (vs made : List (Value ρ κ)) : m (Item ρ κ) :=
  match vs with
  | [] => pure (.ok (.list made.reverse))
  | v :: vs => do
    match ← broadcastOne run leaf limit depth v with
    | .ok w => broadcastItems run leaf limit depth vs (w :: made)
    | .error e =>
      d.drop vs
      d.drop made.reverse
      pure (.error e)
termination_by sizeOf vs

end

mutual

def broadcastTwo (run : Scalar → Scalar → m (Item ρ κ)) (leaf : Leaf κ (Scalar × Scalar))
    (limit depth : Nat) (a b : Value ρ κ) : m (Item ρ κ) :=
  if limit < depth then d.refuseDepth limit [b, a]
  else
    match _ha : a.unwrap, _hb : b.unwrap with
    | .scalar x, .scalar y => run x y
    | .list xs, .list ys => broadcastPairs run leaf limit (depth + 1) xs ys []
    | .list xs, .scalar y => broadcastLefts run leaf limit (depth + 1) xs y []
    | .scalar x, .list ys => broadcastRights run leaf limit (depth + 1) x ys []
    | .sequence s, .scalar y => d.mappedBy s leaf (.against y .right leaf limit (depth + 1))
    | .scalar x, .sequence s => d.mappedBy s leaf (.against x .left leaf limit (depth + 1))
    | a, b => d.zippedBy (.wrap a) (.wrap b) leaf limit (depth + 1)
termination_by sizeOf a + sizeOf b
decreasing_by
  all_goals
    have ha := Tree.sizeOf_le_of_unwrap _ha
    have hb := Tree.sizeOf_le_of_unwrap _hb
    simp only [Tree.list.sizeOf_spec] at ha hb
    omega

def broadcastPairs (run : Scalar → Scalar → m (Item ρ κ)) (leaf : Leaf κ (Scalar × Scalar))
    (limit depth : Nat) (xs ys made : List (Value ρ κ)) : m (Item ρ κ) :=
  match xs, ys with
  | x :: xs, y :: ys => do
    match ← broadcastTwo run leaf limit depth x y with
    | .ok w => broadcastPairs run leaf limit depth xs ys (w :: made)
    | .error e =>
      d.drop xs
      d.drop ys
      d.drop made.reverse
      pure (.error e)
  | xs, ys => do
    d.drop xs
    d.drop ys
    pure (.ok (.list made.reverse))
termination_by sizeOf xs + sizeOf ys

def broadcastLefts (run : Scalar → Scalar → m (Item ρ κ)) (leaf : Leaf κ (Scalar × Scalar))
    (limit depth : Nat) (xs : List (Value ρ κ)) (y : Scalar) (made : List (Value ρ κ)) : m (Item ρ κ) :=
  match xs with
  | [] => pure (.ok (.list made.reverse))
  | x :: xs => do
    match ← broadcastTwo run leaf limit depth x (.scalar y) with
    | .ok w => broadcastLefts run leaf limit depth xs y (w :: made)
    | .error e =>
      d.drop xs
      d.drop made.reverse
      pure (.error e)
termination_by sizeOf xs + sizeOf (Tree.scalar y : Value ρ κ)

def broadcastRights (run : Scalar → Scalar → m (Item ρ κ)) (leaf : Leaf κ (Scalar × Scalar))
    (limit depth : Nat) (x : Scalar) (ys made : List (Value ρ κ)) : m (Item ρ κ) :=
  match ys with
  | [] => pure (.ok (.list made.reverse))
  | y :: ys => do
    match ← broadcastTwo run leaf limit depth (.scalar x) y with
    | .ok w => broadcastRights run leaf limit depth x ys (w :: made)
    | .error e =>
      d.drop ys
      d.drop made.reverse
      pure (.error e)
termination_by sizeOf (Tree.scalar x : Value ρ κ) + sizeOf ys

end

end LazyCalc
