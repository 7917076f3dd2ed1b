import LazyCalc.Proofs.Coupling.Broadcast
/-!
Broadcasts over values without sequences. Once no list of one element is left, two trees are paired
from the root into a grid, and the broadcast is a walk over the grid.
-/

namespace LazyCalc

/-- A tree of lists, with what a kernel is called for at its leaves. -/
inductive Grid (α : Type) where
  | leaf (a : α)
  | rows (gs : List (Grid α))

namespace Tree

variable {σ : Type}

mutual

/-- Every list of one element is replaced by that element. -/
def strip : Tree σ → Tree σ
  | .scalar s => .scalar s
  | .list [t] => strip t
  | .list ts => .list (stripList ts)
  | .sequence s => .sequence s

def stripList : List (Tree σ) → List (Tree σ)
  | [] => []
  | t :: ts => strip t :: stripList ts

end

theorem strip_unwrap (t : Tree σ) : t.unwrap.strip = t.strip := by
  fun_induction unwrap t with
  | case1 t ih => rw [ih, strip]
  | case2 t h => rfl

theorem unwrap_unwrap (t : Tree σ) : t.unwrap.unwrap = t.unwrap := by
  fun_induction unwrap t with
  | case1 t ih => exact ih
  | case2 t h => rw [unwrap]; exact h

theorem strip_list_of_unwrap {t : Tree σ} {ts : List (Tree σ)} (h : t.unwrap = .list ts) :
    t.strip = .list (stripList ts) := by
  rw [← strip_unwrap, h, strip]
  rintro u rfl
  have hu := unwrap_unwrap t
  rw [h, unwrap] at hu
  have hsize := sizeOf_unwrap_le u
  simp only [hu, list.sizeOf_spec, List.cons.sizeOf_spec] at hsize
  omega

end Tree

namespace Grid

variable {α β σ : Type}

mutual

def map (f : α → β) : Grid α → Grid β
  | .leaf a => .leaf (f a)
  | .rows gs => .rows (mapRows f gs)

def mapRows (f : α → β) : List (Grid α) → List (Grid β)
  | [] => []
  | g :: gs => map f g :: mapRows f gs

end

mutual

def leaves : Grid α → List α
  | .leaf a => [a]
  | .rows gs => leavesOf gs

def leavesOf : List (Grid α) → List α
  | [] => []
  | g :: gs => leaves g ++ leavesOf gs

end

mutual

def tree : Grid (Tree σ) → Tree σ
  | .leaf t => t
  | .rows gs => .list (trees gs)

def trees : List (Grid (Tree σ)) → List (Tree σ)
  | [] => []
  | g :: gs => tree g :: trees gs

end

mutual

/-- A tree by itself; `f` says what is called for at a scalar. -/
def of (f : Scalar → α) : Plain → Grid α
  | .scalar s => .leaf (f s)
  | .list ts => .rows (ofList f ts)
  | .sequence e => e.elim

def ofList (f : Scalar → α) : List Plain → List (Grid α)
  | [] => []
  | t :: ts => of f t :: ofList f ts

end

mutual

/-- Two trees. A scalar goes with every scalar of the other tree, and two lists go together place by
place, up to the shorter one. -/
def pair : Plain → Plain → Grid (Scalar × Scalar)
  | .scalar x, b => of (fun y => (x, y)) b
  | .list xs, .scalar y => .rows (ofList (fun x => (x, y)) xs)
  | .list xs, .list ys => .rows (pairRows xs ys)
  | .list _, .sequence e => e.elim
  | .sequence e, _ => e.elim

def pairRows : List Plain → List Plain → List (Grid (Scalar × Scalar))
  | x :: xs, y :: ys => pair x y :: pairRows xs ys
  | _, _ => []

end

theorem pair_scalar (t : Plain) (y : Scalar) : pair t (.scalar y) = of (fun x => (x, y)) t := by
  cases t with
  | scalar x => rfl
  | list ts => rfl
  | sequence e => exact e.elim

section

variable {m : Type → Type} [Monad m] {ρ κ : Type} (d : Drive m ρ κ) (run : α → m (Item ρ κ))
  (limit : Nat)

mutual

/-- Calls `run` at the leaves of a grid whose root is at a depth. -/
def carry (depth : Nat) : Grid α → m (Item ρ κ)
  | .leaf a => if limit < depth then pure (.error (.nestingTooDeep limit)) else run a
  | .rows gs =>
    if limit < depth then pure (.error (.nestingTooDeep limit)) else carryRows (depth + 1) [] gs

def carryRows (depth : Nat) (made : List (Value ρ κ)) : List (Grid α) → m (Item ρ κ)
  | [] => pure (.ok (.list made.reverse))
  | g :: gs => do
    match ← carry depth g with
    | .ok v => carryRows depth (v :: made) gs
    | .error e =>
      d.drop made.reverse
      pure (.error e)

end

end

end Grid

section

variable {m : Type → Type} [Monad m] [LawfulMonad m] {ρ κ : Type} {d : Drive m ρ κ} (limit : Nat)
  (hdrop : ∀ ts : List Plain, d.drop (Tree.mapList Empty.elim ts) = pure ())

include hdrop

theorem refuseDepth_plain (ts : List Plain) :
    d.refuseDepth limit (Tree.mapList Empty.elim ts) = pure (.error (.nestingTooDeep limit)) := by
  rw [Drive.refuseDepth, hdrop, pure_bind]

section

variable (run : Scalar → m (Item ρ κ)) (leaf : Leaf κ Scalar)

mutual

theorem broadcastOne_plain (depth : Nat) (a : Plain) :
    broadcastOne d run leaf limit depth (.ofPlain a) =
      Grid.carry d run limit depth (.of id a.strip) := by
  rw [broadcastOne_eq, Tree.ofPlain, Tree.unwrap_map]
  cases ha : a.unwrap with
  | scalar s =>
    rw [← Tree.strip_unwrap a, ha, Tree.strip, Grid.of, Grid.carry]
    split
    · exact refuseDepth_plain limit hdrop [a]
    · rfl
  | list ts =>
    have hsize := Tree.sizeOf_le_of_unwrap ha
    rw [Tree.strip_list_of_unwrap ha, Grid.of, Grid.carry]
    split
    · exact refuseDepth_plain limit hdrop [a]
    · exact broadcastItems_plain (depth + 1) ts []
  | sequence e => exact e.elim
termination_by sizeOf a
decreasing_by simp only [Tree.list.sizeOf_spec] at hsize; omega

theorem broadcastItems_plain (depth : Nat) (ts : List Plain) (made : List (Value ρ κ)) :
    broadcastItems d run leaf limit depth (Tree.mapList Empty.elim ts) made =
      Grid.carryRows d run limit depth made (Grid.ofList id (Tree.stripList ts)) := by
  cases ts with
  | nil => rw [Tree.mapList, broadcastItems]; rfl
  | cons t ts =>
    have ht := broadcastOne_plain depth t
    rw [Tree.ofPlain] at ht
    rw [Tree.mapList, broadcastItems, Tree.stripList, Grid.ofList, Grid.carryRows, ht]
    congr 1
    funext x
    cases x with
    | error e => simp only [hdrop, pure_bind]
    | ok v => exact broadcastItems_plain depth ts (v :: made)
termination_by sizeOf ts

end

end

section

variable (run : Scalar → Scalar → m (Item ρ κ)) (leaf : Leaf κ (Scalar × Scalar))

mutual

theorem broadcastTwo_plain (depth : Nat) (a b : Plain) :
    broadcastTwo d run leaf limit depth (.ofPlain a) (.ofPlain b) =
      Grid.carry d (fun p => run p.1 p.2) limit depth (.pair a.strip b.strip) := by
  rw [broadcastTwo_eq, Tree.ofPlain, Tree.ofPlain, Tree.unwrap_map, Tree.unwrap_map]
  have hrefuse := refuseDepth_plain (d := d) limit hdrop [b, a]
  have hsa := Tree.sizeOf_unwrap_le a
  have hsb := Tree.sizeOf_unwrap_le b
  cases ha : a.unwrap with
  | scalar x =>
    rw [← Tree.strip_unwrap a, ha, Tree.strip]
    cases hb : b.unwrap with
    | scalar y =>
      rw [← Tree.strip_unwrap b, hb, Tree.strip, Grid.pair, Grid.of, Grid.carry]
      split
      · exact hrefuse
      · rfl
    | list ys =>
      rw [Tree.strip_list_of_unwrap hb, Grid.pair, Grid.of, Grid.carry]
      split
      · exact hrefuse
      · exact broadcastRights_plain (depth + 1) x ys []
    | sequence e => exact e.elim
  | list xs =>
    rw [Tree.strip_list_of_unwrap ha]
    cases hb : b.unwrap with
    | scalar y =>
      rw [← Tree.strip_unwrap b, hb, Tree.strip, Grid.pair, Grid.carry]
      split
      · exact hrefuse
      · exact broadcastLefts_plain (depth + 1) xs y []
    | list ys =>
      rw [Tree.strip_list_of_unwrap hb, Grid.pair, Grid.carry]
      split
      · exact hrefuse
      · exact broadcastPairs_plain (depth + 1) xs ys []
    | sequence e => exact e.elim
  | sequence e => exact e.elim
termination_by sizeOf a + sizeOf b
decreasing_by
  all_goals
    simp only [ha, hb, Tree.list.sizeOf_spec, Tree.scalar.sizeOf_spec] at hsa hsb ⊢
    omega

theorem broadcastPairs_plain (depth : Nat) (xs ys : List Plain) (made : List (Value ρ κ)) :
    broadcastPairs d run leaf limit depth (Tree.mapList Empty.elim xs)
        (Tree.mapList Empty.elim ys) made =
      Grid.carryRows d (fun p => run p.1 p.2) limit depth made
        (Grid.pairRows (Tree.stripList xs) (Tree.stripList ys)) := by
  match xs, ys with
  | [], ys =>
    rw [broadcastPairs, hdrop, hdrop, pure_bind, pure_bind]
    · rfl
    · rintro x xs y ys' ⟨⟩
  | x :: xs, [] =>
    rw [broadcastPairs, hdrop, hdrop, pure_bind, pure_bind]
    · rfl
    · rintro x xs y ys' _ ⟨⟩
  | x :: xs, y :: ys =>
    have hxy := broadcastTwo_plain depth x y
    rw [Tree.ofPlain, Tree.ofPlain] at hxy
    rw [Tree.mapList, Tree.mapList, broadcastPairs, Tree.stripList, Tree.stripList, Grid.pairRows,
      Grid.carryRows, hxy]
    congr 1
    funext r
    cases r with
    | error e => simp only [hdrop, pure_bind]
    | ok v => exact broadcastPairs_plain depth xs ys (v :: made)
termination_by sizeOf xs + sizeOf ys

theorem broadcastLefts_plain (depth : Nat) (xs : List Plain) (y : Scalar)
    (made : List (Value ρ κ)) :
    broadcastLefts d run leaf limit depth (Tree.mapList Empty.elim xs) y made =
      Grid.carryRows d (fun p => run p.1 p.2) limit depth made
        (Grid.ofList (fun x => (x, y)) (Tree.stripList xs)) := by
  cases xs with
  | nil => rw [Tree.mapList, broadcastLefts]; rfl
  | cons x xs =>
    have hx := broadcastTwo_plain depth x (.scalar y)
    rw [Tree.ofPlain, Tree.ofPlain, Tree.strip, Grid.pair_scalar] at hx
    rw [Tree.mapList, broadcastLefts, Tree.stripList, Grid.ofList, Grid.carryRows, ← hx]
    congr 1
    funext r
    cases r with
    | error e => simp only [hdrop, pure_bind]
    | ok v => exact broadcastLefts_plain depth xs y (v :: made)
termination_by sizeOf xs + sizeOf (Tree.scalar y : Plain)

theorem broadcastRights_plain (depth : Nat) (x : Scalar) (ys : List Plain)
    (made : List (Value ρ κ)) :
    broadcastRights d run leaf limit depth x (Tree.mapList Empty.elim ys) made =
      Grid.carryRows d (fun p => run p.1 p.2) limit depth made
        (Grid.ofList (fun y => (x, y)) (Tree.stripList ys)) := by
  cases ys with
  | nil => rw [Tree.mapList, broadcastRights]; rfl
  | cons y ys =>
    have hy := broadcastTwo_plain depth (.scalar x) y
    rw [Tree.ofPlain, Tree.ofPlain, Tree.strip, Grid.pair] at hy
    rw [Tree.mapList, broadcastRights, Tree.stripList, Grid.ofList, Grid.carryRows, ← hy]
    congr 1
    funext r
    cases r with
    | error e => simp only [hdrop, pure_bind]
    | ok v => exact broadcastRights_plain depth x ys (v :: made)
termination_by sizeOf (Tree.scalar x : Plain) + sizeOf ys

end

end

end

end LazyCalc
