import LazyCalc.Sequence.Basic
/-!
What a calculation on sequences needs from whatever holds their shared parts. Nothing that is built
on this depends on how sources are shared, on what a pull does, or on what becomes of a value that
is dropped.
-/

namespace LazyCalc

/-- The means to pull, copy and drop sequences, and how long to go on. -/
structure Drive (m : Type → Type) (ρ κ : Type) where
  fuel : Nat
  /-- The fuel is spent. -/
  stuck : {α : Type} → m α
  pull : Sequence ρ κ → m (Option (Item ρ κ) × Sequence ρ κ)
  /-- The sequence itself, and another one over the same elements. -/
  fork : Sequence ρ κ → m (Sequence ρ κ × Sequence ρ κ)
  drop : List (Value ρ κ) → m Unit
  note : List String → m Unit
  /-- A cell with a collection in it, and one holder. -/
  keep : Collection (Sequence ρ κ) → m κ
  read : κ → m (Collection (Sequence ρ κ))
  retain : κ → m Unit
  dismiss : κ → m Unit

namespace Tree

mutual

/-- The tree itself, as it is after the copying, and its copy. -/
def copyWith {m : Type → Type} [Monad m] {σ : Type} (fork : σ → m (σ × σ)) :
    Tree σ → m (Tree σ × Tree σ)
  | .scalar s => pure (.scalar s, .scalar s)
  | .list items => do
    let (items, others) ← copyListWith fork items
    pure (.list items, .list others)
  | .sequence s => do
    let (s, other) ← fork s
    pure (.sequence s, .sequence other)

def copyListWith {m : Type → Type} [Monad m] {σ : Type} (fork : σ → m (σ × σ)) :
    List (Tree σ) → m (List (Tree σ) × List (Tree σ))
  | [] => pure ([], [])
  | t :: ts => do
    let (t, u) ← copyWith fork t
    let (ts, us) ← copyListWith fork ts
    pure (t :: ts, u :: us)

end

end Tree

variable {m : Type → Type} [Monad m] {ρ κ : Type}

namespace Item

def copyWith (fork : Sequence ρ κ → m (Sequence ρ κ × Sequence ρ κ)) :
    Item ρ κ → m (Item ρ κ × Item ρ κ)
  | .error e => pure (.error e, .error e)
  | .ok v => do
    let (v, w) ← v.copyWith fork
    pure (.ok v, .ok w)

def copyListWith (fork : Sequence ρ κ → m (Sequence ρ κ × Sequence ρ κ))
    (items : List (Item ρ κ)) : m (List (Item ρ κ) × List (Item ρ κ)) := do
  let pairs ← items.mapM (copyWith fork)
  pure pairs.unzip

end Item

def Collection.copyWith {σ : Type} (fork : σ → m (σ × σ)) :
    Collection σ → m (Collection σ × Collection σ)
  | .list items => do
    let (items, others) ← Tree.copyListWith fork items
    pure (.list items, .list others)
  | .sequence s => do
    let (s, other) ← fork s
    pure (.sequence s, .sequence other)

namespace Drive

variable (d : Drive m ρ κ)

def copy (v : Value ρ κ) : m (Value ρ κ × Value ρ κ) := v.copyWith d.fork

def dropSequence (s : Sequence ρ κ) : m Unit := d.drop [.sequence s]

def dropItem : Item ρ κ → m Unit
  | .ok v => d.drop [v]
  | .error _ => pure ()

end Drive

end LazyCalc
