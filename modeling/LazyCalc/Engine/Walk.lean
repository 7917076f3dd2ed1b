import LazyCalc.Engine.Drive
/-!
Walking along a sequence, and what is found that way: an element, some elements, all of them.
-/

namespace LazyCalc

inductive Flow (β γ : Type) where
  | onward (state : β)
  | halt (result : γ)

structure Gathered (σ : Type) where
  items : List (Tree σ)
  failure : Option Failure

variable {m : Type → Type} [Monad m] {ρ κ : Type}

namespace Drive

variable (d : Drive m ρ κ)

def walkFor {β γ : Type} (visit : β → Item ρ κ → m (Flow β γ)) :
    (fuel : Nat) → β → Sequence ρ κ → m (Flow β γ × Sequence ρ κ)
  | 0, _, _ => d.stuck
  | fuel + 1, state, s => do
    match ← d.pull s with
    | (none, s) => pure (.onward state, s)
    | (some item, s) =>
      match ← visit state item with
      | .onward state => walkFor visit fuel state s
      | .halt result => pure (.halt result, s)

def walk {β γ : Type} (visit : β → Item ρ κ → m (Flow β γ)) (state : β) (s : Sequence ρ κ) :
    m (Flow β γ × Sequence ρ κ) :=
  d.walkFor visit d.fuel state s

def settle (g : Gathered (Sequence ρ κ)) : m (Item ρ κ) :=
  match g.failure with
  | none => pure (.ok (.list g.items))
  | some e => do
    d.drop g.items
    pure (.error e)

end Drive

namespace Sequence

variable (d : Drive m ρ κ)

/-- Pulls at most `n` elements and drops them, failures too; counts them on top of `came`. -/
def discard : (n came : Nat) → Sequence ρ κ → m (Nat × Sequence ρ κ)
  | 0, came, s => pure (came, s)
  | n + 1, came, s => do
    match ← d.pull s with
    | (none, s) => pure (came, s)
    | (some item, s) =>
      d.dropItem item
      discard n (came + 1) s

/-- Takes an element and goes on while more are wanted; with none for `wanted`, all are. -/
def gatherStep (state : Option Nat × List (Value ρ κ)) (item : Item ρ κ) :
    m (Flow (Option Nat × List (Value ρ κ)) (Gathered (Sequence ρ κ))) :=
  match item, state with
  | .error e, (_, taken) => pure (.halt ⟨taken.reverse, some e⟩)
  | .ok v, (none, taken) => pure (.onward (none, v :: taken))
  | .ok v, (some wanted, taken) =>
    if wanted ≤ 1 then pure (.halt ⟨(v :: taken).reverse, none⟩)
    else pure (.onward (some (wanted - 1), v :: taken))

def gather (count : Option Nat) (s : Sequence ρ κ) : m (Gathered (Sequence ρ κ) × Sequence ρ κ) := do
  if count = some 0 then pure (⟨[], none⟩, s)
  else
    match ← d.walk gatherStep (count, []) s with
    | (.onward (_, taken), s) => pure (⟨taken.reverse, none⟩, s)
    | (.halt gathered, s) => pure (gathered, s)

def spend (start : Nat) (count : Option Nat) (s : Sequence ρ κ) : m (Item ρ κ) := do
  if count = some 0 then
    d.dropSequence s
    pure (.ok (.list []))
  else
    let (_, s) ← discard d start 0 s
    let (gathered, s) ← gather d count s
    d.dropSequence s
    d.settle gathered

def collect (s : Sequence ρ κ) : m (Item ρ κ) := spend d 0 none s

def takeList (n : Nat) (s : Sequence ρ κ) : m (Item ρ κ × Sequence ρ κ) := do
  let (gathered, s) ← gather d (some n) s
  let result ← d.settle gathered
  pure (result, s)

def indexStep (index seen : Nat) (item : Item ρ κ) : m (Flow Nat (Item ρ κ)) :=
  match item with
  | .error e => pure (.halt (.error e))
  | .ok v =>
    if seen = index then pure (.halt (.ok v))
    else do
      d.drop [v]
      pure (.onward (seen + 1))

/-- The element at a position, found by a branch that walks there and is dropped. -/
def index (index : Nat) (s : Sequence ρ κ) : m (Item ρ κ × Sequence ρ κ) := do
  let (s, walker) ← d.fork s
  let (found, walker) ← d.walk (indexStep d index) 0 walker
  d.dropSequence walker
  match found with
  | .halt result => pure (result, s)
  | .onward seen => pure (.error (.indexOutOfRange index seen), s)

def slice (start stop : Nat) (s : Sequence ρ κ) : m (Item ρ κ × Sequence ρ κ) := do
  let (s, walker) ← d.fork s
  let result ← walker.spend d start (some (stop - start))
  pure (result, s)

end Sequence

end LazyCalc
