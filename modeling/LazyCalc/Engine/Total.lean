import LazyCalc.Engine.Walk
/-!
Recursion into nested values: making lists of all sequences in a value, and adding up rows.
-/

namespace LazyCalc

variable {m : Type → Type} [Monad m] {ρ κ : Type}

/-- Makes a list of what `f` gives for each value. At a failure the values left over are dropped,
then what was made so far. -/
def Drive.mapValues (d : Drive m ρ κ) (f : Value ρ κ → m (Item ρ κ)) :
    List (Value ρ κ) → (made : List (Value ρ κ)) → m (Item ρ κ)
  | [], made => pure (.ok (.list made.reverse))
  | v :: vs, made => do
    match ← f v with
    | .ok w => mapValues d f vs (w :: made)
    | .error e =>
      d.drop vs
      d.drop made.reverse
      pure (.error e)

namespace Sequence

def convertStep (f : Value ρ κ → m (Item ρ κ)) (made : List (Value ρ κ)) (item : Item ρ κ) :
    m (Flow (List (Value ρ κ)) (Gathered (Sequence ρ κ))) :=
  match item with
  | .error e => pure (.halt ⟨made.reverse, some e⟩)
  | .ok v => do
    match ← f v with
    | .ok w => pure (.onward (w :: made))
    | .error e => pure (.halt ⟨made.reverse, some e⟩)

def convert (d : Drive m ρ κ) (f : Value ρ κ → m (Item ρ κ)) (made : List (Value ρ κ))
    (s : Sequence ρ κ) : m (Item ρ κ) := do
  let (flow, s) ← d.walk (convertStep f) made s
  d.dropSequence s
  match flow with
  | .onward made => pure (.ok (.list made.reverse))
  | .halt gathered => d.settle gathered

def addStep (d : Drive m ρ κ) (sum : Scalar × Nat) (item : Item ρ κ) :
    m (Flow (Scalar × Nat) Failure) :=
  match item with
  | .error e => pure (.halt e)
  | .ok (.scalar x) =>
    match sum.1.add x with
    | .ok total => pure (.onward (total, sum.2 + 1))
    | .error e => pure (.halt e)
  | .ok other => do
    d.drop [other]
    pure (.halt (.type s!"Cannot add a {other.typeName} to a running total"))

def addUp (d : Drive m ρ κ) (finish : Scalar → Nat → Except Failure Scalar) (first : Scalar)
    (s : Sequence ρ κ) : m (Item ρ κ) := do
  let (flow, s) ← d.walk (addStep d) (first, 1) s
  d.dropSequence s
  match flow with
  | .onward (total, count) => pure ((finish total count).map .scalar)
  | .halt e => pure (.error e)

end Sequence

def Value.materialize (d : Drive m ρ κ) : (fuel : Nat) → Value ρ κ → m (Item ρ κ)
  | 0, _ => d.stuck
  | _ + 1, .scalar s => pure (.ok (.scalar s))
  | fuel + 1, .list items => d.mapValues (materialize d fuel) items []
  | fuel + 1, .sequence s => s.convert d (materialize d fuel) []

/-- One pass over a collection. A first element that is a scalar starts a running total; any other
makes the elements rows, each with a total of its own. -/
def Collection.total (d : Drive m ρ κ) (finish : Scalar → Nat → Except Failure Scalar) :
    (fuel depth : Nat) → Collection (Sequence ρ κ) → m (Item ρ κ)
  | 0, _, _ => d.stuck
  | fuel + 1, depth, collection => do
    if defaultLimit < depth then
      d.drop [collection.toValue]
      pure (.error (.nestingTooDeep defaultLimit))
    else
      match ← d.pull collection.toSequence with
      | (none, s) =>
        d.dropSequence s
        pure ((finish (.integer 0) 0).map .scalar)
      | (some (.error e), s) =>
        d.dropSequence s
        pure (.error e)
      | (some (.ok (.scalar first)), s) => s.addUp d finish first
      | (some (.ok row), s) =>
        let rowTotal (row : Value ρ κ) := total d finish fuel (depth + 1) (.ofValue row)
        match ← rowTotal row with
        | .ok made => s.convert d rowTotal [made]
        | .error e =>
          d.dropSequence s
          pure (.error e)

end LazyCalc
