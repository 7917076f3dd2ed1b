import LazyCalc.Engine.Total
namespace LazyCalc

variable {m : Type → Type} [Monad m] {ρ κ : Type}

namespace Sequence

variable (d : Drive m ρ κ)

def countStep (seen : Nat) (item : Item ρ κ) : m (Flow Nat Failure) :=
  match item with
  | .error e => pure (.halt e)
  | .ok v => do
    d.drop [v]
    pure (.onward (seen + 1))

def tallyStep (seen : Nat) (item : Item ρ κ) : m (Flow Nat Failure) := do
  d.dropItem item
  pure (.onward (seen + 1))

def countWith (step : Nat → Item ρ κ → m (Flow Nat Failure)) (s : Sequence ρ κ) :
    m (Item ρ κ) := do
  let (flow, s) ← d.walk step 0 s
  d.dropSequence s
  match flow with
  | .onward n => pure (.ok (.scalar (.integer n)))
  | .halt e => pure (.error e)

end Sequence

namespace Collection

variable (d : Drive m ρ κ)

def element (index : Nat) : Collection (Sequence ρ κ) → m (Item ρ κ)
  | .list items => do
    match items[index]? with
    | some v =>
      d.drop (items.eraseIdx index)
      pure (.ok v)
    | none =>
      d.drop items
      pure (.error (.indexOutOfRange index items.length))
  | .sequence s => do
    let (result, s) ← s.index d index
    d.dropSequence s
    pure result

def window (start count : Nat) : Collection (Sequence ρ κ) → m (Item ρ κ)
  | .list items => do
    let rest := items.drop start
    d.drop (items.take start)
    d.drop (rest.drop count)
    pure (.ok (.list (rest.take count)))
  | .sequence s => pure (.ok (.sequence (s.window start count)))

def each (f : Outline → Except Failure Plain) (c : Collection (Sequence ρ κ)) : m (Item ρ κ) :=
  c.toSequence.convert d
    (fun v => do
      let made := f (Value.outline v)
      d.drop [v]
      pure (made.map Tree.ofPlain))
    []

def perform (c : Collection (Sequence ρ κ)) : Reading → m (Item ρ κ)
  | .constant v => do
    d.drop [c.toValue]
    pure (.ok (.ofPlain v))
  | .element index => c.element d index
  | .window start count => c.window d start count
  | .gather start count => c.toSequence.spend d start count
  | .each f => c.each d f
  | .count => c.toSequence.countWith d (Sequence.countStep d)
  | .tally => c.toSequence.countWith d (Sequence.tallyStep d)
  | .total finish => c.total d finish d.fuel 0
  | .whole => pure (.ok c.toValue)
  | .twice => do
    let (c, other) ← c.copyWith d.fork
    pure (.ok (.list [other.toValue, c.toValue]))

def readWith (kernel : Extent → Except Failure Plan) (c : Collection (Sequence ρ κ)) :
    m (Item ρ κ) := do
  match kernel c.extent with
  | .error e =>
    d.drop [c.toValue]
    pure (.error e)
  | .ok plan =>
    d.note plan.before
    match ← c.perform d plan.reading with
    | .ok v =>
      d.note plan.after
      pure (.ok v)
    | .error e => pure (.error e)

end Collection

end LazyCalc
