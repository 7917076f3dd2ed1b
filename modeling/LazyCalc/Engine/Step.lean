import LazyCalc.Engine.Call
namespace LazyCalc

variable {m : Type → Type} [Monad m] {ρ κ : Type} (d : Drive m ρ κ)

namespace Mapping

def apply (v : Value ρ κ) : Mapping κ → m (Item ρ κ)
  | .broadcast leaf limit depth => broadcastOne d (leaf.run d) leaf limit depth v
  | .against fixed side leaf limit depth =>
    match side with
    | .left => broadcastTwo d (fun x y => leaf.run d (x, y)) leaf limit depth (.scalar fixed) v
    | .right => broadcastTwo d (fun x y => leaf.run d (x, y)) leaf limit depth v (.scalar fixed)
  | .note text => do
    d.note [text (Value.outline v)]
    pure (.ok v)
  | .invoke table name extra => table.invoke d name (v :: extra.map .scalar)
  | .enlist => pure (.ok (.list [v]))
  | .stream => pure (.ok (.sequence (.wrap v)))

end Mapping

namespace Pairing

def apply (a b : Value ρ κ) : Pairing κ → m (Item ρ κ)
  | .broadcast leaf limit depth =>
    broadcastTwo d (fun x y => leaf.run d (x, y)) leaf limit depth a b
  | .invoke table name => table.invoke d name [a, b]
  | .enlist => pure (.ok (.list [a, b]))

end Pairing

/-- Looks for an element that the test keeps; others are dropped. -/
def filterStep (test : Outline → Except Failure Bool) (invert : Bool) (item : Item ρ κ) :
    m (Flow Unit (Item ρ κ)) :=
  match item with
  | .error e => pure (.halt (.error e))
  | .ok v =>
    match test (Value.outline v) with
    | .ok kept =>
      if kept != invert then pure (.halt (.ok v))
      else do
        d.drop [v]
        pure (.onward ())
    | .error e => do
      d.drop [v]
      pure (.halt (.error e))

namespace Source

def step : Source (Sequence ρ κ) κ → m (Option (Item ρ κ) × Source (Sequence ρ κ) κ)
  | .generated g =>
    let (item, g) := g.next
    pure (item.map (·.map Tree.ofPlain), .generated g)
  | .items [] => pure (none, .items [])
  | .items (item :: remaining) => pure (some item, .items remaining)
  | .mapped inner mapping => do
    match ← d.pull inner with
    | (none, inner) => pure (none, .mapped inner mapping)
    | (some (.error e), inner) => pure (some (.error e), .mapped inner mapping)
    | (some (.ok v), inner) =>
      let item ← mapping.apply d v
      pure (some item, .mapped inner mapping)
  | .filtered inner test held invert => do
    match ← d.walk (fun _ => filterStep d test invert) () inner with
    | (.onward (), inner) => pure (none, .filtered inner test held invert)
    | (.halt item, inner) => pure (some item, .filtered inner test held invert)
  | .zipped left right pairing => do
    match ← d.pull left with
    | (none, left) => pure (none, .zipped left right pairing)
    | (some (.error e), left) => pure (some (.error e), .zipped left right pairing)
    | (some (.ok a), left) =>
      match ← d.pull right with
      | (none, right) =>
        d.drop [a]
        pure (none, .zipped left right pairing)
      | (some (.error e), right) =>
        d.drop [a]
        pure (some (.error e), .zipped left right pairing)
      | (some (.ok b), right) =>
        let item ← pairing.apply d a b
        pure (some item, .zipped left right pairing)
  | .window inner skip take => do
    match take with
    | 0 => pure (none, .window inner skip 0)
    | take + 1 =>
      let (_, inner) ← inner.discard d skip 0
      let (item, inner) ← d.pull inner
      pure (item, .window inner 0 take)

end Source

namespace Sequence

/-- After an end or a failure a sequence gives nothing more. -/
def closes : Option (Item ρ κ) → Bool
  | some (.ok _) => false
  | some (.error _) | none => true

/-- One pull; `pullBranch` is how a branch is pulled. -/
def step (pullBranch : ρ → m (Option (Item ρ κ))) (s : Sequence ρ κ) :
    m (Option (Item ρ κ) × Sequence ρ κ) := do
  if s.finished then pure (none, s)
  else
    let ⟨origin, hint, _, hooks⟩ := s
    match origin with
    | .direct source =>
      let (item, source) ← source.step d
      pure (item, ⟨.direct source, hint, closes item, hooks⟩)
    | .branch place =>
      let item ← pullBranch place
      pure (item, ⟨.branch place, hint, closes item, hooks⟩)

end Sequence

end LazyCalc
