import LazyCalc.Engine.Fork
import LazyCalc.Engine.Release
import LazyCalc.Engine.Step
/-!
Pulling sequences whose shared parts are in a store. A branch first gives what it lags behind with;
only when it has caught up is the source of the fan-out pulled, and every other branch is given a
copy of what comes.
-/

namespace LazyCalc

abbrev Linked.Drive := LazyCalc.Drive Engine Branch Nat

namespace Engine

def keep (c : Linked.Collection) : Engine Nat := addCell { collection := c, holders := 1 }

def read (i : Nat) : Engine Linked.Collection := do
  let cell ← lendCell i
  let (collection, other) ← cell.collection.copyWith Sequence.fork
  returnCell i { cell with collection }
  pure other

def retain (i : Nat) : Engine Unit := do
  let cell ← lendCell i
  returnCell i { cell with holders := cell.holders + 1 }

def dismiss (i : Nat) : Engine Unit := drop [.cell i]

end Engine

def Item.isFailure {ρ κ : Type} : Item ρ κ → Bool
  | .ok _ => false
  | .error _ => true

def pullBranch (d : Linked.Drive) : Branch → Engine (Option Linked.Item)
  | ⟨i, slot⟩ => do
    let ⟨source, fanout, hooks⟩ ← Engine.lendFanout i
    match fanout.pop? slot with
    | some (item, fanout) =>
      Engine.returnFanout i ⟨source, fanout, hooks⟩
      pure (some item)
    | none =>
      if fanout.done then
        Engine.returnFanout i ⟨source, fanout, hooks⟩
        pure none
      else
        match ← source.step d with
        | (none, source) =>
          Engine.returnFanout i ⟨source, { fanout with done := true }, hooks⟩
          pure none
        | (some item, source) =>
          let done := Item.isFailure item
          let (item, slots, lags) ←
            Fanout.deliver (Item.copyWith d.fork) slot item 0 fanout.slots
          Engine.record (lags.map .lagging)
          Engine.returnFanout i ⟨source, ⟨slots, done⟩, hooks⟩
          pure (some item)

def Drive.linked (fuel : Nat)
    (pull : Linked.Sequence → Engine (Option Linked.Item × Linked.Sequence)) : Linked.Drive where
  fuel
  stuck := Engine.fault .outOfFuel
  pull
  fork := Sequence.fork
  drop := Engine.dropValues
  note := Engine.note
  keep := Engine.keep
  read := Engine.read
  retain := Engine.retain
  dismiss := Engine.dismiss

def Sequence.pull : (fuel : Nat) → Linked.Sequence → Engine (Option Linked.Item × Linked.Sequence)
  | 0, _ => Engine.fault .outOfFuel
  | fuel + 1, s =>
    let d : Linked.Drive := .linked fuel (pull fuel)
    s.step d (pullBranch d)

def Drive.ofFuel (fuel : Nat) : Linked.Drive := .linked fuel (Sequence.pull fuel)

end LazyCalc
