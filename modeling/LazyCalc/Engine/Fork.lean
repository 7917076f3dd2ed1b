import LazyCalc.Engine.Drive
import LazyCalc.Engine.Store
/-!
Forking sequences. The first fork of a sequence moves its source into a fan-out, later ones add a
branch to that fan-out. A branch starts from a copy of the backlog of the branch that it was forked
from, for which the sequences in that backlog are forked.
-/

namespace LazyCalc

namespace Sequence

/-- Forks a sequence whose backlog goes through at most `depth` fan-outs. -/
def forkWithin : (depth : Nat) → Linked.Sequence → Engine (Linked.Sequence × Linked.Sequence)
  | 0, _ => Engine.fault .outOfFuel
  | depth + 1, s =>
    match s.origin with
    | .direct source => do
      let (slot, fanout) := Fanout.single.join []
      let i ← Engine.addFanout { source, fanout, hooks := s.hooks }
      pure ({ s with origin := .branch ⟨i, 0⟩, hooks := [] },
        { s with origin := .branch ⟨i, slot⟩, hooks := [] })
    | .branch ⟨i, slot⟩ => do
      let shared ← Engine.lendFanout i
      let (own, seed) ← Item.copyListWith (forkWithin depth) (shared.fanout.backlog slot)
      let (other, fanout) := (shared.fanout.setBacklog slot own).join seed
      Engine.returnFanout i { shared with fanout, hooks := shared.hooks ++ s.hooks }
      pure ({ s with hooks := [] }, { s with origin := .branch ⟨i, other⟩, hooks := [] })

/-- The sequence itself, from now on a branch, and a second branch over the same elements. The
labels of the sequence go over to the fan-out. Backlogs within backlogs are those of different
fan-outs, of which there are only so many. -/
def fork (s : Linked.Sequence) : Engine (Linked.Sequence × Linked.Sequence) :=
  fun st => s.forkWithin (st.fanouts.size + 1) st

end Sequence

end LazyCalc
