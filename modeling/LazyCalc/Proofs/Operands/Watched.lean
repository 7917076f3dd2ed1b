import LazyCalc.Engine.Pull
import LazyCalc.Proofs.Engine.Places
/-!
Pulls of a sequence where each pull of one of its operands is written down, with what showed of it.
But for what is written they are the pulls of the sequence.
-/

namespace LazyCalc

/-- A pull of an operand, and what showed of it. A lone operand is on the left. -/
structure Touch where
  side : Side
  came : Option (Except Failure Outline)

abbrev Watched := StateT (List Touch) Engine

namespace Drive

variable (d : Linked.Drive)

def shown (item : Option Linked.Item) : Option (Except Failure Outline) :=
  item.map (Except.map Value.outline)

def watch (side : Side) (s : Linked.Sequence) : Watched (Option Linked.Item × Linked.Sequence) := do
  let (item, s) ← (d.pull s : Engine _)
  modify (· ++ [⟨side, shown item⟩])
  pure (item, s)

def watched (side : Side) : LazyCalc.Drive Watched Branch Nat where
  fuel := d.fuel
  stuck := liftM (m := Engine) d.stuck
  pull := d.watch side
  fork s := liftM (d.fork s)
  drop vs := liftM (d.drop vs)
  note texts := liftM (d.note texts)
  keep c := liftM (d.keep c)
  read i := liftM (d.read i)
  retain i := liftM (d.retain i)
  dismiss i := liftM (d.dismiss i)

end Drive

/-- A step of a source, where the pulls of its operands are written down. -/
def Source.stepWatched (d : Linked.Drive) :
    Linked.Source → Watched (Option Linked.Item × Linked.Source)
  | .mapped inner mapping => do
    match ← d.watch .left inner with
    | (none, inner) => pure (none, .mapped inner mapping)
    | (some (.error e), inner) => pure (some (.error e), .mapped inner mapping)
    | (some (.ok v), inner) =>
      let item ← (mapping.apply d v : Engine _)
      pure (some item, .mapped inner mapping)
  | .filtered inner test held invert => do
    match ← (d.watched .left).walk
      (fun _ item => (filterStep d test invert item : Engine _)) () inner with
    | (.onward (), inner) => pure (none, .filtered inner test held invert)
    | (.halt item, inner) => pure (some item, .filtered inner test held invert)
  | .zipped left right pairing => do
    match ← d.watch .left left with
    | (none, left) => pure (none, .zipped left right pairing)
    | (some (.error e), left) => pure (some (.error e), .zipped left right pairing)
    | (some (.ok a), left) =>
      match ← d.watch .right right with
      | (none, right) =>
        (d.drop [a] : Engine _)
        pure (none, .zipped left right pairing)
      | (some (.error e), right) =>
        (d.drop [a] : Engine _)
        pure (some (.error e), .zipped left right pairing)
      | (some (.ok b), right) =>
        let item ← (pairing.apply d a b : Engine _)
        pure (some item, .zipped left right pairing)
  | .window inner skip take => do
    match take with
    | 0 => pure (none, .window inner skip 0)
    | take + 1 =>
      let (_, inner) ← inner.discard (d.watched .left) skip 0
      let (item, inner) ← d.watch .left inner
      pure (item, .window inner 0 take)
  | source => (source.step d : Engine _)

/-- A pull with `n + 1` units of fuel, where the pulls of operands are written down. A branch has no
operand by itself. -/
def Sequence.pullWatched (n : Nat) (s : Linked.Sequence) :
    Watched (Option Linked.Item × Linked.Sequence) := do
  if s.finished then pure (none, s)
  else
    let ⟨origin, hint, _, hooks⟩ := s
    match origin with
    | .direct source =>
      let (item, source) ← source.stepWatched (Drive.ofFuel n)
      pure (item, ⟨.direct source, hint, closes item, hooks⟩)
    | .branch place =>
      let item ← (pullBranch (Drive.ofFuel n) place : Engine _)
      pure (item, ⟨.branch place, hint, closes item, hooks⟩)

/-- But for what is written down, `X` does what `Y` does. -/
def Watched.Of {α : Type} (X : Watched α) (Y : Engine α) : Prop :=
  ∀ touches, Prod.fst <$> X touches = Y

namespace Watched.Of

variable {α β : Type} {X : Watched α} {Y : Engine α}

theorem pure (a : α) : Of (Pure.pure a) (Pure.pure a) := fun _ => rfl

theorem bind {f : α → Watched β} {g : α → Engine β} (hX : Of X Y) (hf : ∀ a, Of (f a) (g a)) :
    Of (X >>= f) (Y >>= g) := by
  intro touches
  change Prod.fst <$> (X touches >>= fun r => f r.1 r.2) = Y >>= g
  rw [map_bind, ← hX touches, bind_map_left]
  exact bind_congr fun r => hf r.1 r.2

end Watched.Of

namespace Drive

open Watched (Of)

variable (d : Linked.Drive) (side : Side)

end Drive

open Watched (Of)

end LazyCalc
