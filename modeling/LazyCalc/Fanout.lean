import LazyCalc.Backlog
/-!
The slots of the branches that read one source. Each branch owns a slot, which holds what another
branch has already pulled from the source and this one has not yet given. A slot that its branch
has left is used again before a new one is made.
-/

namespace LazyCalc

def firstThreshold : Nat := 65536

/-- The least doubling of `threshold` above `length`, if `fuel` doublings reach it. -/
def thresholdAbove (length : Nat) : (fuel threshold : Nat) → Nat
  | 0, threshold => threshold
  | fuel + 1, threshold =>
    if threshold ≤ length then thresholdAbove length fuel (2 * threshold) else threshold

structure Slot (α : Type) where
  backlog : Backlog α
  /-- The length of backlog at which a warning is due. -/
  warnAt : Nat

/-- A backlog that has just grown to a length at which a warning is due. -/
structure Lag where
  slot : Nat
  length : Nat
  deriving DecidableEq, Repr

namespace Slot

variable {α : Type}

def ofList (items : List α) : Slot α :=
  { backlog := .ofList items, warnAt := thresholdAbove items.length items.length firstThreshold }

def push (s : Slot α) (item : α) : Slot α × Bool :=
  let backlog := s.backlog.push item
  if s.warnAt ≤ backlog.length then ({ backlog, warnAt := 2 * s.warnAt }, true)
  else ({ s with backlog }, false)

end Slot

structure Fanout (α : Type) where
  slots : List (Option (Slot α))
  /-- The source has ended or failed, and is not pulled again. -/
  done : Bool

namespace Fanout

variable {α : Type}

def single : Fanout α := ⟨[some (.ofList [])], false⟩

def slot? (f : Fanout α) (slot : Nat) : Option (Slot α) := (f.slots[slot]?).join

def backlog (f : Fanout α) (slot : Nat) : List α :=
  match f.slot? slot with
  | some s => s.backlog.toList
  | none => []

def isDeserted (f : Fanout α) : Bool := f.slots.all Option.isNone

def setBacklog (f : Fanout α) (slot : Nat) (items : List α) : Fanout α :=
  { f with slots := f.slots.modify slot (·.map fun s => { s with backlog := .ofList items }) }

def pop? (f : Fanout α) (slot : Nat) : Option (α × Fanout α) :=
  match f.slot? slot with
  | none => none
  | some s =>
    match s.backlog.pop? with
    | none => none
    | some (item, backlog) =>
      some (item, { f with slots := f.slots.set slot (some { s with backlog }) })

/-- Puts a new slot in the first place that is free, and says where. -/
def insert (s : Slot α) : List (Option (Slot α)) → Nat × List (Option (Slot α))
  | [] => (0, [some s])
  | none :: slots => (0, some s :: slots)
  | some t :: slots =>
    let (place, slots) := insert s slots
    (place + 1, some t :: slots)

def join (f : Fanout α) (items : List α) : Nat × Fanout α :=
  let (place, slots) := insert (.ofList items) f.slots
  (place, { f with slots })

def leave (f : Fanout α) (slot : Nat) : Fanout α :=
  { f with slots := f.slots.set slot none }

/-- Gives every branch but the puller its own copy of an item, in the order of the slots, which
are numbered from `slot`. -/
def deliver {m : Type → Type} [Monad m] (copy : α → m (α × α)) (puller : Nat) (item : α) :
    (slot : Nat) → List (Option (Slot α)) → m (α × List (Option (Slot α)) × List Lag)
  | _, [] => pure (item, [], [])
  | slot, none :: slots => do
    let (item, slots, lags) ← deliver copy puller item (slot + 1) slots
    pure (item, none :: slots, lags)
  | slot, some s :: slots => do
    if slot = puller then
      let (item, slots, lags) ← deliver copy puller item (slot + 1) slots
      pure (item, some s :: slots, lags)
    else
      let (item, other) ← copy item
      let (s, due) := s.push other
      let (item, slots, lags) ← deliver copy puller item (slot + 1) slots
      pure (item, some s :: slots, if due then ⟨slot, s.backlog.length⟩ :: lags else lags)

end Fanout

end LazyCalc
