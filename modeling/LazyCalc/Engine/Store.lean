import LazyCalc.Fanout
import LazyCalc.Sequence.Basic
/-!
The store behind all sequences of a calculation: the fan-outs that branches share, the collections
that delayed calls share, and the log of what was noted. A calculation that fails
gives a `Failure` and leaves the store as it is then; a `Fault` is the end of everything.
-/

namespace LazyCalc

structure Branch where
  fanout : Nat
  slot : Nat
  deriving DecidableEq, Repr

namespace Linked

abbrev Sequence := LazyCalc.Sequence Branch Nat

abbrev Source := LazyCalc.Source Sequence Nat

abbrev Origin := LazyCalc.Origin Sequence Branch Nat

abbrev Value := LazyCalc.Value Branch Nat

abbrev Item := LazyCalc.Item Branch Nat

abbrev Collection := LazyCalc.Collection Sequence

end Linked

inductive Event where
  | note (text : String)
  | closed (label : String)
  | lagging (lag : Lag)
  deriving DecidableEq, Repr

namespace Event

def text : Event → String
  | .note text => text
  | .closed label => "close:" ++ label
  | .lagging lag => s!"warn:branch={lag.slot} backlog={lag.length}"

end Event

/-- What no calculation recovers from: the fuel is spent, something in use was asked for again, or
something that is gone was asked for. -/
inductive Fault where
  | outOfFuel
  | reentered
  | dangling
  deriving DecidableEq, Repr

/-- A source that branches read, with the labels noted once the last of them is dropped. -/
structure Shared where
  source : Linked.Source
  fanout : Fanout Linked.Item
  hooks : List String

/-- A collection that delayed calls read, and how many of them there are. -/
structure Cell where
  collection : Linked.Collection
  holders : Nat

/-- A numbered place: what was in it is gone, is lent out, or is there. -/
inductive Place (α : Type) where
  | vacant
  | lent
  | held (value : α)

structure Store where
  fanouts : Array (Place Shared)
  cells : Array (Place Cell)
  log : Array Event

namespace Store

def empty : Store := ⟨#[], #[], #[]⟩

/-- Takes out what is at a place, which stays lent until something is put there. -/
def lend {α : Type} (places : Array (Place α)) (i : Nat) : Except Fault (α × Array (Place α)) :=
  if h : i < places.size then
    let place := places[i]
    let places := places.set i .lent
    match place with
    | .held a => .ok (a, places)
    | .lent => .error .reentered
    | .vacant => .error .dangling
  else .error .dangling

def lendFanout (i : Nat) : Store → Except Fault (Shared × Store)
  | ⟨fanouts, cells, log⟩ =>
    match lend fanouts i with
    | .ok (shared, fanouts) => .ok (shared, ⟨fanouts, cells, log⟩)
    | .error fault => .error fault

def lendCell (i : Nat) : Store → Except Fault (Cell × Store)
  | ⟨fanouts, cells, log⟩ =>
    match lend cells i with
    | .ok (cell, cells) => .ok (cell, ⟨fanouts, cells, log⟩)
    | .error fault => .error fault

def setFanout (i : Nat) (place : Place Shared) : Store → Store
  | ⟨fanouts, cells, log⟩ => ⟨fanouts.setIfInBounds i place, cells, log⟩

def setCell (i : Nat) (place : Place Cell) : Store → Store
  | ⟨fanouts, cells, log⟩ => ⟨fanouts, cells.setIfInBounds i place, log⟩

def addFanout (shared : Shared) : Store → Nat × Store
  | ⟨fanouts, cells, log⟩ => (fanouts.size, ⟨fanouts.push (.held shared), cells, log⟩)

def addCell (cell : Cell) : Store → Nat × Store
  | ⟨fanouts, cells, log⟩ => (cells.size, ⟨fanouts, cells.push (.held cell), log⟩)

def record (events : List Event) : Store → Store
  | ⟨fanouts, cells, log⟩ => ⟨fanouts, cells, events.foldl Array.push log⟩

end Store

abbrev Engine := StateT Store (Except Fault)

namespace Engine

def fault {α : Type} (f : Fault) : Engine α := fun _ => .error f

def lendFanout (i : Nat) : Engine Shared := fun st => st.lendFanout i

def lendCell (i : Nat) : Engine Cell := fun st => st.lendCell i

def returnFanout (i : Nat) (shared : Shared) : Engine Unit :=
  fun st => .ok ((), st.setFanout i (.held shared))

def returnCell (i : Nat) (cell : Cell) : Engine Unit :=
  fun st => .ok ((), st.setCell i (.held cell))

def addFanout (shared : Shared) : Engine Nat := fun st => .ok (st.addFanout shared)

def addCell (cell : Cell) : Engine Nat := fun st => .ok (st.addCell cell)

def record (events : List Event) : Engine Unit := fun st => .ok ((), st.record events)

def note (texts : List String) : Engine Unit := record (texts.map .note)

end Engine

end LazyCalc
