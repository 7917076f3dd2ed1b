import LazyCalc.Failure
import LazyCalc.Tree
/-!
How an operator on a collection reads it. An operator sees the extent of the collection first and
answers with a plan: which elements it wants, in what form, and what it notes on the way. That it
can do nothing else with the collection is what keeps the readers of one collection apart.
-/

namespace LazyCalc

/-- What shows of a collection before any of it is read. -/
inductive Extent where
  | list (length : Nat)
  | sequence (hint : Hint)

namespace Extent

def hint : Extent → Hint
  | .list n => .exact n
  | .sequence h => h

end Extent

inductive Reading where
  | constant (value : Plain)
  /-- One element, found from the start. -/
  | element (index : Nat)
  /-- Some elements, those of a sequence not before they are asked for. -/
  | window (start count : Nat)
  /-- Some elements at once, or all of them; a failure among them is the result. -/
  | gather (start : Nat) (count : Option Nat)
  | each (f : Outline → Except Failure Plain)
  /-- How many elements there are; a failure among them is the result. -/
  | count
  /-- How many elements there are, with a failure for one of them. -/
  | tally
  /-- The sum and number of the elements go to `finish`, row by row if the elements are rows. -/
  | total (finish : Scalar → Nat → Except Failure Scalar)
  | whole
  /-- A copy of the collection and the collection itself. -/
  | twice

structure Plan where
  before : List String := []
  reading : Reading
  after : List String := []

namespace Plan

def read (reading : Reading) : Plan := { reading }

end Plan

end LazyCalc
