/-!
The orderings of `0, …, n - 1`, one at a time, in lexicographic order. Beside the present ordering,
a counter for each place says how many exchanges that place has left before it is rotated back.
-/

namespace LazyCalc

structure Arrangement where
  indices : List Nat
  cycles : List Nat
  deriving DecidableEq, Repr

namespace Arrangement

def first (n : Nat) : Arrangement :=
  ⟨List.range n, (List.range n).map (n - ·)⟩

def rotateFrom (place : Nat) (xs : List Nat) : List Nat :=
  match xs.drop place with
  | [] => xs
  | y :: ys => xs.take place ++ ys ++ [y]

def exchange (i j : Nat) (xs : List Nat) : List Nat :=
  match xs[i]?, xs[j]? with
  | some x, some y => (xs.set i y).set j x
  | _, _ => xs

/-- Counts down the counter of the place before `places`. One that runs out rotates the suffix
from its place on, starts again, and passes on to the place before it. -/
def advance : (places : Nat) → Arrangement → Option Arrangement
  | 0, _ => none
  | place + 1, ⟨indices, cycles⟩ =>
    let left := cycles.getD place 0 - 1
    if left = 0 then
      advance place ⟨rotateFrom place indices, cycles.set place (indices.length - place)⟩
    else
      some ⟨exchange place (indices.length - left) indices, cycles.set place left⟩

end Arrangement

structure Permutations where
  upcoming : Option Arrangement
  deriving DecidableEq, Repr

namespace Permutations

def ofLength (n : Nat) : Permutations := ⟨some (.first n)⟩

def next (p : Permutations) : Option (List Nat) × Permutations :=
  match p.upcoming with
  | none => (none, p)
  | some a => (some a.indices, ⟨a.advance a.indices.length⟩)

end Permutations

end LazyCalc
