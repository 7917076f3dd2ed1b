/-!
The tuples of a mixed-radix counter, one at a time, the last place turning fastest.
-/

namespace LazyCalc

structure Odometer where
  lengths : List Nat
  upcoming : Option (List Nat)
  deriving DecidableEq, Repr

namespace Odometer

def ofLengths (lengths : List Nat) : Odometer :=
  ⟨lengths, if 0 ∈ lengths then none else some (lengths.map fun _ => 0)⟩

def increment : (lengths indices : List Nat) → Option (List Nat)
  | length :: lengths, i :: is =>
    match increment lengths is with
    | some later => some (i :: later)
    | none => if i + 1 < length then some ((i + 1) :: is.map fun _ => 0) else none
  | _, _ => none

def next (o : Odometer) : Option (List Nat) × Odometer :=
  match o.upcoming with
  | none => (none, o)
  | some indices => (some indices, { o with upcoming := increment o.lengths indices })

end Odometer

end LazyCalc
