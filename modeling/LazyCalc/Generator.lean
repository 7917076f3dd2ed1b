import LazyCalc.Progression
import LazyCalc.Tuples.Assembly
import LazyCalc.Tuples.Odometer
import LazyCalc.Tuples.Permutations
/-!
Generators: sources that compute their elements from their own state alone, with nothing shared
and nothing to close.
-/

namespace LazyCalc

inductive Generator where
  | bounded (progression : Bounded)
  | counted (progression : Counted)
  | permutations (tuples : Permutations) (items : List Scalar) (assemble : Assembly)
  | product (tuples : Odometer) (sources : List (List Scalar)) (assemble : Assembly)
  /-- Gives `answer n` when it is asked for the `n`-th time, counted from zero. -/
  | answers (answer : Nat → Option (Except Failure Plain)) (asked : Nat)

namespace Generator

def scalarItem : Pending → Option (Except Failure Plain)
  | none => none
  | some (.ok s) => some (.ok (.scalar s))
  | some (.error e) => some (.error e)

def choose (items : List Scalar) (indices : List Nat) : List Scalar :=
  indices.filterMap fun i => items[i]?

def chooseEach : (sources : List (List Scalar)) → (indices : List Nat) → List Scalar
  | source :: sources, i :: is => source[i]?.toList ++ chooseEach sources is
  | _, _ => []

def next : Generator → Option (Except Failure Plain) × Generator
  | .bounded p =>
    let (item, p) := p.next
    (scalarItem item, .bounded p)
  | .counted p =>
    let (item, p) := p.next
    (scalarItem item, .counted p)
  | .permutations tuples items assemble =>
    let (indices, tuples) := tuples.next
    (indices.map fun is => assemble (choose items is), .permutations tuples items assemble)
  | .product tuples sources assemble =>
    let (indices, tuples) := tuples.next
    (indices.map fun is => assemble (chooseEach sources is), .product tuples sources assemble)
  | .answers answer asked => (answer asked, .answers answer (asked + 1))

end Generator

/-- A generator with what is known of its length: a sequence not yet started. -/
structure Draft where
  hint : Hint
  generator : Generator

namespace Draft

def bounded (start stop step : Scalar) : Except Failure Draft := do
  let progression ← Bounded.of start stop step
  pure ⟨progression.hint, .bounded progression⟩

def counted (progression : Counted) : Draft :=
  ⟨.exact progression.remaining, .counted progression⟩

/-- The product of the lengths, while every partial product fits a 64-bit word. -/
def checkedProduct (lengths : List Nat) : Option Nat :=
  lengths.foldlM (fun product n =>
    if product * n < Scalar.wordLimit then some (product * n) else none) 1

def productHint (lengths : List Nat) : Hint :=
  match checkedProduct lengths with
  | some n => .exact n
  | none => .unknown

def permutations (items : List Scalar) (assemble : Assembly) : Draft :=
  ⟨productHint ((List.range items.length).map (· + 1)),
    .permutations (.ofLength items.length) items assemble⟩

def product (sources : List (List Scalar)) (assemble : Assembly) : Draft :=
  ⟨productHint (sources.map List.length),
    .product (.ofLengths (sources.map List.length)) sources assemble⟩

end Draft

end LazyCalc
