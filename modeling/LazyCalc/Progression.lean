import LazyCalc.Hint
import LazyCalc.Scalar.Order
/-!
Progressions of scalars. A bounded progression counts from a start by a step while it has not
passed its end; a counted one gives a fixed number of elements, each computed from the one before.
-/

namespace LazyCalc

/-- The element to give next, or the failure met in computing it; none once either was given. -/
abbrev Pending := Option (Except Failure Scalar)

structure Bounded where
  pending : Pending
  stop : Scalar
  step : Scalar
  ascending : Bool

namespace Bounded

/-- Counting down from a larger start turns a positive step round. -/
def towards (start stop step : Scalar) : Except Failure Scalar := do
  if (← start.order stop) = .gt then
    if ← step.isNegative then pure step else step.negate
  else pure step

def of (start stop step : Scalar) : Except Failure Bounded := do
  if step.isZero then throw (.domain "range step cannot be zero")
  let step ← towards start stop step
  let descending ← step.isNegative
  pure ⟨some (.ok start), stop, step, !descending⟩

def passed (p : Bounded) (current : Scalar) : Except Failure Bool := do
  match ← current.order p.stop with
  | .gt => pure p.ascending
  | .lt => pure (!p.ascending)
  | .eq => pure false

/-- The element after the one given is computed at once, and a failure in that is kept for the
next call. -/
def next (p : Bounded) : Pending × Bounded :=
  match p.pending with
  | none => (none, p)
  | some (.error e) => (some (.error e), { p with pending := none })
  | some (.ok current) =>
    match p.passed current with
    | .error e => (some (.error e), { p with pending := none })
    | .ok true => (none, { p with pending := none })
    | .ok false => (some (.ok current), { p with pending := some (current.add p.step) })

def leadsAway (span step : Scalar) : Bool :=
  !span.isZero &&
    match span.isNegative, step.isNegative with
    | .ok backwards, .ok descending => backwards != descending
    | _, _ => false

/-- `ceil ((|stop - start| + 1) / |step|)`, where the kind of element allows it. -/
def estimate (start stop step : Scalar) : Hint :=
  match stop.subtract start with
  | .error _ => .unknown
  | .ok span =>
    if leadsAway span step then .estimated 0
    else
      let quotient : Except Failure Scalar := do
        let distance ← span.magnitude
        let distance ← distance.add (.integer 1)
        distance.divide (← step.magnitude)
      match quotient with
      | .error _ => .unknown
      | .ok q =>
        match q.ceiling? with
        | some n => .estimated n
        | none => .unknown

def hint (p : Bounded) : Hint :=
  match p.pending with
  | some (.ok start) => estimate start p.stop p.step
  | _ => .unknown

end Bounded

structure Counted where
  pending : Pending
  remaining : Nat
  advance : Scalar → Except Failure Scalar

namespace Counted

def bySum (start step : Scalar) (count : Nat) : Counted :=
  ⟨some (.ok start), count, fun current => current.add step⟩

def byProduct (start ratio : Scalar) (count : Nat) : Counted :=
  ⟨some (.ok start), count, fun current => current.multiply ratio⟩

def byPower (start exponent : Scalar) (count : Nat) : Counted :=
  ⟨some (.ok start), count, fun current => current.power exponent⟩

/-- The next element is computed when the one before it is given, except after the last. -/
def next (p : Counted) : Pending × Counted :=
  match p.remaining with
  | 0 => (none, p)
  | remaining + 1 =>
    match p.pending with
    | some (.ok current) =>
      let pending := if remaining = 0 then none else some (p.advance current)
      (some (.ok current), { p with remaining, pending })
    | pending => (pending, { p with remaining, pending := none })

end Counted

end LazyCalc
