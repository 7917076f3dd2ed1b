import LazyCalc.Operator.Table
import LazyCalc.Scalar.Order
namespace LazyCalc.Operator

def ofUnary (f : Scalar → Except Failure Scalar) : Operator :=
  .oneArg (fun a => .ofScalar (f a)) defaultLimit

def ofBinary (f : Scalar → Scalar → Except Failure Scalar) : Operator :=
  .twoArg (fun a b => .ofScalar (f a b)) defaultLimit

/-- A power in doubles that is no finite number is refused. -/
def checkedPower (base exponent : Scalar) : Except Failure Scalar := do
  let power ← base.power exponent
  match power with
  | .number x =>
    if x.isNaN then throw (.domain "pow result is NaN")
    else if x.isInf then throw (.domain "pow result is infinite")
    else pure power
  | _ => pure power

def sumPlan (_ : Extent) : Except Failure Plan :=
  .ok (.read (.total fun total _ => .ok total))

def meanPlan (_ : Extent) : Except Failure Plan :=
  .ok (.read (.total fun total count =>
    if count = 0 then .error (.domain "mean of an empty list")
    else total.divide (.integer count)))

/-- An exact hint is believed; any other collection is walked. -/
def countPlan (extent : Extent) : Except Failure Plan :=
  match extent.hint with
  | .exact n => .ok (.read (.constant (.scalar (.integer n))))
  | .estimated _ | .unknown => .ok (.read .count)

def listPosition (length : Nat) (index : Scalar) : Except Failure Nat :=
  match index with
  | .integer i =>
    if i < 0 then
      if i.natAbs ≤ length then .ok (length - i.natAbs)
      else .error (.indexOutOfRange (Nat.min i.natAbs (Scalar.wordLimit - 1)) length)
    else index.position "index"
  | _ => index.position "index"

/-- A sequence has no known end, so only positions from its start. -/
def nthPlan (index : Scalar) (extent : Extent) : Except Failure Plan := do
  match extent with
  | .list length => pure (.read (.element (← listPosition length index)))
  | .sequence _ => pure (.read (.element (← index.position "index")))

def sublistPlan (start count : Scalar) (_ : Extent) : Except Failure Plan := do
  let start ← start.position "start"
  let count ← count.position "count"
  pure (.read (.window start count))

def boundedRange (start stop step : Scalar) : Outcome :=
  .ofDraft (Draft.bounded start stop step)

def countedRange (progression : Scalar → Scalar → Nat → Counted) (start step count : Scalar) :
    Outcome :=
  .ofDraft ((count.position "count").map fun n => Draft.counted (progression start step n))

def permuteDigits (n : Scalar) : Except Failure Draft :=
  match n with
  | .integer i =>
    if i < 0 then .error (needsNatural n)
    else .ok (Draft.permutations ((toString i).toList.map fun c => .string c.toString) .digits)
  | n => .error (needsNatural n)
where
  needsNatural (n : Scalar) : Failure :=
    .domain ("permute_digits needs a non-negative integer, got " ++ n.text)

def builtins : List (String × Operator × String) :=
  [("+", ofBinary Scalar.add,
      "Add two values, element by element for lists and sequences.\nUsage: a b +\nExample: [1 2 3] 10 + => [11 12 13]"),
   ("-", ofBinary Scalar.subtract,
      "Subtract the top value from the one below it.\nUsage: a b -\nExample: 10 [1 2] - => [9 8]"),
   ("*", ofBinary Scalar.multiply,
      "Multiply two values.\nUsage: a b *\nExample: [1 2 3] [4 5 6] * => [4 10 18]"),
   ("/", ofBinary Scalar.divide,
      "Divide. Integers divide exactly into rationals.\nUsage: a b /\nExample: 7 2 / => 7/2"),
   ("**", ofBinary checkedPower,
      "Raise a base to a power.\nUsage: base exponent **\nExample: 2 10 ** => 1024"),
   ("neg", ofUnary Scalar.negate,
      "Negate a value.\nUsage: a neg\nExample: [1 -2] neg => [-1 2]"),
   ("sqr", ofUnary fun a => a.multiply a,
      "Square a value.\nUsage: a sqr\nExample: [2 3] sqr => [4 9]"),
   ("sum", .listArg sumPlan,
      "Add up a list or sequence; a list of lists sums each row.\nUsage: list sum\nExample: [1 2 3] sum => 6"),
   ("mean", .listArg meanPlan,
      "Arithmetic mean of a list or sequence.\nUsage: list mean\nExample: [1 2 6] mean => 3"),
   ("count", .listArg countPlan,
      "Number of elements in a list or sequence.\nUsage: list count\nExample: [4 5 6] count => 3"),
   ("nth", .listAndOneArg nthPlan defaultLimit,
      "Element at a position, counting from 0.\nUsage: list i nth\nExample: [4 5 6] [0 2] nth => [4 6]"),
   ("sublist", .listAndTwoArgs sublistPlan defaultLimit,
      "Take count elements starting at a position.\nUsage: list start count sublist\nExample: [1 2 3 4 5] 1 3 sublist => [2 3 4]"),
   ("range", .twoArg (fun start stop => boundedRange start stop (.integer 1)) defaultLimit,
      "Count by one from start to end.\nUsage: start end range\nExample: 1 5 range => [1 2 3 4 5]"),
   ("interval_range", .generator boundedRange,
      "Count from start to end by step.\nUsage: start end step interval_range\nExample: 1 10 3 interval_range => [1 4 7 10]"),
   ("sized_range", .generator (countedRange Counted.bySum),
      "A fixed number of values, each step apart.\nUsage: start step count sized_range\nExample: 2 3 4 sized_range => [2 5 8 11]"),
   ("geometric_range", .generator (countedRange Counted.byProduct),
      "A fixed number of values, each ratio times the last.\nUsage: start ratio count geometric_range\nExample: 1 2 5 geometric_range => [1 2 4 8 16]"),
   ("exponential_range", .generator (countedRange Counted.byPower),
      "A fixed number of values, each the last raised to a power.\nUsage: start exponent count exponential_range\nExample: 2 2 4 exponential_range => [2 4 16 256]"),
   ("permute_digits", .oneArg (fun n => .ofDraft (permuteDigits n)) defaultLimit,
      "Every rearrangement of an integer's digits.\nUsage: n permute_digits\nExample: 123 permute_digits => [123 132 213 231 312 321]")]

end LazyCalc.Operator

namespace LazyCalc.Table

def builtin (limit : Nat) : Table :=
  Operator.builtins.foldl
    (fun table (name, operator, doc) => table.register name operator (some doc)) (empty limit)

end LazyCalc.Table
