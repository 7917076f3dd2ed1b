import LazyCalc.Scalar.Arithmetic
namespace LazyCalc.Scalar

def wordLimit : Nat := UInt64.size

def isNegative : Scalar → Except Failure Bool
  | .integer i => .ok (i < 0)
  | .rational r => .ok (r < 0)
  | .number x => .ok (x < 0)
  | s => .error (.type (s.typeName ++ " has no sign"))

def compareRationals (r q : Rat) : Ordering :=
  if r < q then .lt else if r = q then .eq else .gt

/-- None when one of the two is a NaN. -/
def compareFloats? (x y : Float) : Option Ordering :=
  if x < y then some .lt
  else if x == y then some .eq
  else if y < x then some .gt
  else none

def compareNumbers (a b : Scalar) : Except Failure Ordering :=
  match promotePair a b with
  | (.integer i, .integer j) => .ok (compare i j)
  | (.rational r, .rational q) => .ok (compareRationals r q)
  | (.number x, .number y) =>
    match compareFloats? x y with
    | some o => .ok o
    | none => .error (.domain ("Cannot order " ++ Binary64.text x ++ " and " ++ Binary64.text y))
  | _ => .error (mismatch "compare" a b)

/-- Real numbers, dates, strings and booleans are ordered among their own kind. -/
def order (a b : Scalar) : Except Failure Ordering :=
  match a, b with
  | .date d, .date e => .ok (d.order e)
  | .string s, .string t => .ok (compareOfLessAndEq s t)
  | .boolean b, .boolean c => .ok (compare b.toNat c.toNat)
  | a, b => compareNumbers a b

def whole? : Scalar → Option Int
  | .integer i => some i
  | .rational r => some r.ceil
  | .number x => Binary64.ceiling? x
  | _ => none

def ceiling? (a : Scalar) : Option Nat :=
  match a.whole? with
  | some i => if 0 ≤ i ∧ i < wordLimit then some i.toNat else none
  | none => none

/-- An integer that stands for a position or a count; `what` names it in a failure. -/
def position (what : String) : Scalar → Except Failure Nat
  | .integer i =>
    if i < 0 then .error (.domain s!"{what} must not be negative, got {i}")
    else if i < wordLimit then .ok i.toNat
    else .error (.domain s!"{what} {i} is too large")
  | s => .error (.type s!"{what} must be an integer, got {s.typeName}")

end LazyCalc.Scalar
