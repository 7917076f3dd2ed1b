import LazyCalc.Failure
import LazyCalc.Scalar.Basic
/-!
Arithmetic on scalars. Two numbers of different kinds are first raised to the later of their kinds
in the tower integer, rational, number, complex; exact results come back in simplest form.
-/

namespace LazyCalc.Scalar

inductive Tower where
  | integer
  | rational
  | number
  | complex
  deriving DecidableEq, Repr

def Tower.rank : Tower → Nat
  | .integer => 0
  | .rational => 1
  | .number => 2
  | .complex => 3

def Tower.max (s t : Tower) : Tower := if s.rank ≤ t.rank then t else s

def tower? : Scalar → Option Tower
  | .integer _ => some .integer
  | .rational _ => some .rational
  | .number _ => some .number
  | .complex _ => some .complex
  | .date _ | .string _ | .boolean _ => none

def promote : Scalar → Tower → Scalar
  | .integer i, .rational => .rational i
  | .integer i, .number => .number (Binary64.nearest i)
  | .rational r, .number => .number (Binary64.nearest r)
  | .complex z, .complex => .complex z
  | s, .complex => .complex (.ofReal (s.toFloat?.getD Binary64.nan))
  | s, _ => s

/-- Both operands on the same level of the tower; any other pair is left as it is. -/
def promotePair (a b : Scalar) : Scalar × Scalar :=
  match a.tower?, b.tower? with
  | some s, some t => (a.promote (s.max t), b.promote (s.max t))
  | _, _ => (a, b)

def mismatch (verb : String) (a b : Scalar) : Failure :=
  .type s!"Cannot {verb} {a.typeName} and {b.typeName}"

def shiftDate (d : Date) (days : Int) : Except Failure Scalar :=
  match d.shiftByWords? days with
  | some e => .ok (.date e)
  | none => .error (.domain s!"date {d.text} + {days} days is out of range")

def addNumbers (a b : Scalar) : Except Failure Scalar :=
  match promotePair a b with
  | (.integer i, .integer j) => .ok (.integer (i + j))
  | (.rational r, .rational q) => .ok (ofRat (r + q))
  | (.number x, .number y) => .ok (.number (x + y))
  | (.complex z, .complex w) => .ok (.complex (z.add w))
  | _ => .error (mismatch "add" a b)

/-- A string on either side makes a string, a date and an integer make a date. -/
def add (a b : Scalar) : Except Failure Scalar :=
  match a, b with
  | .string s, b => .ok (.string (s ++ b.bareText))
  | a, .string t => .ok (.string (a.bareText ++ t))
  | .date d, .integer n => shiftDate d n
  | .integer n, .date d => shiftDate d n
  | a, b => addNumbers a b

def subtractNumbers (a b : Scalar) : Except Failure Scalar :=
  match promotePair a b with
  | (.integer i, .integer j) => .ok (.integer (i - j))
  | (.rational r, .rational q) => .ok (ofRat (r - q))
  | (.number x, .number y) => .ok (.number (x - y))
  | (.complex z, .complex w) => .ok (.complex (z.sub w))
  | _ => .error (mismatch "subtract" a b)

def subtract (a b : Scalar) : Except Failure Scalar :=
  match a, b with
  | .date d, .date e => .ok (.integer (d.daysSince e))
  | .date d, .integer n => shiftDate d (-n)
  | a, b => subtractNumbers a b

def multiply (a b : Scalar) : Except Failure Scalar :=
  match promotePair a b with
  | (.integer i, .integer j) => .ok (.integer (i * j))
  | (.rational r, .rational q) => .ok (ofRat (r * q))
  | (.number x, .number y) => .ok (.number (x * y))
  | (.complex z, .complex w) => .ok (.complex (z.mul w))
  | _ => .error (mismatch "multiply" a b)

def isZero : Scalar → Bool
  | .integer i => i == 0
  | .rational r => r == 0
  | .number x => x == 0
  | .complex z => z.isZero
  | .date _ | .string _ | .boolean _ => false

/-- Integers divide exactly. A zero divisor is refused before the kinds are compared. -/
def divide (a b : Scalar) : Except Failure Scalar :=
  if b.isZero then .error .divisionByZero
  else
    match promotePair a b with
    | (.integer i, .integer j) => .ok (ofRat ((i : Rat) / j))
    | (.rational r, .rational q) => .ok (ofRat (r / q))
    | (.number x, .number y) => .ok (.number (x / y))
    | (.complex z, .complex w) => .ok (.complex (z.div w))
    | _ => .error (mismatch "divide" a b)

def intPower (base : Int) (exponent : Nat) : Int :=
  if exponent = 0 then 1
  else if base.natAbs ≤ 1 then
    if exponent % 2 = 0 then base * base else base
  else base.pow exponent

/-- An exact base to an integer exponent, which must fit 32 bits. -/
def exactPower (base : Rat) (exponent : Int) : Except Failure Scalar :=
  if UInt32.size ≤ exponent.natAbs then .error (.domain s!"exponent {exponent} is too large")
  else
    let num := intPower base.num exponent.natAbs
    let den := intPower base.den exponent.natAbs
    if exponent < 0 then
      if num = 0 then .error .divisionByZero
      else .ok (ofRat ((den : Rat) / num))
    else .ok (ofRat ((num : Rat) / den))

def power (a b : Scalar) : Except Failure Scalar :=
  match a, b with
  | .integer i, .integer e => exactPower i e
  | .rational r, .integer e => exactPower r e
  | a, b =>
    match promotePair a b with
    | (.complex z, .complex w) => .ok (.complex (z.pow w))
    | _ =>
      match a.toFloat?, b.toFloat? with
      | some x, some y => .ok (.number (x ^ y))
      | _, _ => .error (mismatch "exponentiate" a b)

def negate : Scalar → Except Failure Scalar
  | .integer i => .ok (.integer (-i))
  | .rational r => .ok (.rational (-r))
  | .number x => .ok (.number (-x))
  | .complex z => .ok (.complex z.neg)
  | s => .error (.type ("Cannot negate " ++ s.typeName))

def magnitude : Scalar → Except Failure Scalar
  | .integer i => .ok (.integer i.natAbs)
  | .rational r => .ok (.rational (if r < 0 then -r else r))
  | .number x => .ok (.number x.abs)
  | .complex z => .ok (.number z.norm)
  | s => .error (.type ("Cannot take the absolute value of " ++ s.typeName))

end LazyCalc.Scalar
