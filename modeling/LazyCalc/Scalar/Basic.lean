import LazyCalc.Calendar
import LazyCalc.Complex
namespace LazyCalc

inductive Scalar where
  | integer (value : Int)
  | rational (value : Rat)
  | number (value : Float)
  | complex (value : Complex)
  | date (value : Date)
  | string (value : String)
  | boolean (value : Bool)

namespace Scalar

def typeName : Scalar → String
  | .integer _ => "integer"
  | .rational _ => "rational"
  | .number _ => "number"
  | .complex _ => "complex"
  | .date _ => "date"
  | .string _ => "string"
  | .boolean _ => "boolean"

def demote : Scalar → Scalar
  | .rational r => if r.den = 1 then .integer r.num else .rational r
  | s => s

def ofRat (r : Rat) : Scalar := demote (.rational r)

def isNumeric : Scalar → Bool
  | .integer _ | .rational _ | .number _ | .complex _ => true
  | .date _ | .string _ | .boolean _ => false

def toFloat? : Scalar → Option Float
  | .integer i => some (Binary64.nearest i)
  | .rational r => some (Binary64.nearest r)
  | .number x => some x
  | .complex _ | .date _ | .string _ | .boolean _ => none

/-- Equality of representation: the integer 2 is not the rational 2, and a NaN equals nothing. -/
def same : Scalar → Scalar → Bool
  | .integer i, .integer j => i == j
  | .rational r, .rational q => r == q
  | .number x, .number y => x == y
  | .complex z, .complex w => z.same w
  | .date d, .date e => d == e
  | .string s, .string t => s == t
  | .boolean b, .boolean c => b == c
  | _, _ => false

def rationalText (r : Rat) : String :=
  if r.den = 1 then toString r.num else toString r.num ++ "/" ++ toString r.den

def text : Scalar → String
  | .integer i => toString i
  | .rational r => rationalText r
  | .number x => Binary64.text x
  | .complex z => z.text
  | .date d => d.text
  | .string s => "\"" ++ s ++ "\""
  | .boolean b => if b then "true" else "false"

def bareText : Scalar → String
  | .string s => s
  | s => s.text

end Scalar

end LazyCalc
