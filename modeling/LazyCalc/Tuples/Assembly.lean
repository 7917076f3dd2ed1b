import LazyCalc.Failure
import LazyCalc.Tree
/-!
What a tuple of scalars is made into: the list of them, or the integer that their digits spell.
-/

namespace LazyCalc

abbrev Assembly := List Scalar → Except Failure Plain

namespace Assembly

def digitValue? (c : Char) : Option Nat :=
  if '0' ≤ c ∧ c ≤ '9' then some (c.toNat - '0'.toNat) else none

/-- Decimal digits, with underscores between and after them. -/
def readDigits? : (value : Nat) → List Char → Option Nat
  | value, [] => some value
  | value, '_' :: cs => readDigits? value cs
  | value, c :: cs =>
    match digitValue? c with
    | some d => readDigits? (value * 10 + d) cs
    | none => none

/-- Digits after at most one plus sign; the first of them is no underscore. -/
def readNatural? (cs : List Char) : Option Nat :=
  let cs := match cs with
    | '+' :: '+' :: _ => cs
    | '+' :: rest => rest
    | _ => cs
  match cs with
  | [] => none
  | '_' :: _ => none
  | _ => readDigits? 0 cs

def readInteger? : List Char → Option Int
  | '-' :: '+' :: _ => none
  | '-' :: cs => (readNatural? cs).map fun n => -(n : Int)
  | cs => (readNatural? cs).map fun n => (n : Int)

def digits : Assembly := fun parts =>
  let text := String.join (parts.map Scalar.bareText)
  match readInteger? text.toList with
  | some i => .ok (.scalar (.integer i))
  | none => .error (.domain s!"'{text}' is not an integer")

def list : Assembly := fun parts => .ok (.list (parts.map .scalar))

end Assembly

end LazyCalc
