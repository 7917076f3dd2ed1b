namespace LazyCalc

inductive Hint where
  | exact (count : Nat)
  | estimated (count : Nat)
  | unknown
  deriving DecidableEq, Repr

namespace Hint

def value? : Hint → Option Nat
  | .exact n | .estimated n => some n
  | .unknown => none

def isExact : Hint → Bool
  | .exact _ => true
  | .estimated _ | .unknown => false

/-- The count of a truncating zip. A side with a known count still bounds one without. -/
def min : Hint → Hint → Hint
  | .exact m, .exact n => .exact (Nat.min m n)
  | h, k =>
    match h.value?, k.value? with
    | some m, some n => .estimated (Nat.min m n)
    | some m, none => .estimated m
    | none, some n => .estimated n
    | none, none => .unknown

def skip (n : Nat) : Hint → Hint
  | .exact m => .exact (m - n)
  | .estimated m => .estimated (m - n)
  | .unknown => .unknown

def text : Hint → String
  | .exact n => "exact " ++ toString n
  | .estimated n => "estimated " ++ toString n
  | .unknown => "unknown"

def debugText : Hint → String
  | .exact n => "Exact(" ++ toString n ++ ")"
  | .estimated n => "Estimated(" ++ toString n ++ ")"
  | .unknown => "Unknown"

end Hint

end LazyCalc
