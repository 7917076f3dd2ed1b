namespace LazyCalc

inductive Failure where
  | type (text : String)
  | domain (text : String)
  | divisionByZero
  | indexOutOfRange (index available : Nat)
  | nestingTooDeep (limit : Nat)
  | argumentCount (operator : String) (expected found : Nat)
  | undefinedOperator (name : String)
  deriving DecidableEq, Repr

namespace Failure

def message : Failure → String
  | .type text => "Type error: " ++ text
  | .domain text => "Domain error: " ++ text
  | .divisionByZero => "Division by zero"
  | .indexOutOfRange index available =>
    s!"Index {index} out of range: sequence ended after {available} elements"
  | .nestingTooDeep limit => s!"Value nesting exceeds the limit of {limit} levels"
  | .argumentCount operator expected found =>
    s!"'{operator}' requires {expected} arguments, {found} given"
  | .undefinedOperator name => "Undefined operator: " ++ name

end Failure

end LazyCalc
