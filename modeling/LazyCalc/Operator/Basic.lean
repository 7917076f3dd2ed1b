import LazyCalc.Generator
import LazyCalc.Operator.Reading
/-!
Operators: a kernel for scalars or for a collection, with the strategy by which it is carried over
to lists and sequences. A kernel makes trees of scalars and of sequences not yet started.
-/

namespace LazyCalc

def defaultLimit : Nat := 128

abbrev Template := Tree Draft

structure Outcome where
  notes : List String := []
  result : Except Failure Template

namespace Outcome

def ofScalar (result : Except Failure Scalar) : Outcome :=
  { result := result.map .scalar }

def ofDraft (result : Except Failure Draft) : Outcome :=
  { result := result.map .sequence }

end Outcome

inductive Operator where
  | oneArg (kernel : Scalar → Outcome) (limit : Nat)
  | twoArg (kernel : Scalar → Scalar → Outcome) (limit : Nat)
  | listArg (kernel : Extent → Except Failure Plan)
  | listAndOneArg (kernel : Scalar → Extent → Except Failure Plan) (limit : Nat)
  | listAndTwoArgs (kernel : Scalar → Scalar → Extent → Except Failure Plan) (limit : Nat)
  | generator (kernel : Scalar → Scalar → Scalar → Outcome)

namespace Operator

def arity : Operator → Nat
  | .oneArg .. | .listArg .. => 1
  | .twoArg .. | .listAndOneArg .. => 2
  | .listAndTwoArgs .. | .generator .. => 3

def withLimit (limit : Nat) : Operator → Operator
  | .oneArg kernel _ => .oneArg kernel limit
  | .twoArg kernel _ => .twoArg kernel limit
  | .listAndOneArg kernel _ => .listAndOneArg kernel limit
  | .listAndTwoArgs kernel _ => .listAndTwoArgs kernel limit
  | .listArg kernel => .listArg kernel
  | .generator kernel => .generator kernel

end Operator

end LazyCalc
