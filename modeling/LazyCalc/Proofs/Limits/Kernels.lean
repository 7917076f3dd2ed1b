import LazyCalc.Operator.Builtin
import LazyCalc.Proofs.Limits.Depth
/-!
No kernel of the builtin operators fails for depth: what is refused for its depth is refused by a
recursion into nested values, and by nothing else.
-/

namespace LazyCalc

namespace Unlimited

variable {α : Type}

@[simp]
theorem type (text : String) : Unlimited (.error (.type text) : Except Failure α) := by
  rintro l ⟨⟩

@[simp]
theorem domain (text : String) : Unlimited (.error (.domain text) : Except Failure α) := by
  rintro l ⟨⟩

@[simp]
theorem divisionByZero : Unlimited (.error .divisionByZero : Except Failure α) := by
  rintro l ⟨⟩

@[simp]
theorem indexOutOfRange (index available : Nat) :
    Unlimited (.error (.indexOutOfRange index available) : Except Failure α) := by
  rintro l ⟨⟩

attribute [simp] ok

end Unlimited

namespace Scalar

variable (a b : Scalar)

@[simp]
theorem unlimited_mismatch {α : Type} (verb : String) :
    Unlimited (.error (mismatch verb a b) : Except Failure α) := .type _

theorem unlimited_shiftDate (d : Date) (days : Int) : Unlimited (shiftDate d days) := by
  unfold shiftDate
  split <;> simp

theorem unlimited_addNumbers : Unlimited (addNumbers a b) := by
  unfold addNumbers
  split <;> simp

theorem unlimited_add : Unlimited (a.add b) := by
  unfold add
  split
  · exact .ok _
  · exact .ok _
  · exact unlimited_shiftDate _ _
  · exact unlimited_shiftDate _ _
  · exact unlimited_addNumbers _ _

theorem unlimited_subtractNumbers : Unlimited (subtractNumbers a b) := by
  unfold subtractNumbers
  split <;> simp

theorem unlimited_subtract : Unlimited (a.subtract b) := by
  unfold subtract
  split
  · exact .ok _
  · exact unlimited_shiftDate _ _
  · exact unlimited_subtractNumbers _ _

theorem unlimited_multiply : Unlimited (a.multiply b) := by
  unfold multiply
  split <;> simp

theorem unlimited_divide : Unlimited (a.divide b) := by
  unfold divide
  split
  · simp
  · split <;> simp

theorem unlimited_exactPower (base : Rat) (exponent : Int) : Unlimited (exactPower base exponent) := by
  unfold exactPower
  split
  · simp
  · dsimp only
    split
    · split <;> simp
    · simp

theorem unlimited_power : Unlimited (a.power b) := by
  unfold power
  split
  · exact unlimited_exactPower _ _
  · exact unlimited_exactPower _ _
  · split
    · exact .ok _
    · split <;> simp

theorem unlimited_negate : Unlimited a.negate := by
  unfold negate
  split <;> simp

theorem unlimited_isNegative : Unlimited a.isNegative := by
  unfold isNegative
  split <;> simp

theorem unlimited_order : Unlimited (a.order b) := by
  unfold order
  split
  · exact .ok _
  · exact .ok _
  · exact .ok _
  · unfold compareNumbers
    split
    · exact .ok _
    · exact .ok _
    · split <;> simp
    · simp

theorem unlimited_position (what : String) : Unlimited (a.position what) := by
  unfold position
  split
  · split
    · simp
    · split <;> simp
  · simp

end Scalar

theorem Bounded.unlimited_of (start stop step : Scalar) : Unlimited (Bounded.of start stop step) := by
  have htowards : Unlimited (Bounded.towards start stop step) := by
    refine (start.unlimited_order stop).bind fun o => ?_
    split
    · refine step.unlimited_isNegative.bind fun b => ?_
      split
      · exact .ok _
      · exact step.unlimited_negate
    · exact .ok _
  unfold Bounded.of
  split
  · exact .domain _
  · exact htowards.bind fun s => s.unlimited_isNegative.bind fun _ => .ok _

namespace Operator

variable (a b c : Scalar)

theorem unlimited_checkedPower : Unlimited (checkedPower a b) := by
  refine (a.unlimited_power b).bind fun p => ?_
  split
  · split
    · exact .domain _
    · split
      · exact .domain _
      · exact .ok _
  · exact .ok _

theorem unlimited_boundedRange : Unlimited (boundedRange a b c).result := by
  have hdraft : Unlimited (Draft.bounded a b c) := (Bounded.unlimited_of a b c).bind fun _ => .ok _
  exact hdraft.map Tree.sequence

theorem unlimited_permuteDigits : Unlimited (Outcome.ofDraft (permuteDigits a)).result := by
  refine Unlimited.map ?_ Tree.sequence
  unfold permuteDigits
  split
  · split
    · exact .domain _
    · exact .ok _
  · exact .domain _

theorem unlimited_nthPlan (extent : Extent) : Unlimited (nthPlan a extent) := by
  unfold nthPlan
  split
  · refine Unlimited.bind ?_ fun _ => .ok _
    unfold listPosition
    split
    · split
      · split <;> simp
      · exact Scalar.unlimited_position _ _
    · exact Scalar.unlimited_position _ _
  · exact (Scalar.unlimited_position _ _).bind fun _ => .ok _

theorem unlimited_sublistPlan (extent : Extent) : Unlimited (sublistPlan a b extent) :=
  (a.unlimited_position _).bind fun _ => (b.unlimited_position _).bind fun _ => .ok _

end Operator

end LazyCalc
