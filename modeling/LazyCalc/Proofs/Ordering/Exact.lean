import LazyCalc.Proofs.Aggregates.Exact
import LazyCalc.Scalar.Order
import Mathlib.Algebra.Order.Ring.Rat
import Mathlib.Data.Rat.Cast.Order
import Mathlib.Data.Rat.Floor
/-!
The order, the signs and the ceilings of exact numbers are those of the rational numbers.
-/

namespace LazyCalc.Scalar

variable {a b : Scalar} {p q : ℚ}

theorem compareRationals_eq (p q : ℚ) : compareRationals p q = compare p q := rfl

theorem compare_intCast (i j : Int) : compare i j = compare (i : ℚ) (j : ℚ) := by
  rw [← compareRationals_eq]
  simp only [compareRationals, Int.cast_lt, Int.cast_inj]
  rfl

theorem isZero_exact (ha : a.Exact p) : a.isZero = decide (p = 0) := by
  cases a <;> cases ha
  · exact decide_eq_decide.mpr Int.cast_eq_zero.symm
  · rfl

theorem isNegative_exact (ha : a.Exact p) : a.isNegative = .ok (decide (p < 0)) := by
  cases a <;> cases ha
  · exact congrArg Except.ok (decide_eq_decide.mpr Int.cast_lt_zero.symm)
  · rfl

theorem exists_negate (ha : a.Exact p) : ∃ b, a.negate = .ok b ∧ b.Exact (-p) := by
  cases a <;> cases ha
  · exact ⟨_, rfl, congrArg some (Int.cast_neg _)⟩
  · exact ⟨_, rfl, rfl⟩

theorem exists_magnitude (ha : a.Exact p) : ∃ b, a.magnitude = .ok b ∧ b.Exact |p| := by
  cases a <;> cases ha
  · next i =>
    refine ⟨_, rfl, congrArg some ?_⟩
    rw [Int.natCast_natAbs, Int.cast_abs]
  · refine ⟨_, rfl, congrArg some ?_⟩
    split
    · next h => rw [abs_of_neg h]
    · next h => rw [abs_of_nonneg (not_lt.mp h)]

theorem whole?_exact (ha : a.Exact p) : a.whole? = some ⌈p⌉ := by
  cases a <;> cases ha
  · rw [Int.ceil_intCast]
    rfl
  · exact congrArg some (eq_of_forall_ge_iff fun z => Rat.ceil_le_iff.trans Int.ceil_le.symm)

theorem ceiling?_exact (ha : a.Exact p) (hp : 0 ≤ p) :
    a.ceiling? = if ⌈p⌉₊ < wordLimit then some ⌈p⌉₊ else none := by
  have hceil : (⌈p⌉₊ : Int) = ⌈p⌉ := Int.natCast_ceil_eq_ceil hp
  rw [ceiling?, whole?_exact ha, ← hceil]
  simp only [Int.natCast_nonneg, true_and, Int.ofNat_lt, Int.toNat_natCast]

theorem order_exact (ha : a.Exact p) (hb : b.Exact q) : a.order b = .ok (compare p q) := by
  have horder : a.order b = compareNumbers a b := by
    cases a <;> cases ha <;> cases b <;> cases hb <;> rfl
  rw [horder, compareNumbers]
  obtain ⟨i, j, hpair, rfl, rfl⟩ | hpair := promotePair_exact ha hb
  · rw [hpair]
    exact congrArg Except.ok (compare_intCast i j)
  · rw [hpair]
    exact congrArg Except.ok (compareRationals_eq p q)

end LazyCalc.Scalar
