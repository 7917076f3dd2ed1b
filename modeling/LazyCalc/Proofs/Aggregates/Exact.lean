import LazyCalc.Scalar.Arithmetic
import Mathlib.Data.Rat.Defs
namespace LazyCalc.Scalar

def rat? : Scalar → Option Rat
  | .integer i => some i
  | .rational r => some r
  | .number _ | .complex _ | .date _ | .string _ | .boolean _ => none

/-- An exact scalar, in simplest form or not. -/
def Exact (a : Scalar) (q : Rat) : Prop := a.rat? = some q

theorem exact_ofRat (q : Rat) : (ofRat q).Exact q := by
  change Exact (if q.den = 1 then .integer q.num else .rational q) q
  split
  · next h => exact congrArg some (Rat.coe_int_num_of_den_eq_one h)
  · rfl

theorem ofRat_intCast (i : Int) : ofRat i = .integer i := rfl

theorem promotePair_exact {a b : Scalar} {p q : Rat} (ha : a.Exact p) (hb : b.Exact q) :
    (∃ i j : Int, promotePair a b = (.integer i, .integer j) ∧ p = i ∧ q = j) ∨
      promotePair a b = (.rational p, .rational q) := by
  cases a <;> cases ha <;> cases b <;> cases hb
  · exact .inl ⟨_, _, rfl, rfl, rfl⟩
  · exact .inr rfl
  · exact .inr rfl
  · exact .inr rfl

variable {a b : Scalar} {p q : Rat} (ha : a.Exact p) (hb : b.Exact q)

include ha hb

theorem add_exact : a.add b = .ok (ofRat (p + q)) := by
  have hadd : a.add b = addNumbers a b := by
    cases a <;> cases ha <;> cases b <;> cases hb <;> rfl
  rw [hadd, addNumbers]
  obtain ⟨i, j, hpair, rfl, rfl⟩ | hpair := promotePair_exact ha hb
  · rw [hpair, ← Rat.intCast_add, ofRat_intCast]
  · rw [hpair]

theorem exists_add : ∃ c, a.add b = .ok c ∧ c.Exact (p + q) :=
  ⟨_, add_exact ha hb, exact_ofRat _⟩

theorem subtract_exact : a.subtract b = .ok (ofRat (p - q)) := by
  have hsubtract : a.subtract b = subtractNumbers a b := by
    cases a <;> cases ha <;> cases b <;> cases hb <;> rfl
  rw [hsubtract, subtractNumbers]
  obtain ⟨i, j, hpair, rfl, rfl⟩ | hpair := promotePair_exact ha hb
  · rw [hpair, ← Rat.intCast_sub, ofRat_intCast]
  · rw [hpair]

theorem multiply_exact : a.multiply b = .ok (ofRat (p * q)) := by
  rw [multiply]
  obtain ⟨i, j, hpair, rfl, rfl⟩ | hpair := promotePair_exact ha hb
  · rw [hpair, ← Rat.intCast_mul, ofRat_intCast]
  · rw [hpair]

theorem divide_exact (hq : q ≠ 0) : a.divide b = .ok (ofRat (p / q)) := by
  have hzero : b.isZero = false := by
    cases b <;> cases hb
    · exact beq_false_of_ne fun h => hq (by rw [h]; rfl)
    · exact beq_false_of_ne hq
  rw [divide, hzero]
  obtain ⟨i, j, hpair, rfl, rfl⟩ | hpair := promotePair_exact ha hb
  · rw [hpair]
    rfl
  · rw [hpair]
    rfl

theorem exists_subtract : ∃ c, a.subtract b = .ok c ∧ c.Exact (p - q) :=
  ⟨_, subtract_exact ha hb, exact_ofRat _⟩

theorem exists_multiply : ∃ c, a.multiply b = .ok c ∧ c.Exact (p * q) :=
  ⟨_, multiply_exact ha hb, exact_ofRat _⟩

theorem exists_divide (hq : q ≠ 0) : ∃ c, a.divide b = .ok c ∧ c.Exact (p / q) :=
  ⟨_, divide_exact ha hb hq, exact_ofRat _⟩

end LazyCalc.Scalar
