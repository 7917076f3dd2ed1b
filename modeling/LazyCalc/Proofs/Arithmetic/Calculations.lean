import LazyCalc.Proofs.Ordering.Exact
import Mathlib.Algebra.Field.Rat
import Mathlib.Algebra.Order.Field.Power
/-!
Calculations with exact numbers are those with rational numbers: each operation gives its result in
the one simplest form that this has, so that all calculations of a number come to the same scalar.
-/

namespace LazyCalc

namespace Scalar

/-- A scalar that is a number in its simplest form, as an integer or as a fraction of a denominator
above one. -/
inductive Simplest : Scalar → ℚ → Prop
  | whole (i : Int) : Simplest (.integer i) i
  | fraction {q : ℚ} (h : 1 < q.den) : Simplest (.rational q) q

theorem simplest_ofRat (q : ℚ) : (ofRat q).Simplest q := by
  change Simplest (if q.den = 1 then .integer q.num else .rational q) q
  split
  · next h =>
    have hwhole := Simplest.whole q.num
    rwa [Rat.coe_int_num_of_den_eq_one h] at hwhole
  · next h => exact .fraction (Nat.lt_of_le_of_ne q.den_pos (Ne.symm h))

theorem Exact.same_self {a : Scalar} {q : ℚ} (h : a.Exact q) : a.same a = true := by
  cases a <;> cases h <;> exact beq_self_eq_true _

theorem intPower_eq (base : Int) (exponent : Nat) : intPower base exponent = base ^ exponent := by
  unfold intPower
  split
  · next h => rw [h, pow_zero]
  · split
    · next h0 hbase =>
      have hcases : base = 0 ∨ base = 1 ∨ base = -1 := by omega
      rcases hcases with rfl | rfl | rfl
      · rw [zero_pow h0]
        simp
      · simp
      · split
        · next heven => rw [Even.neg_one_pow (Nat.even_iff.mpr heven)]; rfl
        · next hodd => rw [Odd.neg_one_pow (Nat.not_even_iff_odd.mp (mt Nat.even_iff.mp hodd))]
    · rfl

theorem cast_intPower_div (n d : Int) (exponent : Nat) :
    (intPower n exponent : ℚ) / intPower d exponent = ((n : ℚ) / d) ^ exponent := by
  rw [intPower_eq, intPower_eq, Int.cast_pow, Int.cast_pow, div_pow]

theorem cast_intPower_parts (p : ℚ) (exponent : Nat) :
    (intPower p.num exponent : ℚ) / intPower p.den exponent = p ^ exponent := by
  rw [cast_intPower_div, Int.cast_natCast, Rat.num_div_den]

variable {a b : Scalar} {p q : ℚ} {e : Int}

theorem divide_zero (hb : b.Exact 0) : a.divide b = .error .divisionByZero := by
  rw [divide, isZero_exact hb]
  rfl

theorem power_eq_exactPower (ha : a.Exact p) : a.power (.integer e) = exactPower p e := by
  cases a <;> cases ha <;> rfl

theorem power_large (ha : a.Exact p) (he : UInt32.size ≤ e.natAbs) :
    a.power (.integer e) = .error (.domain s!"exponent {e} is too large") := by
  rw [power_eq_exactPower ha, exactPower, if_pos he]

theorem power_zero (ha : a.Exact 0) (hsize : e.natAbs < UInt32.size) (he : e < 0) :
    a.power (.integer e) = .error .divisionByZero := by
  have hnum : intPower (Rat.num 0) e.natAbs = 0 := by
    rw [intPower_eq, Rat.num_zero, zero_pow (Int.natAbs_ne_zero.mpr he.ne)]
  rw [power_eq_exactPower ha, exactPower, if_neg (Nat.not_le.mpr hsize), if_pos he, if_pos hnum]

theorem power_exact (ha : a.Exact p) (hsize : e.natAbs < UInt32.size) (h : p ≠ 0 ∨ 0 ≤ e) :
    a.power (.integer e) = .ok (ofRat (p ^ e)) := by
  rw [power_eq_exactPower ha, exactPower, if_neg (Nat.not_le.mpr hsize)]
  dsimp only
  rcases lt_or_ge e 0 with hneg | hpos
  · have hp : p ≠ 0 := h.resolve_right (not_le.mpr hneg)
    have hnum : intPower p.num e.natAbs ≠ 0 := by
      rw [intPower_eq]
      exact pow_ne_zero _ (Rat.num_ne_zero.mpr hp)
    have hvalue : (intPower p.den e.natAbs : ℚ) / intPower p.num e.natAbs = p ^ e := by
      rw [← inv_div, cast_intPower_parts, ← zpow_natCast, ← zpow_neg,
        Int.ofNat_natAbs_of_nonpos hneg.le, neg_neg]
    rw [if_pos hneg, if_neg hnum, hvalue]
  · have hvalue : (intPower p.num e.natAbs : ℚ) / intPower p.den e.natAbs = p ^ e := by
      rw [cast_intPower_parts, ← zpow_natCast, Int.natAbs_of_nonneg hpos]
    rw [if_neg (not_lt.mpr hpos), hvalue]

end Scalar

inductive Operation where
  | add
  | subtract
  | multiply
  | divide
  | power
  deriving DecidableEq, Repr

def Operation.apply : Operation → Scalar → Scalar → Except Failure Scalar
  | .add => Scalar.add
  | .subtract => Scalar.subtract
  | .multiply => Scalar.multiply
  | .divide => Scalar.divide
  | .power => Scalar.power

inductive Formula where
  | given (a : Scalar)
  | combined (op : Operation) (s t : Formula)

namespace Formula

def run : Formula → Except Failure Scalar
  | .given a => .ok a
  | .combined op s t => do op.apply (← s.run) (← t.run)

/-- The number that a formula of exact scalars is of, where it has one. An exponent is an
integer that the operation takes. -/
inductive Calculates : Formula → ℚ → Prop
  | given {a : Scalar} {p : ℚ} (h : a.Exact p) : Calculates (.given a) p
  | sum {s t : Formula} {p q : ℚ} (hs : Calculates s p) (ht : Calculates t q) :
    Calculates (.combined .add s t) (p + q)
  | difference {s t : Formula} {p q : ℚ} (hs : Calculates s p) (ht : Calculates t q) :
    Calculates (.combined .subtract s t) (p - q)
  | product {s t : Formula} {p q : ℚ} (hs : Calculates s p) (ht : Calculates t q) :
    Calculates (.combined .multiply s t) (p * q)
  | quotient {s t : Formula} {p q : ℚ} (hs : Calculates s p) (ht : Calculates t q)
    (hq : q ≠ 0) : Calculates (.combined .divide s t) (p / q)
  | power {s t : Formula} {p : ℚ} {e : Int} (hs : Calculates s p) (ht : t.run = .ok (.integer e))
    (hsize : e.natAbs < UInt32.size) (h : p ≠ 0 ∨ 0 ≤ e) :
    Calculates (.combined .power s t) (p ^ e)

/-- The scalar that a formula of a number comes to. What comes of an operation is in simplest
form, even where what it is done to is not. -/
def outcome : Formula → ℚ → Scalar
  | .given a, _ => a
  | .combined .., q => .ofRat q

variable {s t : Formula} {op : Operation} {a b : Scalar} {p : ℚ}

theorem run_combined (hs : s.run = .ok a) (ht : t.run = .ok b) :
    (combined op s t).run = op.apply a b := by
  rw [run, hs, ht]
  rfl

theorem Calculates.exact_outcome (h : s.Calculates p) : (s.outcome p).Exact p := by
  cases h with
  | given h => exact h
  | _ => exact Scalar.exact_ofRat _

theorem Calculates.run_eq (h : s.Calculates p) : s.run = .ok (s.outcome p) := by
  induction h with
  | given h => rfl
  | sum hs ht ihs iht =>
    exact (run_combined ihs iht).trans (Scalar.add_exact hs.exact_outcome ht.exact_outcome)
  | difference hs ht ihs iht =>
    exact (run_combined ihs iht).trans (Scalar.subtract_exact hs.exact_outcome ht.exact_outcome)
  | product hs ht ihs iht =>
    exact (run_combined ihs iht).trans (Scalar.multiply_exact hs.exact_outcome ht.exact_outcome)
  | quotient hs ht hq ihs iht =>
    exact (run_combined ihs iht).trans (Scalar.divide_exact hs.exact_outcome ht.exact_outcome hq)
  | power hs ht hsize h ihs =>
    exact (run_combined ihs ht).trans (Scalar.power_exact hs.exact_outcome hsize h)

end Formula

/-- On exact numbers, in simplest form or not, the operations are those of the rational numbers and
give their results in simplest form; only a division by zero and a power that is one are refused,
and exponents that are too large. All formulas of a number come to one scalar. -/
theorem Scalar.calculations_exact {a b : Scalar} {p q : ℚ} (ha : a.Exact p) (hb : b.Exact q) :
    (∃ c, a.add b = .ok c ∧ c.Simplest (p + q)) ∧
      (∃ c, a.subtract b = .ok c ∧ c.Simplest (p - q)) ∧
      (∃ c, a.multiply b = .ok c ∧ c.Simplest (p * q)) ∧
      (q = 0 → a.divide b = .error .divisionByZero) ∧
      (q ≠ 0 → ∃ c, a.divide b = .ok c ∧ c.Simplest (p / q)) ∧
      (∀ e : Int,
        (e.natAbs < UInt32.size →
          (a.power (.integer e) = .error .divisionByZero ↔ p = 0 ∧ e < 0) ∧
          (¬(p = 0 ∧ e < 0) → ∃ c, a.power (.integer e) = .ok c ∧ c.Simplest (p ^ e))) ∧
        (UInt32.size ≤ e.natAbs →
          a.power (.integer e) = .error (.domain s!"exponent {e} is too large"))) ∧
      ∀ (op op' : Operation) (s t s' t' : Formula) (r : ℚ),
        (Formula.combined op s t).Calculates r → (Formula.combined op' s' t').Calculates r →
        ∃ c c', (Formula.combined op s t).run = .ok c ∧
          (Formula.combined op' s' t').run = .ok c' ∧ c.same c' = true ∧ c.Simplest r := by
  refine ⟨⟨_, add_exact ha hb, simplest_ofRat _⟩, ⟨_, subtract_exact ha hb, simplest_ofRat _⟩,
    ⟨_, multiply_exact ha hb, simplest_ofRat _⟩, ?_, ?_, fun e => ⟨?_, power_large ha⟩, ?_⟩
  · rintro rfl
    exact divide_zero hb
  · exact fun hq => ⟨_, divide_exact ha hb hq, simplest_ofRat _⟩
  · intro hsize
    have hok (h : ¬(p = 0 ∧ e < 0)) : a.power (.integer e) = .ok (ofRat (p ^ e)) :=
      power_exact ha hsize ((not_and_or.mp h).imp_right not_lt.mp)
    refine ⟨⟨fun herror => ?_, ?_⟩, fun h => ⟨_, hok h, simplest_ofRat _⟩⟩
    · by_contra h
      rw [hok h] at herror
      cases herror
    · rintro ⟨rfl, he⟩
      exact power_zero ha hsize he
  · intro op op' s t s' t' r h h'
    exact ⟨_, _, h.run_eq, h'.run_eq, (exact_ofRat r).same_self, simplest_ofRat r⟩

theorem Scalar.calculations_exact_halves :
    Scalar.Exact (.rational (-1 / 2)) (-1 / 2) ∧ Scalar.Exact (.rational 4) 4 ∧
      (∃ c, Scalar.multiply (.rational (-1 / 2)) (.rational 4) = .ok c ∧ c.Simplest (-1 / 2 * 4)) ∧
      ∃ c c', (Formula.combined .power (.given (.rational (-1 / 2))) (.given (.integer (-3)))).run =
          .ok c ∧
        (Formula.combined .divide (.given (.rational 4)) (.given (.rational (-1 / 2)))).run =
          .ok c' ∧ c.same c' = true ∧ c.Simplest (-8) := by
  have ha : Scalar.Exact (.rational (-1 / 2)) (-1 / 2) := rfl
  have hb : Scalar.Exact (.rational 4) 4 := rfl
  obtain ⟨-, -, hmultiply, -, -, -, hcalculations⟩ := Scalar.calculations_exact ha hb
  refine ⟨ha, hb, hmultiply, hcalculations _ _ _ _ _ _ _ ?_ ?_⟩
  · have hpower : (-1 / 2 : ℚ) ^ (-3 : Int) = -8 := by norm_num
    exact hpower ▸ .power (.given ha) rfl (by decide) (.inl (by norm_num))
  · have hquotient : (4 : ℚ) / (-1 / 2) = -8 := by norm_num
    exact hquotient ▸ .quotient (.given hb) (.given ha) (by norm_num)

end LazyCalc
