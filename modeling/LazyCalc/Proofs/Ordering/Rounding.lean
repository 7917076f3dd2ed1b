import LazyCalc.Proofs.Ordering.Doubles
import Mathlib.Algebra.Order.Field.Rat
import Mathlib.Data.Rat.Cast.Order
import Mathlib.Tactic.Linarith
import Mathlib.Tactic.Ring
/-!
Rounding to the nearest double never turns two rational numbers round. A number is counted in units
of the least double, and rounded on the grid of the doubles of its size.
-/

namespace LazyCalc.Binary64

open Float.Model (UnpackedFloat Format totalExponent)
open Float.Model.UnpackedFloat (Sign Accuracy ExtendedMantissa pack unpack shiftToTargetExponent
  roundWithAccuracy accuracyOfFraction divCore)

/-- The halves that a mantissa with its round bit has for certain. -/
def halves (em : ExtendedMantissa) : Nat := 2 * em.mantissa + em.roundBit.toNat

/-- The sticky bit tells whether there is more than these halves, which is less than another one. -/
structure Stands (em : ExtendedMantissa) (y : ℚ) : Prop where
  low : (halves em : ℚ) ≤ 2 * y
  high : 2 * y < halves em + 1
  sticky : em.stickyBit = true ↔ (halves em : ℚ) < 2 * y

section

variable {em em' : ExtendedMantissa} {y y' : ℚ}

theorem halves_shiftRightOne (em : ExtendedMantissa) : halves em.shiftRightOne = em.mantissa := by
  change 2 * (em.mantissa / 2) + (em.mantissa % 2 != 0).toNat = em.mantissa
  rcases Nat.mod_two_eq_zero_or_one em.mantissa with h | h
  · rw [h]
    change 2 * (em.mantissa / 2) + 0 = em.mantissa
    omega
  · rw [h]
    change 2 * (em.mantissa / 2) + 1 = em.mantissa
    omega

theorem cast_halves (em : ExtendedMantissa) :
    (halves em : ℚ) = 2 * em.mantissa + em.roundBit.toNat := by
  rw [halves, Nat.cast_add, Nat.cast_mul, Nat.cast_ofNat]

theorem Stands.mantissa_le (h : Stands em y) : (em.mantissa : ℚ) ≤ y := by
  have hlow := h.low
  have hbit : (0 : ℚ) ≤ em.roundBit.toNat := Nat.cast_nonneg _
  rw [cast_halves] at hlow
  linarith

theorem Stands.lt_succ (h : Stands em y) : y < em.mantissa + 1 := by
  have hhigh := h.high
  have hbit : (em.roundBit.toNat : ℚ) ≤ 1 := by exact_mod_cast Bool.toNat_le em.roundBit
  rw [cast_halves] at hhigh
  linarith

theorem Stands.shiftRightOne (h : Stands em y) : Stands em.shiftRightOne (y / 2) := by
  have hhalf : 2 * (y / 2) = y := mul_div_cancel₀ y two_ne_zero
  constructor
  · rw [halves_shiftRightOne, hhalf]
    exact h.mantissa_le
  · rw [halves_shiftRightOne, hhalf]
    exact h.lt_succ
  · change (em.roundBit || em.stickyBit) = true ↔ _
    have hlow := h.low
    have hsticky := h.sticky
    rw [cast_halves] at hlow hsticky
    rw [halves_shiftRightOne, hhalf]
    cases hbit : em.roundBit with
    | false =>
      rw [hbit, Bool.toNat_false, Nat.cast_zero, add_zero] at hsticky
      rw [Bool.false_or, hsticky]
      exact mul_lt_mul_iff_right₀ two_pos
    | true =>
      rw [hbit, Bool.toNat_true, Nat.cast_one] at hlow
      exact ⟨fun _ => by linarith, fun _ => rfl⟩

theorem Stands.shiftRight (h : Stands em y) (k : Nat) : Stands (em >>> k) (y / 2 ^ k) := by
  change Stands (k.repeat ExtendedMantissa.shiftRightOne em) _
  induction k with
  | zero => rwa [pow_zero, div_one]
  | succ k ih =>
    rw [pow_succ, ← div_div]
    exact ih.shiftRightOne

theorem roundedMantissa_bounds (em : ExtendedMantissa) :
    em.mantissa ≤ em.roundedMantissa ∧ em.roundedMantissa ≤ em.mantissa + 1 := by
  obtain ⟨m, r, s⟩ := em
  have hparity := Nat.mod_lt m two_pos
  cases r <;> cases s <;>
    simp only [ExtendedMantissa.roundedMantissa, ExtendedMantissa.accuracy,
      Accuracy.roundToNearestEven] <;> omega

theorem Stands.roundedMantissa_le (h : Stands em y) (h' : Stands em' y') (hle : y ≤ y') :
    em.roundedMantissa ≤ em'.roundedMantissa := by
  have hhalves : halves em ≤ halves em' := by
    have hlt : (halves em : ℚ) < halves em' + 1 := by linarith [h.low, h'.high]
    exact Nat.lt_succ_iff.mp (by exact_mod_cast hlt)
  have hsticky (heq : halves em = halves em') : em.stickyBit.toNat ≤ em'.stickyBit.toNat := by
    cases hs : em.stickyBit with
    | false => exact Nat.zero_le _
    | true =>
      have hlt := h.sticky.mp hs
      rw [heq] at hlt
      rw [h'.sticky.mpr (by linarith)]
  clear h h'
  obtain ⟨m, r, s⟩ := em
  obtain ⟨m', r', s'⟩ := em'
  simp only [halves] at hhalves hsticky
  have hparity := Nat.mod_lt m two_pos
  cases r <;> cases s <;> cases r' <;> cases s' <;>
    simp only [ExtendedMantissa.roundedMantissa, ExtendedMantissa.accuracy,
      Accuracy.roundToNearestEven, Bool.toNat_false, Bool.toNat_true] at hhalves hsticky ⊢ <;>
    omega

end

theorem mantissa_ofMantissaAndAccuracy (m : Nat) (accuracy : Accuracy) :
    (ExtendedMantissa.ofMantissaAndAccuracy m accuracy).mantissa = m := by
  fun_cases ExtendedMantissa.ofMantissaAndAccuracy <;> rfl

theorem stands_add_div {q r d : Nat} {bit sticky : Bool} (hd : 0 < d) (hlow : bit.toNat * d ≤ 2 * r)
    (hhigh : 2 * r < (bit.toNat + 1) * d) (hsticky : sticky = true ↔ bit.toNat * d < 2 * r) :
    Stands ⟨q, bit, sticky⟩ (q + r / d) := by
  have hd' : (0 : ℚ) < d := Nat.cast_pos.mpr hd
  have htwice : 2 * (q + r / d : ℚ) = 2 * q + (2 * r : Nat) / d := by
    rw [mul_add, Nat.cast_mul, Nat.cast_ofNat, mul_div_assoc]
  constructor <;> rw [cast_halves, htwice]
  · rw [add_le_add_iff_left, le_div_iff₀ hd']
    exact_mod_cast hlow
  · rw [add_assoc, add_lt_add_iff_left, div_lt_iff₀ hd']
    exact_mod_cast hhigh
  · rw [add_lt_add_iff_left, lt_div_iff₀ hd', hsticky]
    exact_mod_cast Iff.rfl

theorem stands_div (a : Nat) {d : Nat} (hd : 0 < d) :
    Stands (.ofMantissaAndAccuracy (a / d) (accuracyOfFraction (a % d) d)) (a / d) := by
  have hsplit : (a / d : ℚ) = (a / d : Nat) + (a % d : Nat) / d := by
    have hd' : (d : ℚ) ≠ 0 := Nat.cast_ne_zero.mpr hd.ne'
    rw [div_eq_iff hd', add_mul, div_mul_cancel₀ _ hd']
    exact_mod_cast (Nat.div_add_mod' a d).symm
  have hrest := Nat.mod_lt a hd
  rw [hsplit]
  unfold accuracyOfFraction
  split_ifs with hzero
  · exact stands_add_div hd (by simp [hzero]) (by simpa [hzero]) (by simp [hzero])
  · rcases lt_trichotomy (2 * (a % d)) d with hlt | heq | hgt
    · rw [compare_lt_iff_lt.mpr hlt]
      exact stands_add_div hd (by simp) (by simpa) (by simp; omega)
    · rw [compare_eq_iff_eq.mpr heq]
      exact stands_add_div hd (by simp [heq]) (by simp; omega) (by simp [heq])
    · rw [compare_gt_iff_gt.mpr hgt]
      exact stands_add_div hd (by simp; omega) (by simp; omega) (by simp; omega)

theorem stands_exact (m : Nat) : Stands (.ofMantissaAndAccuracy m .exact) m := by
  have h := stands_div m Nat.one_pos
  rwa [Nat.div_one, Nat.mod_one, Nat.cast_one, div_one] at h

/-- In units of the least double: the size of a number, as far as the grid of its doubles goes. -/
structure Grid (x : ℚ) (n : Nat) : Prop where
  lt : x < 2 ^ 53 * 2 ^ n
  full : n = 0 ∨ 2 ^ 52 * 2 ^ n ≤ x

theorem shiftToTargetExponent_eq (m n : Nat) (accuracy : Accuracy) :
    shiftToTargetExponent Format.binary64 m (n - 1074 : Int) accuracy =
      (ExtendedMantissa.ofMantissaAndAccuracy m accuracy >>> (m.log2 - 52),
        ((n + (m.log2 - 52) : Nat) - 1074 : Int)) := by
  have hshift : (max (m.log2 + 1 + (n - 1074 : Int) - 53) (-1074) - (n - 1074)).toNat =
      m.log2 - 52 := by omega
  change (ExtendedMantissa.ofMantissaAndAccuracy m accuracy >>>
      (max (m.log2 + 1 + (n - 1074 : Int) - 53) (-1074) - (n - 1074)).toNat,
    (n - 1074 : Int) +
      ((max (m.log2 + 1 + (n - 1074 : Int) - 53) (-1074) - (n - 1074)).toNat : Nat)) = _
  rw [hshift]
  congr 1
  omega

theorem grid_of_stands {m n : Nat} {accuracy : Accuracy} {x : ℚ}
    (h : Stands (.ofMantissaAndAccuracy m accuracy) (x / 2 ^ n))
    (hfull : n = 0 ∨ 2 ^ 52 * 2 ^ n ≤ x) :
    Grid x (n + (m.log2 - 52)) ∧
      Stands (ExtendedMantissa.ofMantissaAndAccuracy m accuracy >>> (m.log2 - 52))
        (x / 2 ^ (n + (m.log2 - 52))) := by
  have hn : (0 : ℚ) < 2 ^ n := pow_pos two_pos n
  have hlow := h.mantissa_le
  have hhigh := h.lt_succ
  rw [mantissa_ofMantissaAndAccuracy, le_div_iff₀ hn] at hlow
  rw [mantissa_ofMantissaAndAccuracy, div_lt_iff₀ hn] at hhigh
  -- the shift leaves 53 bits, or as many as there were
  refine ⟨⟨?_, ?_⟩, ?_⟩
  · calc x
      _ < (m + 1) * 2 ^ n := hhigh
      _ ≤ 2 ^ (m.log2 + 1) * 2 ^ n := by
        refine mul_le_mul_of_nonneg_right ?_ hn.le
        exact_mod_cast Nat.lt_log2_self
      _ ≤ 2 ^ 53 * 2 ^ (n + (m.log2 - 52)) := by
        rw [← pow_add, ← pow_add]
        exact pow_le_pow_right₀ one_le_two (by omega)
  · by_cases hlog : 52 ≤ m.log2
    · right
      calc (2 : ℚ) ^ 52 * 2 ^ (n + (m.log2 - 52))
        _ = 2 ^ m.log2 * 2 ^ n := by
          rw [← pow_add, ← pow_add]
          congr 1
          omega
        _ ≤ m * 2 ^ n := by
          refine mul_le_mul_of_nonneg_right ?_ hn.le
          exact_mod_cast Nat.log2_self_le (by rintro rfl; exact absurd hlog (by decide))
        _ ≤ x := hlow
    · rw [show m.log2 - 52 = 0 by omega]
      exact hfull
  · rw [pow_add, ← div_div]
    exact h.shiftRight _

theorem Grid.rounded_bounds {x : ℚ} {n : Nat} {em : ExtendedMantissa} (h : Grid x n)
    (hem : Stands em (x / 2 ^ n)) :
    em.roundedMantissa ≤ 2 ^ 53 ∧ (n = 0 ∨ 2 ^ 52 ≤ em.roundedMantissa) := by
  have hn : (0 : ℚ) < 2 ^ n := pow_pos two_pos n
  obtain ⟨hlow, hhigh⟩ := roundedMantissa_bounds em
  constructor
  · have hlt : (em.mantissa : ℚ) < (2 ^ 53 : Nat) := by
      refine hem.mantissa_le.trans_lt ?_
      rw [div_lt_iff₀ hn]
      exact_mod_cast h.lt
    exact hhigh.trans (Nat.succ_le_of_lt (by exact_mod_cast hlt))
  · refine h.full.imp_right fun hfull => le_trans ?_ hlow
    have hlt : ((2 ^ 52 : Nat) : ℚ) < em.mantissa + 1 := by
      refine lt_of_le_of_lt ?_ hem.lt_succ
      rw [le_div_iff₀ hn]
      exact_mod_cast hfull
    exact Nat.lt_succ_iff.mp (by exact_mod_cast hlt)

theorem Grid.le {x y : ℚ} {n k : Nat} (h : Grid x n) (h' : Grid y k) (hle : x ≤ y) : n ≤ k := by
  by_contra hlt
  have hfull := h.full.resolve_left (by omega)
  have hpow : (2 : ℚ) ^ 53 * 2 ^ k ≤ 2 ^ 52 * 2 ^ n := by
    rw [← pow_add, ← pow_add]
    exact pow_le_pow_right₀ one_le_two (by omega)
  exact absurd (hfull.trans hle) (not_le.mpr (h'.lt.trans_le hpow))

theorem Grid.rounded_le {x y : ℚ} {n k : Nat} {em em' : ExtendedMantissa} (h : Grid x n)
    (h' : Grid y k) (hem : Stands em (x / 2 ^ n)) (hem' : Stands em' (y / 2 ^ k)) (hle : x ≤ y) :
    n * 2 ^ 52 + em.roundedMantissa ≤ k * 2 ^ 52 + em'.roundedMantissa := by
  rcases (h.le h' hle).lt_or_eq with hlt | rfl
  · have hhigh := (h.rounded_bounds hem).1
    have hlow := (h'.rounded_bounds hem').2.resolve_left (Nat.ne_zero_of_lt hlt)
    omega
  · have hrounded := hem.roundedMantissa_le hem'
      (div_le_div_of_nonneg_right hle (pow_pos two_pos n).le)
    omega

theorem canonical_carry {n r : Nat} (hr : r ≤ 2 ^ 53) (hfull : n = 0 ∨ 2 ^ 52 ≤ r) :
    let m := (ExtendedMantissa.ofMantissaAndAccuracy r .exact >>> (r.log2 - 52)).mantissa
    Canonical m ((n + (r.log2 - 52) : Nat) - 1074 : Int) ∧
      (n + (r.log2 - 52)) * 2 ^ 52 + m = n * 2 ^ 52 + r := by
  rcases hr.lt_or_eq with hlt | rfl
  · have hlog : r.log2 - 52 = 0 := by
      rcases Nat.eq_zero_or_pos r with rfl | hpos
      · rfl
      · have := (Nat.log2_lt hpos.ne').mpr hlt
        omega
    rw [hlog]
    change Canonical r _ ∧ (n + 0) * 2 ^ 52 + r = _
    exact ⟨⟨hlt, by omega, by omega⟩, rfl⟩
  · rw [Nat.log2_two_pow]
    change Canonical (2 ^ 53 / 2) ((n + 1 : Nat) - 1074 : Int) ∧
      (n + 1) * 2 ^ 52 + 2 ^ 53 / 2 = n * 2 ^ 52 + 2 ^ 53
    exact ⟨⟨by decide, by omega, .inl (by decide)⟩, by omega⟩

/-- How far a positive number, in units of the least double, comes when it is rounded. -/
def Weighs (x : ℚ) (w : Int) : Prop :=
  ∃ n em, Grid x n ∧ Stands em (x / 2 ^ n) ∧
    w = min ((n * 2 ^ 52 + em.roundedMantissa : Nat) : Int) (2047 * 2 ^ 52)

theorem Weighs.le {x y : ℚ} {v w : Int} (h : Weighs x v) (h' : Weighs y w) (hle : x ≤ y) :
    v ≤ w := by
  obtain ⟨n, em, hgrid, hem, rfl⟩ := h
  obtain ⟨k, em', hgrid', hem', rfl⟩ := h'
  exact min_le_min_right _ (Int.ofNat_le.mpr (hgrid.rounded_le hgrid' hem hem' hle))

theorem Weighs.nonneg {x : ℚ} {w : Int} (h : Weighs x w) : 0 ≤ w := by
  obtain ⟨n, em, -, -, rfl⟩ := h
  exact le_min (Int.natCast_nonneg _) (by decide)

theorem ranked_of_canonical {m n : Nat} (h : Canonical m (n - 1074 : Int)) (s : Sign) :
    Ranked (unpack Format.binary64 (pack Format.binary64
      (if hm : m = 0 then .zero s else .finite s m (n - 1074 : Int) (Nat.pos_of_ne_zero hm))))
      (s.apply (min ((n * 2 ^ 52 + m : Nat) : Int) (2047 * 2 ^ 52))) := by
  split_ifs with hm
  · obtain rfl : n = 0 := by
      have hfull := h.2.2
      omega
    subst hm
    exact ⟨by cases s <;> decide, by cases s <;> decide⟩
  · have hranked := ranked_pack h s (Nat.pos_of_ne_zero hm)
    rwa [show (n - 1074 + 1074 : Int) * 2 ^ 52 + m = (n * 2 ^ 52 + m : Nat) by omega] at hranked

theorem weighs_zero : Weighs 0 0 := by
  have hstands := stands_exact 0
  rw [Nat.cast_zero, ← zero_div (2 ^ 0)] at hstands
  exact ⟨0, _, ⟨by norm_num, .inl rfl⟩, hstands, rfl⟩

theorem exists_round (s : Sign) {m n : Nat} {accuracy : Accuracy} {x : ℚ}
    (h : Stands (.ofMantissaAndAccuracy m accuracy) (x / 2 ^ n))
    (hfull : n = 0 ∨ 2 ^ 52 * 2 ^ n ≤ x) :
    ∃ w, Weighs x w ∧ Ranked (unpack Format.binary64 (pack Format.binary64
      (roundWithAccuracy Format.binary64 s m (n - 1074 : Int) accuracy))) (s.apply w) := by
  obtain ⟨hgrid, hem⟩ := grid_of_stands h hfull
  obtain ⟨hr, hfull'⟩ := hgrid.rounded_bounds hem
  obtain ⟨hcanonical, hsum⟩ := canonical_carry hr hfull'
  refine ⟨_, ⟨_, _, hgrid, hem, rfl⟩, ?_⟩
  rw [roundWithAccuracy, shiftToTargetExponent_eq, ← hsum]
  dsimp only
  rw [shiftToTargetExponent_eq]
  exact ranked_of_canonical hcanonical s

theorem divCore_eq {num den n : Nat}
    (h : min 0 (Format.binary64.targetExponent (totalExponent num 0 - totalExponent den 0)) =
      (n - 1074 : Int)) :
    divCore Format.binary64 num 0 den 0 = (num * 2 ^ (1074 - n) / den, (n - 1074 : Int),
      accuracyOfFraction (num * 2 ^ (1074 - n) % den) den) := by
  unfold divCore
  rw [Int.sub_zero, h]
  dsimp only
  rw [show (0 - (n - 1074 : Int)).toNat = 1074 - n by omega, Nat.shiftLeft_eq]

theorem exists_divCore {num den : Nat} (hnum : 0 < num) (hden : 0 < den) :
    ∃ (n m : Nat) (accuracy : Accuracy),
      divCore Format.binary64 num 0 den 0 = (m, (n - 1074 : Int), accuracy) ∧
      Stands (.ofMantissaAndAccuracy m accuracy) (num / den * 2 ^ 1074 / 2 ^ n : ℚ) ∧
      (n = 0 ∨ (2 ^ 52 * 2 ^ n : ℚ) ≤ num / den * 2 ^ 1074) := by
  obtain ⟨n, hn, hexponent, hbits⟩ : ∃ n : Nat, n ≤ 1074 ∧
      min 0 (max ((num.log2 + 1 + 0 : Int) - (den.log2 + 1 + 0) - 53) (-1074)) = n - 1074 ∧
      (n = 0 ∨ 52 + n + (den.log2 + 1) ≤ num.log2 + 1074) :=
    ⟨(min 0 (max ((num.log2 + 1 + 0 : Int) - (den.log2 + 1 + 0) - 53) (-1074)) + 1074).toNat,
      by omega, by omega, by omega⟩
  have hden' : (0 : ℚ) < den := Nat.cast_pos.mpr hden
  refine ⟨n, _, _, divCore_eq hexponent, ?_, ?_⟩
  · have h := stands_div (num * 2 ^ (1074 - n)) hden
    have hpow : (2 : ℚ) ^ 1074 = 2 ^ (1074 - n) * 2 ^ n := by
      rw [← pow_add, Nat.sub_add_cancel hn]
    rw [Nat.cast_mul, Nat.cast_pow, Nat.cast_ofNat] at h
    rwa [hpow, ← mul_assoc, mul_div_cancel_right₀ _ (pow_ne_zero n two_ne_zero), div_mul_eq_mul_div]
  · refine hbits.imp_right fun hle => ?_
    rw [div_mul_eq_mul_div, le_div_iff₀ hden']
    calc (2 ^ 52 * 2 ^ n * den : ℚ)
      _ ≤ 2 ^ 52 * 2 ^ n * 2 ^ (den.log2 + 1) := by
        refine mul_le_mul_of_nonneg_left ?_ (by positivity)
        exact_mod_cast Nat.lt_log2_self.le
      _ ≤ 2 ^ num.log2 * 2 ^ 1074 := by
        rw [← pow_add, ← pow_add, ← pow_add]
        exact pow_le_pow_right₀ one_le_two hle
      _ ≤ num * 2 ^ 1074 := by
        refine mul_le_mul_of_nonneg_right ?_ (by positivity)
        exact_mod_cast Nat.log2_self_le hnum.ne'

theorem ranked_ofUnpacked {u : UnpackedFloat} {w : Int}
    (h : Ranked (unpack Format.binary64 (pack Format.binary64 u)) w) :
    Ranked (ofUnpacked u).toModel.unpack w := by
  have hranked := ranked_unpack_pack (fits_unpack (pack Format.binary64 u)) h.1
  rw [h.2] at hranked
  exact hranked

theorem abs_eq_div (r : ℚ) : |r| = r.num.natAbs / r.den := by
  rw [Rat.abs_def, Rat.divInt_eq_div]
  rfl

theorem ranked_nearest_zero : Ranked (nearest 0).toModel.unpack 0 :=
  ⟨by decide +kernel, by decide +kernel⟩

theorem exists_nearest (r : ℚ) :
    ∃ w, Weighs (|r| * 2 ^ 1074) w ∧
      Ranked (nearest r).toModel.unpack (if r < 0 then -w else w) := by
  rcases eq_or_ne r 0 with rfl | hr
  · refine ⟨0, ?_, ranked_nearest_zero⟩
    rw [abs_zero, zero_mul]
    exact weighs_zero
  · obtain ⟨n, m, accuracy, hdiv, hstands, hfull⟩ :=
      exists_divCore (Int.natAbs_pos.mpr (Rat.num_ne_zero.mpr hr)) r.den_pos
    rw [← abs_eq_div] at hstands hfull
    obtain ⟨w, hweighs, hranked⟩ :=
      exists_round (if r.num < 0 then .negative else .positive) hstands hfull
    refine ⟨w, hweighs, ?_⟩
    have happly : (if r.num < 0 then Sign.negative else Sign.positive).apply w =
        if r < 0 then -w else w := by
      simp only [Rat.num_neg]
      split <;> rfl
    rw [happly] at hranked
    rw [nearest, hdiv]
    exact ranked_ofUnpacked hranked

theorem isNaN_nearest (r : ℚ) : (nearest r).isNaN = false := by
  obtain ⟨w, -, hranked⟩ := exists_nearest r
  exact hranked.1

theorem place_nearest_mono {p q : ℚ} (h : p ≤ q) : place (nearest p) ≤ place (nearest q) := by
  obtain ⟨v, hv, hpv⟩ := exists_nearest p
  obtain ⟨w, hw, hqw⟩ := exists_nearest q
  have hunit : (0 : ℚ) ≤ 2 ^ 1074 := by positivity
  rw [place, place, hpv.2, hqw.2]
  rcases lt_or_ge q 0 with hq | hq
  · have hp := h.trans_lt hq
    have habs : |q| ≤ |p| := by
      rw [abs_of_neg hq, abs_of_neg hp]
      exact neg_le_neg h
    rw [if_pos hp, if_pos hq]
    exact Int.neg_le_neg (hw.le hv (mul_le_mul_of_nonneg_right habs hunit))
  · rw [if_neg (not_lt.mpr hq)]
    rcases lt_or_ge p 0 with hp | hp
    · rw [if_pos hp]
      exact (Int.neg_nonpos_of_nonneg hv.nonneg).trans hw.nonneg
    · have habs : |p| ≤ |q| := by
        rw [abs_of_nonneg hp, abs_of_nonneg hq]
        exact h
      rw [if_neg (not_lt.mpr hp)]
      exact hv.le hw (mul_le_mul_of_nonneg_right habs hunit)

end LazyCalc.Binary64
