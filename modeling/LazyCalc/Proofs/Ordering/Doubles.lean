import LazyCalc.Scalar.Order
import Mathlib
/-!
The doubles other than NaN stand in a row, with the two zeros in one place: the rank of a double is
its place in this row, counted from zero, and the comparison of doubles is that of their ranks.
-/

namespace LazyCalc.Binary64

open Float.Model (UnpackedFloat Format)
open Float.Model.UnpackedFloat (Sign pack packComponents unpack unpackExponent unpackMantissa
  unpackSign unpackMantissa_packComponents unpackExponent_packComponents)

def rank : UnpackedFloat → Int
  | .zero _ | .notANumber => 0
  | .finite s m e _ => s.apply ((e + 1074) * 2 ^ 52 + m)
  | .infinity s => s.apply (2047 * 2 ^ 52)

/-- The mantissa has all of its 53 bits, unless the exponent is the least that there is. -/
def Canonical (m : Nat) (e : Int) : Prop :=
  m < 2 ^ 53 ∧ -1074 ≤ e ∧ (2 ^ 52 ≤ m ∨ e = -1074)

def Fits : UnpackedFloat → Prop
  | .finite _ m e _ => Canonical m e ∧ e ≤ 971
  | _ => True

theorem append_toNat (m : BitVec 52) : (1#1 ++ m).toNat = 2 ^ 52 + m.toNat := by
  rw [BitVec.toNat_append, ← Nat.shiftLeft_add_eq_or_of_lt m.isLt]
  rfl

theorem toNat_lt_of_ne {e : BitVec 11} (h : e ≠ -1#11) : e.toNat < 2047 := by
  have hne : e.toNat ≠ 2047 := fun heq => h (BitVec.eq_of_toNat_eq heq)
  have hlt := e.isLt
  omega

theorem fits_unpack (b : BitVec 64) : Fits (unpack Format.binary64 b) := by
  unfold unpack
  dsimp only
  split_ifs with hinfinite hfraction hsubnormal hzero
  · trivial
  · trivial
  · trivial
  · have hm : (@unpackMantissa Format.binary64 b).toNat < 2 ^ 52 := BitVec.isLt _
    rw [hsubnormal]
    change Canonical (@unpackMantissa Format.binary64 b).toNat (-1074) ∧ _
    exact ⟨⟨by omega, le_refl _, .inr rfl⟩, by decide⟩
  · have hm : (@unpackMantissa Format.binary64 b).toNat < 2 ^ 52 := BitVec.isLt _
    have he := toNat_lt_of_ne hinfinite
    have hpos : (@unpackExponent Format.binary64 b).toNat ≠ 0 :=
      fun h => hsubnormal (BitVec.eq_of_toNat_eq h)
    change Canonical (1#1 ++ @unpackMantissa Format.binary64 b).toNat
      ((@unpackExponent Format.binary64 b).toNat - 1075) ∧
      ((@unpackExponent Format.binary64 b).toNat : Int) - 1075 ≤ 971
    rw [append_toNat]
    exact ⟨⟨by omega, by omega, .inl (by omega)⟩, by omega⟩

def Ranked (x : UnpackedFloat) (n : Int) : Prop := x.isNaN = false ∧ rank x = n

theorem sign_packComponents (s : Sign) (e : BitVec 11) (m : BitVec 52) :
    Sign.ofBitVec (unpackSign (packComponents Format.binary64 s e m)) = s := by
  simp only [unpackSign, packComponents, BitVec.extractLsb]
  rw [BitVec.extractLsb'_append_eq_of_le (by decide),
    BitVec.extractLsb'_append_eq_of_le (by decide)]
  cases s <;> rfl

theorem ranked_unpack (s : Sign) (e : BitVec 11) (m : BitVec 52) (h : e = -1#11 → m = 0#52) :
    Ranked (unpack Format.binary64 (packComponents Format.binary64 s e m))
      (s.apply (e.toNat * 2 ^ 52 + m.toNat)) := by
  unfold unpack
  simp only [unpackMantissa_packComponents, unpackExponent_packComponents, sign_packComponents]
  split_ifs with hinfinite hfraction hsubnormal hzero
  · rw [hinfinite, hfraction]
    exact ⟨rfl, rfl⟩
  · exact absurd (h hinfinite) hfraction
  · rw [hsubnormal, hzero]
    exact ⟨rfl, by cases s <;> decide⟩
  · rw [hsubnormal]
    exact ⟨rfl, rfl⟩
  · refine ⟨rfl, ?_⟩
    change s.apply (((e.toNat : Int) - 1075 + 1074) * 2 ^ 52 + (1#1 ++ m).toNat) = _
    rw [append_toNat]
    congr 1
    omega

theorem ranked_pack {m : Nat} {e : Int} (h : Canonical m e) (s : Sign) (hm : 0 < m) :
    Ranked (unpack Format.binary64 (pack Format.binary64 (.finite s m e hm)))
      (s.apply (min ((e + 1074) * 2 ^ 52 + m) (2047 * 2 ^ 52))) := by
  obtain ⟨hlt, he, hfull⟩ := h
  unfold pack
  change Ranked (unpack _ (if 2048 ≤ (e + 1023 + 52).toNat + 1 then _ else
    if m.log2 + 1 = 53 then _ else _)) _
  split_ifs with hlarge hnormal
  · have hranked := ranked_unpack s (-1#11) 0#52 fun _ => rfl
    rw [min_eq_right (by omega)]
    exact hranked
  · have hle : 2 ^ 52 ≤ m := (Nat.le_log2 hm.ne').mp (by omega)
    have he' : (BitVec.ofNat 11 (e + 1023 + 52).toNat).toNat = (e + 1023 + 52).toNat := by
      rw [BitVec.toNat_ofNat, Nat.mod_eq_of_lt (by omega)]
    have hm' : (BitVec.ofNat 52 m).toNat = m - 2 ^ 52 := by
      rw [BitVec.toNat_ofNat]
      omega
    have hranked := ranked_unpack s (BitVec.ofNat 11 (e + 1023 + 52).toNat) (BitVec.ofNat 52 m)
      fun hinfinite => by
        have := congrArg BitVec.toNat hinfinite
        rw [he'] at this
        change _ = 2047 at this
        omega
    rw [he', hm'] at hranked
    rw [min_eq_left (by omega), show (e + 1074) * 2 ^ 52 + (m : Int) =
      ((e + 1023 + 52).toNat : Int) * 2 ^ 52 + (m - 2 ^ 52 : Nat) by omega]
    exact hranked
  · have hlog : m.log2 < 53 := (Nat.log2_lt hm.ne').mpr hlt
    have hless : m < 2 ^ 52 := (Nat.log2_lt hm.ne').mp (by omega)
    obtain rfl := hfull.resolve_left (Nat.not_le.mpr hless)
    have hm' : (BitVec.ofNat 52 m).toNat = m := by
      rw [BitVec.toNat_ofNat, Nat.mod_eq_of_lt hless]
    have hranked := ranked_unpack s 0#11 (BitVec.ofNat 52 m) nofun
    rw [hm'] at hranked
    rw [min_eq_left (by omega)]
    exact hranked

section

variable {m m' : Nat} {e e' : Int}

theorem magnitude_pos (h : Canonical m e) (hm : 0 < m) : 0 < (e + 1074) * 2 ^ 52 + (m : Int) := by
  have he := h.2.1
  omega

theorem magnitude_lt_infinity (h : Canonical m e) (he : e ≤ 971) :
    (e + 1074) * 2 ^ 52 + (m : Int) < 2047 * 2 ^ 52 := by
  have hm := h.1
  omega

theorem magnitude_lt (h : Canonical m e) (h' : Canonical m' e') (hlt : e < e') :
    (e + 1074) * 2 ^ 52 + (m : Int) < (e' + 1074) * 2 ^ 52 + m' := by
  obtain ⟨hm, he, -⟩ := h
  obtain ⟨-, -, hfull⟩ := h'
  omega

theorem compare_magnitudes (h : Canonical m e) (h' : Canonical m' e') :
    (compare e e').then (compare m m') =
      compare ((e + 1074) * 2 ^ 52 + (m : Int)) ((e' + 1074) * 2 ^ 52 + m') := by
  rcases lt_trichotomy e e' with hlt | rfl | hgt
  · rw [compare_lt_iff_lt.mpr hlt, compare_lt_iff_lt.mpr (magnitude_lt h h' hlt)]
    rfl
  · rw [compare_eq_iff_eq.mpr (rfl : e = e)]
    change compare m m' = _
    rcases lt_trichotomy m m' with hlt | rfl | hgt
    · rw [compare_lt_iff_lt.mpr hlt, eq_comm, compare_lt_iff_lt]
      omega
    · rw [compare_eq_iff_eq.mpr (rfl : m = m), eq_comm, compare_eq_iff_eq]
    · rw [compare_gt_iff_gt.mpr hgt, eq_comm, compare_gt_iff_gt]
      omega
  · rw [compare_gt_iff_gt.mpr hgt, compare_gt_iff_gt.mpr (magnitude_lt h' h hgt)]
    rfl

end

theorem swap_compare {α : Type} [LinearOrder α] (a b : α) : (compare a b).swap = compare b a := by
  rw [← cmp_eq_compare, cmp_swap, cmp_eq_compare]

theorem compare_neg (a b : Int) : compare (-a) (-b) = (compare a b).swap := by
  have hneg : StrictAnti fun a : Int => -a := fun _ _ => Int.neg_lt_neg
  rw [swap_compare, ← cmp_eq_compare, ← cmp_eq_compare]
  exact hneg.cmp_map_eq a b

theorem rank_bounds {x : UnpackedFloat} (hx : Fits x) (hfinite : ∀ s, x = .infinity s → False) :
    -(2047 * 2 ^ 52) < rank x ∧ rank x < 2047 * 2 ^ 52 := by
  have hinfinity : (0 : Int) < 2047 * 2 ^ 52 := by decide
  cases x with
  | infinity s => exact (hfinite s rfl).elim
  | notANumber | zero => exact ⟨Int.neg_neg_of_pos hinfinity, hinfinity⟩
  | finite s m e hm =>
    have hpos := magnitude_pos hx.1 hm
    have hlt := magnitude_lt_infinity hx.1 hx.2
    cases s with
    | negative => exact ⟨Int.neg_lt_neg hlt, (Int.neg_neg_of_pos hpos).trans hinfinity⟩
    | positive => exact ⟨(Int.neg_neg_of_pos hinfinity).trans hpos, hlt⟩

theorem compare_eq_compare_rank {x y : UnpackedFloat} (hx : Fits x) (hy : Fits y)
    (hxn : x ≠ .notANumber) (hyn : y ≠ .notANumber) :
    x.compare y = some (compare (rank x) (rank y)) := by
  have hlt {a b : Int} (h : a < b) : some .lt = some (compare a b) :=
    congrArg some (compare_lt_iff_lt.mpr h).symm
  have hgt {a b : Int} (h : b < a) : some .gt = some (compare a b) :=
    congrArg some (compare_gt_iff_gt.mpr h).symm
  fun_cases UnpackedFloat.compare x y with
  | case1 => exact absurd rfl hxn
  | case2 => exact absurd rfl hyn
  | case3 s s' => cases s <;> cases s' <;> rfl
  | case4 _ _ hfinite => exact hgt (rank_bounds hy hfinite).2
  | case5 _ _ hfinite => exact hlt (rank_bounds hy hfinite).1
  | case6 _ _ hfinite => exact hlt (rank_bounds hx hfinite).2
  | case7 _ _ hfinite => exact hgt (rank_bounds hx hfinite).1
  | case8 m e hm => exact hgt (magnitude_pos hx.1 hm)
  | case9 m e hm => exact hlt (Int.neg_neg_of_pos (magnitude_pos hx.1 hm))
  | case10 _ m e hm => exact hlt (magnitude_pos hy.1 hm)
  | case11 _ m e hm => exact hgt (Int.neg_neg_of_pos (magnitude_pos hy.1 hm))
  | case12 => rfl
  | case13 =>
    rw [compare_magnitudes hx.1 hy.1, ← compare_neg]
    rfl
  | case14 m e hm m' e' hm' =>
    exact hlt ((Int.neg_neg_of_pos (magnitude_pos hx.1 hm)).trans (magnitude_pos hy.1 hm'))
  | case15 m e hm m' e' hm' =>
    exact hgt ((Int.neg_neg_of_pos (magnitude_pos hy.1 hm')).trans (magnitude_pos hx.1 hm))
  | case16 =>
    rw [compare_magnitudes hx.1 hy.1]
    rfl

theorem ranked_unpack_pack {x : UnpackedFloat} (hx : Fits x) (hnan : x.isNaN = false) :
    Ranked (unpack Format.binary64 (pack Format.binary64 x)) (rank x) := by
  cases x with
  | notANumber => cases hnan
  | infinity s => exact ⟨by cases s <;> decide, by cases s <;> decide⟩
  | zero s => exact ⟨by cases s <;> decide, by cases s <;> decide⟩
  | finite s m e hm =>
    have hranked := ranked_pack hx.1 s hm
    rwa [min_eq_left (magnitude_lt_infinity hx.1 hx.2).le] at hranked

def place (x : Float) : Int := rank x.toModel.unpack

section

variable {x y : Float} (hx : x.isNaN = false) (hy : y.isNaN = false)

include hx hy

theorem compare_eq_compare_place :
    x.toModel.unpack.compare y.toModel.unpack = some (compare (place x) (place y)) := by
  refine compare_eq_compare_rank (fits_unpack _) (fits_unpack _) ?_ ?_
  · intro h
    exact nomatch (congrArg UnpackedFloat.isNaN h).symm.trans hx
  · intro h
    exact nomatch (congrArg UnpackedFloat.isNaN h).symm.trans hy

theorem lt_iff_place_lt : x < y ↔ place x < place y := by
  change decide ((x.toModel.unpack.compare y.toModel.unpack == some .lt) = true) = true ↔ _
  rw [compare_eq_compare_place hx hy, decide_eq_true_eq, beq_iff_eq, Option.some_inj,
    compare_lt_iff_lt]

theorem beq_iff_place_eq : (x == y) = true ↔ place x = place y := by
  change (x.toModel.unpack.compare y.toModel.unpack == some .eq) = true ↔ _
  rw [compare_eq_compare_place hx hy, beq_iff_eq, Option.some_inj, compare_eq_iff_eq]

theorem compareFloats?_eq : Scalar.compareFloats? x y = some (compare (place x) (place y)) := by
  unfold Scalar.compareFloats?
  rcases lt_trichotomy (place x) (place y) with hlt | heq | hgt
  · rw [if_pos ((lt_iff_place_lt hx hy).mpr hlt), compare_lt_iff_lt.mpr hlt]
  · rw [if_neg (mt (lt_iff_place_lt hx hy).mp (not_lt_of_ge heq.ge)),
      if_pos ((beq_iff_place_eq hx hy).mpr heq), compare_eq_iff_eq.mpr heq]
  · rw [if_neg (mt (lt_iff_place_lt hx hy).mp (lt_asymm hgt)),
      if_neg (mt (beq_iff_place_eq hx hy).mp hgt.ne'), if_pos ((lt_iff_place_lt hy hx).mpr hgt),
      compare_gt_iff_gt.mpr hgt]

end

end LazyCalc.Binary64
