import LazyCalc.Proofs.Listing.Giving
import LazyCalc.Proofs.Ordering.Exact
import Mathlib.Data.Rat.Floor
import Mathlib.Data.Sign.Basic
/-!
Between exact numbers a bounded progression gives the start and its sums with the multiples of the
step, up to the last that does not pass the end.
-/

namespace LazyCalc

namespace Bounded

def stride (p q d : ℚ) : ℚ := if q < p ∧ 0 < d then -d else d

/-- Not past the end in the direction of the step. -/
def Reached (q s x : ℚ) : Prop := (0 < s → x ≤ q) ∧ (s < 0 → q ≤ x)

def count (p q s : ℚ) : Nat :=
  if q - p = 0 ∨ SignType.sign (q - p) = SignType.sign s then ⌊(q - p) / s⌋.toNat + 1 else 0

/-- The start as it is, and then sums in their simplest form. -/
def element (start : Scalar) (p s : ℚ) (k : Nat) : Scalar :=
  if k = 0 then start else .ofRat (p + k * s)

variable {start stop step : Scalar} {p q d s : ℚ}

theorem exact_element (h : start.Exact p) (k : Nat) :
    (element start p s k).Exact (p + k * s) := by
  unfold element
  split
  · next hk => rwa [hk, Nat.cast_zero, zero_mul, add_zero]
  · exact Scalar.exact_ofRat _

theorem succ_mul_add (c s : ℚ) (k : Nat) : c + (k + 1 : Nat) * s = (c + s) + k * s := by
  rw [Nat.cast_succ, add_mul, one_mul, add_comm _ s, add_assoc]

theorem element_succ (start : Scalar) (c s : ℚ) (k : Nat) :
    element start c s (k + 1) = element (.ofRat (c + s)) (c + s) s k := by
  rw [element, if_neg k.succ_ne_zero, succ_mul_add, element]
  split
  · next hk => rw [hk, Nat.cast_zero, zero_mul, add_zero]
  · rfl

theorem stride_ne_zero (h : d ≠ 0) : stride p q d ≠ 0 := by
  unfold stride
  split
  · exact neg_ne_zero.mpr h
  · exact h

theorem exists_towards (hstart : start.Exact p) (hstop : stop.Exact q) (hstep : step.Exact d)
    (hd : d ≠ 0) :
    ∃ step', towards start stop step = .ok step' ∧ step'.Exact (stride p q d) := by
  rw [towards, Scalar.order_exact hstart hstop, stride]
  rcases lt_or_ge q p with hqp | hqp
  · rw [compare_gt_iff_gt.mpr hqp]
    change ∃ step', (step.isNegative >>= _) = _ ∧ _
    rw [Scalar.isNegative_exact hstep]
    rcases lt_or_gt_of_ne hd with hneg | hpos
    · rw [decide_eq_true hneg, if_neg fun h => lt_asymm hneg h.2]
      exact ⟨step, rfl, hstep⟩
    · rw [decide_eq_false (lt_asymm hpos), if_pos ⟨hqp, hpos⟩]
      exact Scalar.exists_negate hstep
  · rw [if_neg fun h => absurd h.1 (not_lt.mpr hqp)]
    refine ⟨step, ?_, hstep⟩
    rcases hqp.lt_or_eq with hlt | rfl
    · rw [compare_lt_iff_lt.mpr hlt]
      rfl
    · rw [compare_eq_iff_eq.mpr rfl]
      rfl

theorem exists_of (hstart : start.Exact p) (hstop : stop.Exact q) (hstep : step.Exact d)
    (hd : d ≠ 0) :
    ∃ step', step'.Exact (stride p q d) ∧ Bounded.of start stop step =
      .ok ⟨some (.ok start), stop, step', !decide (stride p q d < 0)⟩ := by
  obtain ⟨step', htowards, hstep'⟩ := exists_towards hstart hstop hstep hd
  refine ⟨step', hstep', ?_⟩
  rw [Bounded.of, Scalar.isZero_exact hstep, decide_eq_false hd, htowards]
  change (step'.isNegative >>= _) = _
  rw [Scalar.isNegative_exact hstep']
  rfl

theorem reached_iff (hs : s ≠ 0) (k : Nat) : Reached q s (p + k * s) ↔ (k : ℚ) ≤ (q - p) / s := by
  rcases lt_or_gt_of_ne hs with hneg | hpos
  · rw [le_div_iff_of_neg hneg, sub_le_iff_le_add']
    exact ⟨fun h => h.2 hneg, fun h => ⟨fun hpos => absurd hpos (lt_asymm hneg), fun _ => h⟩⟩
  · rw [le_div_iff₀ hpos, le_sub_iff_add_le']
    exact ⟨fun h => h.1 hpos, fun h => ⟨fun _ => h, fun hneg => absurd hneg (lt_asymm hpos)⟩⟩

theorem zero_or_sign_iff {x : ℚ} (hs : s ≠ 0) :
    x = 0 ∨ SignType.sign x = SignType.sign s ↔ 0 ≤ x / s := by
  rw [div_nonneg_iff]
  rcases lt_or_gt_of_ne hs with hneg | hpos
  · rw [sign_neg hneg, sign_eq_neg_one_iff, ← le_iff_eq_or_lt]
    exact ⟨fun h => .inr ⟨h, hneg.le⟩,
      fun h => h.elim (fun h => absurd h.2 (not_le.mpr hneg)) And.left⟩
  · rw [sign_pos hpos, sign_eq_one_iff, eq_comm, ← le_iff_eq_or_lt]
    exact ⟨fun h => .inl ⟨h, hpos.le⟩,
      fun h => h.elim And.left fun h => absurd h.2 (not_le.mpr hpos)⟩

theorem lt_count_iff (hs : s ≠ 0) (k : Nat) : k < count p q s ↔ Reached q s (p + k * s) := by
  rw [reached_iff hs, count]
  by_cases h : 0 ≤ (q - p) / s
  · rw [if_pos ((zero_or_sign_iff hs).mpr h), Nat.lt_succ_iff, Int.floor_toNat, Nat.le_floor_iff h]
  · rw [if_neg (mt (zero_or_sign_iff hs).mp h)]
    exact ⟨nofun, fun hk => absurd ((Nat.cast_nonneg k).trans hk) h⟩

section

variable (pending : Pending) (step : Scalar) {c : ℚ} {current : Scalar}
  (horder : current.order stop = .ok (compare c q)) (hs : s ≠ 0)

include horder hs

theorem passed_of_reached (h : Reached q s c) :
    passed ⟨pending, stop, step, !decide (s < 0)⟩ current = .ok false := by
  rw [passed, horder]
  rcases lt_trichotomy c q with hlt | rfl | hgt
  · rw [compare_lt_iff_lt.mpr hlt, decide_eq_false fun hneg => not_le.mpr hlt (h.2 hneg)]
    rfl
  · rw [compare_eq_iff_eq.mpr rfl]
    rfl
  · have hneg : s < 0 := lt_of_not_ge fun hge => not_le.mpr hgt (h.1 (lt_of_le_of_ne hge hs.symm))
    rw [compare_gt_iff_gt.mpr hgt, decide_eq_true hneg]
    rfl

theorem passed_of_not_reached (h : ¬ Reached q s c) :
    passed ⟨pending, stop, step, !decide (s < 0)⟩ current = .ok true := by
  rw [passed, horder]
  rcases lt_or_gt_of_ne hs with hneg | hpos
  · have hlt : c < q := lt_of_not_ge fun hge => h ⟨fun hpos => absurd hpos (lt_asymm hneg), fun _ => hge⟩
    rw [compare_lt_iff_lt.mpr hlt, decide_eq_true hneg]
    rfl
  · have hgt : q < c := lt_of_not_ge fun hge => h ⟨fun _ => hge, fun hneg => absurd hneg (lt_asymm hpos)⟩
    rw [compare_gt_iff_gt.mpr hgt, decide_eq_false (lt_asymm hpos)]
    rfl

end

theorem gives_of_reached {c : ℚ} {n : Nat} (hstart : start.Exact c) (hstop : stop.Exact q)
    (hstep : step.Exact s) (hs : s ≠ 0) (h : ∀ k, k < n ↔ Reached q s (c + k * s)) :
    (Generator.bounded ⟨some (.ok start), stop, step, !decide (s < 0)⟩).Gives
      ((List.range n).map fun k => .ok (.scalar (element start c s k))) := by
  have h0 : 0 < n ↔ Reached q s c := by rw [h 0, Nat.cast_zero, zero_mul, add_zero]
  -- on how many are reached, each time from a start that is one step further
  induction n generalizing start c with
  | zero =>
    have hpassed := passed_of_not_reached (some (.ok start)) step
      (Scalar.order_exact hstart hstop) hs (mt h0.mpr (Nat.lt_irrefl 0))
    refine .ended (?_ : _ = (none, .bounded ⟨none, stop, step, !decide (s < 0)⟩))
    rw [Generator.next, next]
    dsimp only
    rw [hpassed]
    rfl
  | succ n ih =>
    have hpassed := passed_of_reached (some (.ok start)) step (Scalar.order_exact hstart hstop) hs
      (h0.mp n.succ_pos)
    have hrest (k : Nat) : k < n ↔ Reached q s (c + s + k * s) := by
      rw [← succ_mul_add, ← h (k + 1), Nat.add_lt_add_iff_right]
    rw [map_range_succ]
    refine .given (?_ : _ = (_, .bounded ⟨some (.ok (.ofRat (c + s))), stop, step,
      !decide (s < 0)⟩)) ?_
    · rw [Generator.next, next, ← Scalar.add_exact hstart hstep]
      dsimp only
      rw [hpassed]
      rfl
    · simp only [element_succ]
      exact ih (Scalar.exact_ofRat (c + s)) hrest (by rw [hrest 0, Nat.cast_zero, zero_mul, add_zero])

end Bounded

theorem Draft.bounded_of {start stop step : Scalar} {b : Bounded}
    (h : Bounded.of start stop step = .ok b) :
    Draft.bounded start stop step = .ok ⟨b.hint, .bounded b⟩ := by
  rw [Draft.bounded, h]
  rfl

/-- Between exact numbers a step of zero is refused. With any other a bounded progression gives the
numbers that are reached, in their order and without a failure, and then ends. -/
theorem Draft.bounded_gives_multiples {start stop step : Scalar} {p q d : ℚ}
    (hstart : start.Exact p) (hstop : stop.Exact q) (hstep : step.Exact d) :
    (d = 0 → Draft.bounded start stop step = .error (.domain "range step cannot be zero")) ∧
      (d ≠ 0 → ∃ draft, Draft.bounded start stop step = .ok draft ∧
        draft.Gives ((List.range (Bounded.count p q (Bounded.stride p q d))).map fun k =>
          .ok (.scalar (Bounded.element start p (Bounded.stride p q d) k))) ∧
        ∀ k, (Bounded.element start p (Bounded.stride p q d) k).Exact
            (p + k * Bounded.stride p q d) ∧
          (k < Bounded.count p q (Bounded.stride p q d) ↔
            Bounded.Reached q (Bounded.stride p q d) (p + k * Bounded.stride p q d))) := by
  constructor
  · intro hd
    rw [Draft.bounded, Bounded.of, Scalar.isZero_exact hstep, decide_eq_true hd]
    rfl
  · intro hd
    have hs := Bounded.stride_ne_zero (p := p) (q := q) hd
    have hcount := Bounded.lt_count_iff (p := p) (q := q) hs
    obtain ⟨step', hstep', hof⟩ := Bounded.exists_of hstart hstop hstep hd
    have hgives := Bounded.gives_of_reached hstart hstop hstep' hs hcount
    exact ⟨_, Draft.bounded_of hof, Draft.gives_of_generator hgives,
      fun k => ⟨Bounded.exact_element hstart k, hcount k⟩⟩

theorem Draft.bounded_counts_down :
    Scalar.Exact (.rational (1 / 2)) (1 / 2) ∧ Scalar.Exact (.integer (-3)) (-3) ∧
      Scalar.Exact (.rational (3 / 4)) (3 / 4) ∧
      ∃ draft, Draft.bounded (.rational (1 / 2)) (.integer (-3)) (.rational (3 / 4)) = .ok draft ∧
        draft.Gives (List.map (fun r => .ok (.scalar r))
          [.rational (1 / 2), .rational (-1 / 4), .integer (-1), .rational (-7 / 4),
            .rational (-5 / 2)]) := by
  have hstart : Scalar.Exact (.rational (1 / 2)) (1 / 2) := rfl
  have hstop : Scalar.Exact (.integer (-3)) (-3) := rfl
  have hstep : Scalar.Exact (.rational (3 / 4)) (3 / 4) := rfl
  obtain ⟨draft, hdraft, hgives, -⟩ :=
    (Draft.bounded_gives_multiples hstart hstop hstep).2 (by norm_num)
  have hstride : Bounded.stride (1 / 2) (-3) (3 / 4) = -3 / 4 := by
    rw [Bounded.stride, if_pos (by norm_num)]
    norm_num
  have hcount : Bounded.count (1 / 2) (-3) (-3 / 4) = 5 := by
    decide +kernel
  have helements : (List.range 5).map (Bounded.element (.rational (1 / 2)) (1 / 2) (-3 / 4)) =
      [.rational (1 / 2), .rational (-1 / 4), .integer (-1), .rational (-7 / 4),
        .rational (-5 / 2)] := by
    with_unfolding_all rfl
  refine ⟨hstart, hstop, hstep, draft, hdraft, ?_⟩
  rw [hstride, hcount] at hgives
  rwa [← helements, List.map_map]

end LazyCalc
