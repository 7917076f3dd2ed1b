import LazyCalc.Proofs.Listing.Days
/-!
How the estimate of a bounded progression compares with what the progression gives: between exact
numbers it is never too low, and between integers, or between dates, it is the length.
-/

namespace LazyCalc

namespace Bounded

variable {start stop step span : Scalar} {p q d x s : ℚ}

def estimation (x s : ℚ) : Hint :=
  if x / s < 0 then .estimated 0
  else if ⌈(|x| + 1) / |s|⌉₊ < Scalar.wordLimit then .estimated ⌈(|x| + 1) / |s|⌉₊
  else .unknown

theorem leadsAway_exact (hspan : span.Exact x) (hstep : step.Exact s) (hs : s ≠ 0) :
    leadsAway span step = decide (x / s < 0) := by
  rw [leadsAway, Scalar.isZero_exact hspan, Scalar.isNegative_exact hspan,
    Scalar.isNegative_exact hstep]
  change (!decide (x = 0) && (decide (x < 0) != decide (s < 0))) = _
  rw [Bool.eq_iff_iff, decide_eq_true_iff, div_neg_iff]
  simp only [Bool.and_eq_true, Bool.not_eq_true', decide_eq_false_iff_not, bne_iff_ne, ne_eq,
    decide_eq_decide]
  grind

theorem estimate_exact (hspan : stop.subtract start = .ok span) (hx : span.Exact x)
    (hstep : step.Exact s) (hs : s ≠ 0) : estimate start stop step = estimation x s := by
  rw [estimate, hspan, estimation]
  dsimp only
  rw [leadsAway_exact hx hstep hs]
  split
  · next h => rw [if_pos (of_decide_eq_true h)]
  · next h =>
    rw [if_neg fun hneg => h (decide_eq_true hneg)]
    obtain ⟨distance, hdistance, hex⟩ := Scalar.exists_magnitude hx
    have hone : (Scalar.integer 1).Exact 1 := rfl
    obtain ⟨sum, hsum, hex⟩ := Scalar.exists_add hex hone
    obtain ⟨size, hsize, hexSize⟩ := Scalar.exists_magnitude hstep
    obtain ⟨quotient, hquotient, hex⟩ := Scalar.exists_divide hex hexSize (abs_ne_zero.mpr hs)
    simp only [hdistance, hsum, hsize, hquotient, bind, Except.bind]
    rw [Scalar.ceiling?_exact hex (div_nonneg (by positivity) (abs_nonneg s))]
    rcases Nat.lt_or_ge ⌈(|x| + 1) / |s|⌉₊ Scalar.wordLimit with hlt | hge
    · rw [if_pos hlt, if_pos hlt]
    · rw [if_neg hge.not_gt, if_neg hge.not_gt]

theorem stride_away_iff : (q - p) / stride p q d < 0 ↔ p < q ∧ d < 0 := by
  rw [div_neg_iff, sub_pos, sub_neg, stride]
  split <;> grind

theorem abs_stride (p q d : ℚ) : |stride p q d| = |d| := by
  unfold stride
  split
  · exact abs_neg d
  · rfl

theorem count_of_neg (hs : s ≠ 0) (h : (q - p) / s < 0) : count p q s = 0 := by
  rw [count, if_neg]
  rw [zero_or_sign_iff hs]
  exact not_le.mpr h

theorem count_of_nonneg (hs : s ≠ 0) (h : 0 ≤ (q - p) / s) :
    count p q s = ⌊|q - p| / |s|⌋₊ + 1 := by
  rw [count, if_pos ((zero_or_sign_iff hs).mpr h), Int.floor_toNat, ← abs_div, abs_of_nonneg h]

theorem floor_lt_ceil_succ (x : ℚ) (hs : s ≠ 0) : ⌊|x| / |s|⌋₊ < ⌈(|x| + 1) / |s|⌉₊ := by
  have hpos : 0 < |s| := abs_pos.mpr hs
  rw [Nat.lt_ceil]
  calc (⌊|x| / |s|⌋₊ : ℚ) ≤ |x| / |s| := Nat.floor_le (by positivity)
    _ < (|x| + 1) / |s| := div_lt_div_of_pos_right (lt_add_one _) hpos

theorem ceil_succ_le_floor (i : Int) {k : Int} (hk : k ≠ 0) :
    ⌈(|(i : ℚ)| + 1) / |(k : ℚ)|⌉₊ ≤ ⌊|(i : ℚ)| / |(k : ℚ)|⌋₊ + 1 := by
  have hpos : 0 < |(k : ℚ)| := abs_pos.mpr (Int.cast_ne_zero.mpr hk)
  have hlt := Nat.lt_floor_add_one (|(i : ℚ)| / |(k : ℚ)|)
  rw [div_lt_iff₀ hpos] at hlt
  rw [Nat.ceil_le, div_le_iff₀ hpos]
  -- a product of integers that is above an integer is at least one above it
  exact_mod_cast Int.add_one_le_of_lt (by exact_mod_cast hlt)

theorem estimation_bounds (hd : d ≠ 0) {hint : Hint}
    (hhint : hint = estimation (q - p) (stride p q d)) :
    (∀ n, hint = .estimated n → count p q (stride p q d) ≤ n) ∧
      (hint = .unknown → Scalar.wordLimit ≤ ⌈(|q - p| + 1) / |d|⌉₊ ∧ ¬ (p < q ∧ d < 0)) ∧
      ∀ i j k : Int, p = i → q = j → d = k →
        ∀ n, hint = .estimated n → count p q (stride p q d) = n := by
  have hs := stride_ne_zero (p := p) (q := q) hd
  rw [estimation, abs_stride] at hhint
  split at hhint
  · next haway =>
    obtain rfl := hhint
    rw [count_of_neg hs haway]
    exact ⟨fun n _ => Nat.zero_le n, nofun, fun i j k _ _ _ n hn => by cases hn; rfl⟩
  · next haway =>
    rw [count_of_nonneg hs (not_lt.mp haway), abs_stride]
    have hle := floor_lt_ceil_succ (q - p) hd
    split at hhint
    · obtain rfl := hhint
      refine ⟨fun n hn => by cases hn; exact hle, nofun, ?_⟩
      rintro i j k rfl rfl rfl n hn
      cases hn
      have hge := ceil_succ_le_floor (j - i) (Int.cast_ne_zero.mp hd)
      rw [Int.cast_sub] at hge
      exact le_antisymm hle hge
    · next hge =>
      obtain rfl := hhint
      exact ⟨nofun, fun _ => ⟨not_lt.mp hge, mt stride_away_iff.mpr haway⟩, fun i j k _ _ _ n hn => nomatch hn⟩

/-- Two exact numbers and an exact step, or two dates and a step in days. -/
inductive Placed : (start stop step : Scalar) → (p q d : ℚ) → Prop
  | exact {start stop step : Scalar} {p q d : ℚ} (hstart : start.Exact p) (hstop : stop.Exact q)
    (hstep : step.Exact d) : Placed start stop step p q d
  | days (start stop : Date) (step : Int) :
    Placed (.date start) (.date stop) (.integer step) start.dayNumber stop.dayNumber step

theorem Placed.exists_gives (h : Placed start stop step p q d) (hd : d ≠ 0) :
    ∃ (draft : Draft) (elements : List Plain) (failure : Option Failure),
      Draft.bounded start stop step = .ok draft ∧
      draft.Gives (elements.map .ok ++ (failure.map .error).toList) ∧
      elements.length = count p q (stride p q d) ∧
      draft.hint = estimation (q - p) (stride p q d) := by
  have hs := stride_ne_zero (p := p) (q := q) hd
  cases h with
  | exact hstart hstop hstep =>
    obtain ⟨step', hstep', hof⟩ := exists_of hstart hstop hstep hd
    obtain ⟨span, hspan, hx⟩ := Scalar.exists_subtract hstop hstart
    have hgives := gives_of_reached hstart hstop hstep' hs (lt_count_iff (p := p) (q := q) hs)
    refine ⟨_, (List.range (count p q (stride p q d))).map fun k =>
      .scalar (element start p (stride p q d) k), none, Draft.bounded_of hof, ?_, ?_,
      estimate_exact hspan hx hstep' hs⟩
    · rw [Option.map_none, Option.toList_none, List.append_nil, List.map_map]
      exact Draft.gives_of_generator hgives
    · rw [List.length_map, List.length_range]
  | days start stop step =>
    rw [← pace_cast] at hs ⊢
    have hs := Int.cast_ne_zero.mp hs
    obtain ⟨days, hdays, hin, hout⟩ := gives_of_dayReached hs
      (lt_count_iff_dayReached start stop hs)
    have hlength := length_of_dayNumbers hdays
    have hof := Draft.bounded_of (of_days start stop (Int.cast_ne_zero.mp hd))
    have hspan : Scalar.Exact (.integer (stop.daysSince start))
        (stop.dayNumber - start.dayNumber) := congrArg some (Int.cast_sub _ _)
    have hpace : Scalar.Exact (.integer (pace start stop step)) (pace start stop step : Int) := rfl
    have hsubtract : (Scalar.date stop).subtract (.date start) =
        .ok (.integer (stop.daysSince start)) := rfl
    have hhint := estimate_exact hsubtract hspan hpace (Int.cast_ne_zero.mpr hs)
    by_cases hcalendar : Date.InCalendar (start.dayNumber +
        count start.dayNumber stop.dayNumber (pace start stop step : Int) * pace start stop step)
    · refine ⟨_, days.map fun d => .scalar (.date d), none, hof, ?_, ?_, hhint⟩
      · rw [Option.map_none, Option.toList_none, List.append_nil, List.map_map]
        exact Draft.gives_of_generator (hin hcalendar)
      · rw [List.length_map, hlength]
    · obtain ⟨last, -, hgives⟩ := hout hcalendar
      refine ⟨_, days.map fun d => .scalar (.date d), some (.domain
        s!"date {last.text} + {pace start stop step} days is out of range"), hof, ?_, ?_, hhint⟩
      · rw [List.map_map]
        exact Draft.gives_of_generator hgives
      · rw [List.length_map, hlength]

end Bounded

/-- The estimate of a bounded progression is at least the number of its elements. It is missing only
where no word holds it and the step does not lead away from the end. Between integers, and between
dates, it is the number of elements before the end or the failure. -/
theorem Draft.bounded_estimates {start stop step : Scalar} {p q d : ℚ}
    (h : Bounded.Placed start stop step p q d) (hd : d ≠ 0) :
    ∃ (draft : Draft) (elements : List Plain) (failure : Option Failure),
      Draft.bounded start stop step = .ok draft ∧
      draft.Gives (elements.map .ok ++ (failure.map .error).toList) ∧
      (∀ n, draft.hint = .estimated n → elements.length ≤ n) ∧
      (draft.hint = .unknown →
        Scalar.wordLimit ≤ ⌈(|q - p| + 1) / |d|⌉₊ ∧ ¬ (p < q ∧ d < 0)) ∧
      ∀ i j k : Int, p = i → q = j → d = k →
        ∀ n, draft.hint = .estimated n → elements.length = n := by
  obtain ⟨draft, elements, failure, hdraft, hgives, hlength, hhint⟩ := h.exists_gives hd
  refine ⟨draft, elements, failure, hdraft, hgives, ?_⟩
  rw [hlength]
  exact Bounded.estimation_bounds hd hhint

theorem Draft.bounded_estimates_above :
    Bounded.Placed (.rational (1 / 2)) (.integer (-3)) (.rational (3 / 4)) (1 / 2) (-3) (3 / 4) ∧
      (3 / 4 : ℚ) ≠ 0 ∧ ∃ (draft : Draft) (elements : List Plain) (failure : Option Failure),
        Draft.bounded (.rational (1 / 2)) (.integer (-3)) (.rational (3 / 4)) = .ok draft ∧
        draft.Gives (elements.map .ok ++ (failure.map .error).toList) ∧
        draft.hint = .estimated 6 ∧ elements.length ≤ 6 := by
  have hplaced : Bounded.Placed (.rational (1 / 2)) (.integer (-3)) (.rational (3 / 4))
      (1 / 2) (-3) (3 / 4) := .exact rfl rfl rfl
  have hd : (3 / 4 : ℚ) ≠ 0 := by norm_num
  obtain ⟨draft, elements, failure, hdraft, hgives, hmost, -⟩ := Draft.bounded_estimates hplaced hd
  have hhint : draft.hint = .estimated 6 := by
    obtain ⟨_, _, _, hdraft', -, -, hhint⟩ := hplaced.exists_gives hd
    rw [Except.ok.inj (hdraft.symm.trans hdraft'), hhint]
    decide +kernel
  exact ⟨hplaced, hd, draft, elements, failure, hdraft, hgives, hhint, hmost 6 hhint⟩

end LazyCalc
