import LazyCalc.Proofs.Calendar.Shifts
import LazyCalc.Proofs.Listing.Bounded
/-!
Between dates a bounded progression gives the days that are multiples of the step away from the
start, up to the last that does not pass the end. The day after the last is computed as well, and
where the calendar does not reach that far the progression ends with a failure.
-/

namespace LazyCalc

namespace Bounded

def pace (start stop : Date) (step : Int) : Int :=
  if stop.dayNumber < start.dayNumber ∧ 0 < step then -step else step

/-- A day, by its number, is not past the end in the direction of the step. -/
def DayReached (stop : Date) (s n : Int) : Prop :=
  (0 < s → n ≤ stop.dayNumber) ∧ (s < 0 → stop.dayNumber ≤ n)

variable {start stop : Date} {step s : Int}

theorem pace_cast (start stop : Date) (step : Int) :
    (pace start stop step : ℚ) = stride start.dayNumber stop.dayNumber step := by
  rw [pace, stride, apply_ite (Int.cast : Int → ℚ), Int.cast_neg]
  norm_cast

theorem dayReached_iff {n : Int} : DayReached stop s n ↔ Reached stop.dayNumber s n := by
  rw [DayReached, Reached]
  norm_cast

theorem lt_count_iff_dayReached (start stop : Date) (hs : s ≠ 0) (k : Nat) :
    k < count start.dayNumber stop.dayNumber s ↔ DayReached stop s (start.dayNumber + k * s) := by
  rw [lt_count_iff (Int.cast_ne_zero.mpr hs), dayReached_iff]
  push_cast
  rfl

theorem pace_ne_zero (start stop : Date) (h : step ≠ 0) : pace start stop step ≠ 0 := by
  unfold pace
  split
  · exact neg_ne_zero.mpr h
  · exact h

theorem inCalendar_of_dayReached (hs : s ≠ 0) (h : DayReached stop s (start.dayNumber + s)) :
    Date.InCalendar (start.dayNumber + s) := by
  have hstart := start.inCalendar_dayNumber
  have hstop := stop.inCalendar_dayNumber
  rcases lt_or_gt_of_ne hs with hneg | hpos
  · exact ⟨hstop.1.trans (h.2 hneg), (add_le_of_nonpos_right hneg.le).trans hstart.2⟩
  · exact ⟨hstart.1.trans (le_add_of_nonneg_right hpos.le), (h.1 hpos).trans hstop.2⟩

theorem order_dates (d e : Date) :
    Scalar.order (.date d) (.date e) = .ok (compare d.dayNumber e.dayNumber) := rfl

theorem towards_days (hstep : step ≠ 0) :
    towards (.date start) (.date stop) (.integer step) = .ok (.integer (pace start stop step)) := by
  rw [towards, order_dates, pace]
  rcases lt_trichotomy start.dayNumber stop.dayNumber with hlt | heq | hgt
  · rw [compare_lt_iff_lt.mpr hlt, if_neg fun h => lt_asymm hlt h.1]
    rfl
  · rw [compare_eq_iff_eq.mpr heq, if_neg fun h => h.1.ne heq.symm]
    rfl
  · rw [compare_gt_iff_gt.mpr hgt]
    rcases lt_or_gt_of_ne hstep with hneg | hpos
    · rw [if_neg fun h => lt_asymm hneg h.2]
      exact if_pos (decide_eq_true hneg)
    · rw [if_pos ⟨hgt, hpos⟩]
      exact if_neg fun h => lt_asymm hpos (of_decide_eq_true h)

def ofDays (start stop : Date) (s : Int) : Bounded :=
  ⟨some (.ok (.date start)), .date stop, .integer s, !decide (s < 0)⟩

theorem of_days (start stop : Date) (hstep : step ≠ 0) :
    Bounded.of (.date start) (.date stop) (.integer step) =
      .ok (ofDays start stop (pace start stop step)) := by
  have hzero : Scalar.isZero (.integer step) = false := beq_false_of_ne hstep
  rw [Bounded.of, hzero, towards_days hstep]
  rfl

section

variable (pending : Pending) (step : Scalar) (d : Date) (hs : s ≠ 0)

include hs

theorem passed_of_dayReached (h : DayReached stop s d.dayNumber) :
    passed ⟨pending, .date stop, step, !decide (s < 0)⟩ (.date d) = .ok false := by
  have horder := order_dates d stop
  rw [Scalar.compare_intCast] at horder
  have hpassed := passed_of_reached pending step horder (Int.cast_ne_zero.mpr hs)
    (dayReached_iff.mp h)
  rwa [decide_eq_decide.mpr Int.cast_lt_zero] at hpassed

theorem passed_of_not_dayReached (h : ¬ DayReached stop s d.dayNumber) :
    passed ⟨pending, .date stop, step, !decide (s < 0)⟩ (.date d) = .ok true := by
  have horder := order_dates d stop
  rw [Scalar.compare_intCast] at horder
  have hpassed := passed_of_not_reached pending step horder (Int.cast_ne_zero.mpr hs)
    (mt dayReached_iff.mpr h)
  rwa [decide_eq_decide.mpr Int.cast_lt_zero] at hpassed

end

theorem next_of_dayReached (hs : s ≠ 0) (h : DayReached stop s start.dayNumber) :
    (ofDays start stop s).next = (some (.ok (.date start)),
      { ofDays start stop s with pending := some (Scalar.shiftDate start s) }) := by
  rw [ofDays, next]
  dsimp only
  rw [passed_of_dayReached _ _ start hs h]
  rfl

theorem next_of_not_dayReached (hs : s ≠ 0) (h : ¬ DayReached stop s start.dayNumber) :
    (ofDays start stop s).next = (none, { ofDays start stop s with pending := none }) := by
  rw [ofDays, next]
  dsimp only
  rw [passed_of_not_dayReached _ _ start hs h]

theorem length_of_dayNumbers {days : List Date} {n : Nat} {f : Nat → Int}
    (h : days.map Date.dayNumber = (List.range n).map f) : days.length = n := by
  simpa only [List.length_map, List.length_range] using congrArg List.length h

theorem given_of_dayReached (hs : s ≠ 0) (h : DayReached stop s start.dayNumber) {e : Date}
    (he : start.shift? s = some e) {items : List PlainItem}
    (hrest : (Generator.bounded (ofDays e stop s)).Gives items) :
    (Generator.bounded (ofDays start stop s)).Gives (.ok (.scalar (.date start)) :: items) := by
  have hnext := next_of_dayReached hs h
  rw [Scalar.shiftDate_of_some he] at hnext
  exact .given (by rw [Generator.next, hnext]; rfl) hrest

theorem gives_beyond_calendar (hs : s ≠ 0) (h : DayReached stop s start.dayNumber)
    (hout : start.shift? s = none) :
    (Generator.bounded (ofDays start stop s)).Gives [.ok (.scalar (.date start)),
      .error (.domain s!"date {start.text} + {s} days is out of range")] := by
  have hnext := next_of_dayReached hs h
  rw [Scalar.shiftDate_of_none hout] at hnext
  let beyond : Bounded := { ofDays start stop s with
    pending := some (.error (.domain s!"date {start.text} + {s} days is out of range")) }
  have hgiven : (Generator.bounded (ofDays start stop s)).next =
      (some (.ok (.scalar (.date start))), .bounded beyond) := by
    rw [Generator.next, hnext]
    rfl
  have hfailed : (Generator.bounded beyond).next =
      (some (.error (.domain s!"date {start.text} + {s} days is out of range")),
        .bounded { beyond with pending := none }) := rfl
  exact .given hgiven (.failed hfailed)

theorem gives_of_not_dayReached (hs : s ≠ 0) (h : ¬ DayReached stop s start.dayNumber) :
    (Generator.bounded (ofDays start stop s)).Gives [] := by
  have hended : (Generator.bounded (ofDays start stop s)).next =
      (none, .bounded { ofDays start stop s with pending := none }) := by
    rw [Generator.next, next_of_not_dayReached hs h]
    rfl
  exact .ended hended

theorem gives_of_dayReached {n : Nat} (hs : s ≠ 0)
    (h : ∀ k : Nat, k < n ↔ DayReached stop s (start.dayNumber + k * s)) :
    ∃ days : List Date,
      days.map Date.dayNumber = (List.range n).map (fun k : Nat => start.dayNumber + k * s) ∧
      (Date.InCalendar (start.dayNumber + n * s) →
        (Generator.bounded (ofDays start stop s)).Gives
          (days.map fun d => .ok (.scalar (.date d)))) ∧
      (¬ Date.InCalendar (start.dayNumber + n * s) → ∃ last, days.getLast? = some last ∧
        (Generator.bounded (ofDays start stop s)).Gives
          ((days.map fun d => .ok (.scalar (.date d))) ++
            [.error (.domain s!"date {last.text} + {s} days is out of range")])) := by
  have h0 : 0 < n ↔ DayReached stop s start.dayNumber := by
    rw [h 0, Nat.cast_zero, zero_mul, add_zero]
  induction n generalizing start with
  | zero =>
    have hgives := gives_of_not_dayReached hs (mt h0.mpr (Nat.lt_irrefl 0))
    refine ⟨[], rfl, fun _ => hgives, fun hout => absurd ?_ hout⟩
    rw [Nat.cast_zero, zero_mul, add_zero]
    exact start.inCalendar_dayNumber
  | succ n ih =>
    have hsum (k : Nat) : start.dayNumber + (k + 1 : Nat) * s = start.dayNumber + s + k * s := by
      rw [Nat.cast_succ, add_mul, one_mul, add_comm (_ * s), add_assoc]
    have hfirst := h0.mp n.succ_pos
    rw [map_range_succ, Nat.cast_zero, zero_mul, add_zero]
    simp only [hsum]
    cases hshift : start.shift? s with
    | some e =>
      rw [← Date.shift?_eq_some_iff.mp hshift]
      have hrest (k : Nat) : k < n ↔ DayReached stop s (e.dayNumber + k * s) := by
        rw [Date.shift?_eq_some_iff.mp hshift, ← hsum, ← h (k + 1), Nat.add_lt_add_iff_right]
      obtain ⟨days, hdays, hin, hout⟩ :=
        ih hrest (by rw [hrest 0, Nat.cast_zero, zero_mul, add_zero])
      refine ⟨start :: days, by rw [List.map_cons, hdays],
        fun hcalendar => given_of_dayReached hs hfirst hshift (hin hcalendar),
        fun hcalendar => ?_⟩
      obtain ⟨last, hlast, hgives⟩ := hout hcalendar
      refine ⟨last, ?_, given_of_dayReached hs hfirst hshift hgives⟩
      rw [List.getLast?_cons, hlast, Option.getD_some]
    | none =>
      have hcalendar := Date.shift?_eq_none_iff.mp hshift
      -- a second day that is reached would be in the calendar
      obtain rfl : n = 0 := by
        by_contra hn
        have hreached := (h 1).mp (Nat.succ_lt_succ (Nat.pos_of_ne_zero hn))
        rw [Nat.cast_one, one_mul] at hreached
        exact hcalendar (inCalendar_of_dayReached hs hreached)
      rw [Nat.cast_zero, zero_mul, add_zero]
      exact ⟨[start], rfl, fun hin => absurd hin hcalendar,
        fun _ => ⟨start, rfl, gives_beyond_calendar hs hfirst hshift⟩⟩

end Bounded

/-- Between dates a bounded progression gives the days that are reached, in their order, and then
ends if the calendar has the day after the last of them. If not, it fails at that day. -/
theorem Draft.bounded_gives_days (start stop : Date) {step : Int} (hstep : step ≠ 0) :
    ∃ (draft : Draft) (days : List Date),
      Draft.bounded (.date start) (.date stop) (.integer step) = .ok draft ∧
      (∀ k : Nat, k < days.length ↔ Bounded.DayReached stop (Bounded.pace start stop step)
        (start.dayNumber + k * Bounded.pace start stop step)) ∧
      days.map Date.dayNumber = (List.range days.length).map
        (fun k : Nat => start.dayNumber + k * Bounded.pace start stop step) ∧
      (Date.InCalendar (start.dayNumber + days.length * Bounded.pace start stop step) →
        draft.Gives (days.map fun d => .ok (.scalar (.date d)))) ∧
      (¬ Date.InCalendar (start.dayNumber + days.length * Bounded.pace start stop step) →
        ∃ last, days.getLast? = some last ∧
          draft.Gives ((days.map fun d => .ok (.scalar (.date d))) ++ [.error (.domain
            s!"date {last.text} + {Bounded.pace start stop step} days is out of range")])) := by
  have hs := Bounded.pace_ne_zero start stop hstep
  have hcount := Bounded.lt_count_iff_dayReached start stop hs
  obtain ⟨days, hdays, hin, hout⟩ := Bounded.gives_of_dayReached hs hcount
  have hlength := Bounded.length_of_dayNumbers hdays
  rw [← hlength] at hcount hdays hin hout
  refine ⟨_, days, Draft.bounded_of (Bounded.of_days start stop hstep), hcount, hdays,
    fun h => Draft.gives_of_generator (hin h), fun h => ?_⟩
  obtain ⟨last, hlast, hgives⟩ := hout h
  exact ⟨last, hlast, Draft.gives_of_generator hgives⟩

theorem Draft.bounded_counts_over_leap_day :
    (1 : Int) ≠ 0 ∧ ∃ (days : List Date) (start stop : Date) (draft : Draft),
      days.map (fun d => (d.year, d.month, d.day)) =
        [(2024, 3, 1), (2024, 2, 29), (2024, 2, 28), (2024, 2, 27)] ∧
      days.head? = some start ∧ days.getLast? = some stop ∧
      Draft.bounded (.date start) (.date stop) (.integer 1) = .ok draft ∧
      draft.Gives (days.map fun d => .ok (.scalar (.date d))) := by
  let start : Date := ⟨2024, 3, 1, by decide, by decide, by decide⟩
  let stop : Date := ⟨2024, 2, 27, by decide, by decide, by decide⟩
  have hpace : Bounded.pace start stop 1 = -1 := by decide
  obtain ⟨draft, days, hdraft, hlength, hdays, hin, -⟩ :=
    Draft.bounded_gives_days start stop one_ne_zero
  rw [hpace] at hlength hdays hin
  have hcount : days.length = 4 := by
    have hstart : start.dayNumber = stop.dayNumber + 3 := by decide
    have h3 := (hlength 3).mpr (by rw [Bounded.DayReached, hstart]; omega)
    have h4 := mt (hlength 4).mp (by rw [Bounded.DayReached, hstart]; omega)
    omega
  rw [hcount] at hdays hin
  obtain rfl : days = [start, ⟨2024, 2, 29, by decide, by decide, by decide⟩,
      ⟨2024, 2, 28, by decide, by decide, by decide⟩, stop] :=
    List.map_injective_iff.mpr Date.dayNumber_injective (hdays.trans (by decide))
  exact ⟨one_ne_zero, _, start, stop, draft, rfl, rfl, rfl, hdraft, hin (by decide)⟩

/-- After the last two days of the calendar comes a failure. -/
theorem Draft.bounded_overruns_calendar :
    ∃ (start stop : Date) (draft : Draft), Date.ofCivil? 262142 12 30 = some start ∧
      Date.ofCivil? 262142 12 31 = some stop ∧
      Draft.bounded (.date start) (.date stop) (.integer 1) = .ok draft ∧
      draft.Gives [.ok (.scalar (.date start)), .ok (.scalar (.date stop)),
        .error (.domain "date +262142-12-31 + 1 days is out of range")] ∧
      ¬ draft.Gives [.ok (.scalar (.date start)), .ok (.scalar (.date stop))] := by
  let start : Date := ⟨262142, 12, 30, by decide, by decide, by decide⟩
  let stop : Date := ⟨262142, 12, 31, by decide, by decide, by decide⟩
  have hstep : Draft.bounded (.date start) (.date stop) (.integer 1) =
      .ok ⟨(Bounded.ofDays start stop 1).hint, .bounded (Bounded.ofDays start stop 1)⟩ := by
    have hpace : Bounded.pace start stop 1 = 1 := by decide
    rw [Draft.bounded_of (Bounded.of_days _ _ one_ne_zero), hpace]
  have hn (k : Nat) : k < 2 ↔ Bounded.DayReached stop 1 (start.dayNumber + k * 1) := by
    have hstart : start.dayNumber = stop.dayNumber - 1 := by decide
    rw [Bounded.DayReached, hstart]
    omega
  obtain ⟨days, hdays, -, hout⟩ := Bounded.gives_of_dayReached one_ne_zero hn
  obtain rfl : days = [start, stop] := List.map_injective_iff.mpr Date.dayNumber_injective
    (hdays.trans (by decide))
  obtain ⟨last, hlast, hgives⟩ := hout (by decide)
  obtain rfl : stop = last := Option.some.inj hlast
  have htext : s!"date {stop.text} + {(1 : Int)} days is out of range" =
      "date +262142-12-31 + 1 days is out of range" := by decide +kernel
  rw [htext] at hgives
  refine ⟨start, stop, _, rfl, rfl, hstep, Draft.gives_of_generator hgives, fun hends => ?_⟩
  have hthird := Sequence.Gives.getElem?_eq (Draft.gives_of_generator hgives) hends 2
  cases hthird

end LazyCalc
