import LazyCalc.Proofs.Calendar.DayNumbers
import LazyCalc.Scalar.Order
import Mathlib.Order.Compare
/-!
Dates and days: which day comes after which is read off their years, months and days, and the day a
number of days away is found by going from day to day. An integer added to a date makes that day
where the calendar has it, the difference of two dates is the number of days between them, and so
shifts add up and are taken back by a difference.
-/

namespace LazyCalc

namespace Date

/-- One day is the next after another: a day later in its month, the first day of the next month
after the last of a month, or the first day of a year after the last of the year before. -/
inductive Follows (d e : Date) : Prop
  | sameMonth (hyear : e.year = d.year) (hmonth : e.month = d.month) (hday : e.day = d.day + 1)
  | newMonth (hlast : d.day = daysInMonth (isLeap d.year) d.month)
      (hyear : e.year = d.year) (hmonth : e.month = d.month + 1) (hday : e.day = 1)
  | newYear (hlast : d.month = 12 ∧ d.day = 31)
      (hyear : e.year = d.year + 1) (hmonth : e.month = 1) (hday : e.day = 1)

/-- A day is reached from another by going on from day to day, so many times. -/
inductive After : Nat → Date → Date → Prop
  | here (d : Date) : After 0 d d
  | next {n : Nat} {d e f : Date} (h : After n d e) (hnext : Follows e f) : After (n + 1) d f

/-- A day is so many days away from another, later or, for a negative number, earlier. -/
def Away (d : Date) (n : Int) (e : Date) : Prop :=
  if 0 ≤ n then After n.toNat d e else After (-n).toNat e d

variable {d e f : Date} {n : Int}

theorem daysBeforeMonth_succ (d : Date) :
    daysBeforeMonth (isLeap d.year) (d.month + 1) =
      daysBeforeMonth (isLeap d.year) d.month + daysInMonth (isLeap d.year) d.month := by
  obtain ⟨hlt, hget⟩ := List.getElem?_eq_some_iff.mp d.getElem?_monthLengths
  rw [daysBeforeMonth_eq, daysBeforeMonth_eq, Nat.add_sub_cancel,
    ← Nat.sub_add_cancel d.month_mem.1, Nat.add_sub_cancel, List.take_succ_eq_append_getElem hlt,
    List.sum_append, List.sum_singleton, hget, Nat.sub_add_cancel d.month_mem.1]

theorem daysBeforeMonth_first (leap : Bool) : daysBeforeMonth leap 1 = 0 := by
  cases leap <;> rfl

theorem yearLength_eq (year : Int) :
    yearLength year = daysBeforeMonth (isLeap year) 12 + 31 := by
  rw [yearLength]
  cases isLeap year <;> rfl

theorem Follows.dayNumber_eq (h : Follows d e) : e.dayNumber = d.dayNumber + 1 := by
  have hday := d.day_mem.1
  cases h with
  | sameMonth hyear hmonth heday =>
    rw [dayNumber, dayNumber, hyear, hmonth, heday]
    omega
  | newMonth hlast hyear hmonth heday =>
    rw [dayNumber, dayNumber, hyear, hmonth, heday, daysBeforeMonth_succ, ← hlast]
    omega
  | newYear hlast hyear hmonth heday =>
    rw [dayNumber, dayNumber, hyear, hmonth, heday, daysBeforeMonth_first, daysBeforeYear_succ,
      yearLength_eq, hlast.1, hlast.2]
    omega

theorem daysInMonth_pos (leap : Bool) {month : Nat} (h : 1 ≤ month ∧ month ≤ 12) :
    1 ≤ daysInMonth leap month := by
  have hall : ∀ m < 12, 1 ≤ daysInMonth leap (m + 1) := by
    cases leap <;> decide
  simpa [Nat.sub_add_cancel h.1] using hall (month - 1) (by omega)

theorem daysInMonth_december (leap : Bool) : daysInMonth leap 12 = 31 := by
  cases leap <;> rfl

theorem exists_follows (d : Date) (h : d.dayNumber ≠ lastDay) : ∃ e, Follows d e := by
  obtain ⟨hday, hle⟩ := d.day_mem
  rcases hle.lt_or_eq with hlt | hlast
  · exact ⟨⟨d.year, d.month, d.day + 1, d.year_mem, d.month_mem, by omega, hlt⟩,
      .sameMonth rfl rfl rfl⟩
  rcases d.month_mem.2.lt_or_eq with hmonth | hdecember
  · exact ⟨⟨d.year, d.month + 1, 1, d.year_mem, ⟨by omega, hmonth⟩, le_rfl,
      daysInMonth_pos _ ⟨by omega, hmonth⟩⟩, .newMonth hlast rfl rfl rfl⟩
  rw [hdecember, daysInMonth_december] at hlast
  have hyear : d.year ≠ lastYear := by
    intro hyear
    apply h
    rw [dayNumber, lastDay, hdecember, hlast, ← hyear, daysBeforeYear_succ, yearLength_eq]
    omega
  have hyears := d.year_mem
  exact ⟨⟨d.year + 1, 1, 1, ⟨by omega, by omega⟩, by decide, le_rfl, daysInMonth_pos _ (by decide)⟩,
    .newYear ⟨hdecember, hlast⟩ rfl rfl rfl⟩

theorem follows_iff : Follows d e ↔ e.dayNumber = d.dayNumber + 1 := by
  refine ⟨Follows.dayNumber_eq, fun h => ?_⟩
  have hlast : d.dayNumber ≠ lastDay := by
    have := e.inCalendar_dayNumber.2
    omega
  obtain ⟨f, hf⟩ := d.exists_follows hlast
  rwa [dayNumber_injective (h.trans hf.dayNumber_eq.symm)]

theorem after_iff {k : Nat} : After k d e ↔ e.dayNumber = d.dayNumber + k := by
  constructor
  · intro h
    induction h with
    | here => exact (Int.add_zero _).symm
    | next _ hnext ih =>
      rw [hnext.dayNumber_eq, ih]
      omega
  · intro h
    induction k generalizing e with
    | zero =>
      obtain rfl := dayNumber_injective (h.trans (Int.add_zero _))
      exact .here e
    | succ k ih =>
      -- the day before is in the calendar, since it is not before the first of the two
      have hin : InCalendar (d.dayNumber + k) :=
        ⟨d.inCalendar_dayNumber.1.trans (by omega), le_trans (by omega) e.inCalendar_dayNumber.2⟩
      obtain ⟨f, hf⟩ := exists_dayNumber hin
      exact .next (ih hf) (follows_iff.mpr (by omega))

theorem away_iff : d.Away n e ↔ e.dayNumber = d.dayNumber + n := by
  rw [Away]
  split <;> rw [after_iff] <;> omega

theorem shift?_eq_some_iff_away : d.shift? n = some e ↔ d.Away n e := by
  rw [away_iff, shift?_eq_some_iff]

theorem exists_away_iff : (∃ e, d.Away n e) ↔ InCalendar (d.dayNumber + n) := by
  constructor
  · rintro ⟨e, he⟩
    exact away_iff.mp he ▸ e.inCalendar_dayNumber
  · intro h
    obtain ⟨e, he⟩ := exists_dayNumber h
    exact ⟨e, away_iff.mpr he⟩

theorem Away.natAbs_lt (h : d.Away n e) : n.natAbs < 2 ^ 28 := by
  have hd := d.inCalendar_dayNumber
  have he := e.inCalendar_dayNumber
  rw [away_iff] at h
  rw [InCalendar, firstDay, lastDay, daysBeforeYear, daysBeforeYear, firstYear, lastYear] at hd he
  omega

theorem shiftByWords?_eq (d : Date) (n : Int) : d.shiftByWords? n = d.shift? n := by
  rcases hshift : d.shift? n with - | e
  · rw [shiftByWords?, hshift, ite_self, ite_self, ite_self]
  · have hlt := (shift?_eq_some_iff_away.mp hshift).natAbs_lt
    rw [shiftByWords?, if_pos (by omega), if_pos (by rw [dayMillis]; omega), if_pos (by omega),
      hshift]

end Date

namespace Scalar

variable {d e : Date} {n : Int}

theorem shiftDate_of_some (h : d.shift? n = some e) : shiftDate d n = .ok (.date e) := by
  unfold shiftDate
  rw [Date.shiftByWords?_eq, h]

theorem shiftDate_of_none (h : d.shift? n = none) :
    shiftDate d n = .error (.domain s!"date {d.text} + {n} days is out of range") := by
  unfold shiftDate
  rw [Date.shiftByWords?_eq, h]

theorem shiftDate_of_away (h : d.Away n e) : shiftDate d n = .ok (.date e) :=
  shiftDate_of_some (Date.shift?_eq_some_iff_away.mpr h)

theorem shiftDate_of_not_away (h : ¬ ∃ e, d.Away n e) :
    shiftDate d n = .error (.domain s!"date {d.text} + {n} days is out of range") := by
  rw [Date.exists_away_iff, ← Date.shift?_eq_none_iff] at h
  exact shiftDate_of_none h

theorem shiftDate_eq_ok_iff {s : Scalar} :
    shiftDate d n = .ok s ↔ ∃ e, s = .date e ∧ d.Away n e := by
  constructor
  · intro h
    by_cases haway : ∃ e, d.Away n e
    · obtain ⟨e, he⟩ := haway
      rw [shiftDate_of_away he] at h
      exact ⟨e, (Except.ok.inj h).symm, he⟩
    · rw [shiftDate_of_not_away haway] at h
      cases h
  · rintro ⟨e, rfl, he⟩
    exact shiftDate_of_away he

theorem compare_add_left (i n : Int) : compare (i + n) i = compare n 0 := by
  rcases lt_trichotomy n 0 with hlt | rfl | hgt
  · rw [compare_lt_iff_lt.mpr hlt, compare_lt_iff_lt.mpr (by omega)]
  · rw [add_zero, compare_eq_iff_eq.mpr rfl, compare_eq_iff_eq.mpr rfl]
  · rw [compare_gt_iff_gt.mpr hgt, compare_gt_iff_gt.mpr (by omega)]

/-- Dates count days: an integer and a date, in either order, make the day so many days away, and a
failure where the calendar has no such day; a date less an integer is the date plus its negative.
The day made is apart from the first by the integer that made it, it comes after or before it by the
sign, and another integer added to it goes as far as the sum of both, if the calendar does. The days
between two dates lead from one to the other. -/
theorem dates_count_days (d e : Date) (n : Int) :
    add (.integer n) (.date d) = add (.date d) (.integer n) ∧
    (∀ s, add (.date d) (.integer n) = .ok s ↔ ∃ f, s = .date f ∧ d.Away n f) ∧
    ((¬ ∃ f, d.Away n f) → ∃ message, add (.date d) (.integer n) = .error (.domain message)) ∧
    subtract (.date d) (.integer n) = add (.date d) (.integer (-n)) ∧
    (∀ s, add (.date d) (.integer n) = .ok s →
      subtract s (.date d) = .ok (.integer n) ∧
      order s (.date d) = .ok (compare n 0) ∧
      ∀ m r, add s (.integer m) = .ok r ↔ add (.date d) (.integer (n + m)) = .ok r) ∧
    ∃ k, subtract (.date e) (.date d) = .ok (.integer k) ∧
      add (.date d) (.integer k) = .ok (.date e) := by
  refine ⟨rfl, fun s => shiftDate_eq_ok_iff, fun h => ⟨_, shiftDate_of_not_away h⟩, rfl, ?_, ?_⟩
  · intro s hs
    obtain ⟨f, rfl, hf⟩ := shiftDate_eq_ok_iff.mp hs
    rw [Date.away_iff] at hf
    have hsince : f.daysSince d = n := by
      rw [Date.daysSince, hf, add_sub_cancel_left]
    refine ⟨congrArg (Except.ok ∘ Scalar.integer) hsince, ?_, fun m r => ?_⟩
    · change Except.ok (compare f.dayNumber d.dayNumber) = _
      rw [hf, compare_add_left]
    · change shiftDate f m = .ok r ↔ shiftDate d (n + m) = .ok r
      rw [shiftDate_eq_ok_iff, shiftDate_eq_ok_iff]
      simp only [Date.away_iff, hf, add_assoc]
  · refine ⟨e.daysSince d, rfl, shiftDate_eq_ok_iff.mpr ⟨e, rfl, Date.away_iff.mpr ?_⟩⟩
    rw [Date.daysSince, add_sub_cancel]

end Scalar

end LazyCalc
