import LazyCalc.Calendar
import Mathlib.Algebra.Order.Ring.Int
import Mathlib.Algebra.BigOperators.Group.List.Basic
/-!
The days of the calendar and their numbers: each day has one, the numbers of the calendar follow one
another without a gap, and a day that is shifted is the day with the shifted number, which is there
as long as the years last.
-/

namespace LazyCalc

theorem monthAndDay_of_getElem? {lengths : List Nat} {i l day : Nat} (h : lengths[i]? = some l)
    (hday : 1 ≤ day ∧ day ≤ l) (month : Nat) :
    Date.monthAndDay lengths month ((lengths.take i).sum + (day - 1)) = (month + i, day) := by
  induction lengths generalizing i month with
  | nil => cases h
  | cons l' ls ih =>
    cases i with
    | zero =>
      obtain rfl := Option.some.inj h
      rw [List.take_zero, List.sum_nil, Date.monthAndDay, if_pos (by omega), zero_add,
        Nat.sub_add_cancel hday.1, add_zero]
    | succ i =>
      rw [List.take_succ_cons, List.sum_cons, Date.monthAndDay, if_neg (by omega),
        show l' + (ls.take i).sum + (day - 1) - l' = (ls.take i).sum + (day - 1) by omega,
        ih h, Nat.add_right_comm, Nat.add_assoc]

theorem exists_monthAndDay {lengths : List Nat} {r : Nat} (h : r < lengths.sum) :
    ∃ i l day, lengths[i]? = some l ∧ 1 ≤ day ∧ day ≤ l ∧ r = (lengths.take i).sum + (day - 1) := by
  induction lengths generalizing r with
  | nil => exact absurd h (Nat.not_lt_zero r)
  | cons l ls ih =>
    rcases Nat.lt_or_ge r l with hlt | hge
    · exact ⟨0, l, r + 1, rfl, by omega, by omega, by simp⟩
    · rw [List.sum_cons] at h
      obtain ⟨i, l', day, hget, hpos, hle, hr⟩ := ih (r := r - l) (by omega)
      refine ⟨i + 1, l', day, hget, hpos, hle, ?_⟩
      rw [List.take_succ_cons, List.sum_cons]
      omega

namespace Date

theorem isLeap_iff (y : Int) : isLeap y = true ↔ y % 4 = 0 ∧ (y % 100 ≠ 0 ∨ y % 400 = 0) := by
  simp [isLeap]

def yearLength (year : Int) : Nat := if isLeap year then 366 else 365

theorem sum_monthLengths (year : Int) : (monthLengths (isLeap year)).sum = yearLength year := by
  rw [yearLength]
  cases isLeap year <;> rfl

theorem daysBeforeYear_succ (y : Int) :
    daysBeforeYear (y + 1) = daysBeforeYear y + yearLength y := by
  have hleap := isLeap_iff y
  rw [yearLength, daysBeforeYear, daysBeforeYear]
  split
  · next h =>
    have := hleap.mp h
    omega
  · next h =>
    have := mt hleap.mpr h
    omega

theorem daysBeforeYear_mono {y z : Int} (h : y ≤ z) : daysBeforeYear y ≤ daysBeforeYear z := by
  rw [daysBeforeYear, daysBeforeYear]
  omega

def InYear (n y : Int) : Prop := daysBeforeYear y ≤ n ∧ n < daysBeforeYear (y + 1)

theorem inYear_unique {n y z : Int} (hy : InYear n y) (hz : InYear n z) : y = z := by
  rcases lt_trichotomy y z with hlt | heq | hgt
  · exact absurd (hy.2.trans_le (daysBeforeYear_mono hlt)) (not_lt_of_ge hz.1)
  · exact heq
  · exact absurd (hz.2.trans_le (daysBeforeYear_mono hgt)) (not_lt_of_ge hy.1)

theorem inYear_yearOfDay (n : Int) : InYear n (yearOfDay n) := by
  -- the guess counts years of 146097 / 400 days
  have hguess : daysBeforeYear (400 * n / 146097) ≤ n ∧
      n < daysBeforeYear (400 * n / 146097 + 1 + 1 + 1) := by
    rw [daysBeforeYear, daysBeforeYear]
    omega
  rw [yearOfDay]
  split_ifs with hbefore hafter
  · rw [add_sub_cancel_right]
    exact ⟨hguess.1, hbefore⟩
  · exact ⟨hafter, hguess.2⟩
  · exact ⟨not_lt.mp hbefore, not_le.mp hafter⟩

theorem yearOfDay_eq {n y : Int} (h : InYear n y) : yearOfDay n = y :=
  inYear_unique (inYear_yearOfDay n) h

theorem daysBeforeMonth_eq (leap : Bool) (month : Nat) :
    daysBeforeMonth leap month = ((monthLengths leap).take (month - 1)).sum := by
  rw [daysBeforeMonth, List.sum_eq_foldl]

theorem getElem?_monthLengths (d : Date) :
    (monthLengths (isLeap d.year))[d.month - 1]? = some (daysInMonth (isLeap d.year) d.month) := by
  have hlt : d.month - 1 < (monthLengths (isLeap d.year)).length := by
    have := d.month_mem.2
    change d.month - 1 < 12
    omega
  rw [daysInMonth, List.getD_eq_getElem?_getD, List.getElem?_eq_getElem hlt, Option.getD_some]

theorem dayOfYear_lt (d : Date) :
    daysBeforeMonth (isLeap d.year) d.month + (d.day - 1) < yearLength d.year := by
  obtain ⟨hlt, hget⟩ := List.getElem?_eq_some_iff.mp d.getElem?_monthLengths
  have hday := d.day_mem
  have hsum := List.sum_take_add_sum_drop (monthLengths (isLeap d.year)) (d.month - 1)
  rw [List.drop_eq_getElem_cons hlt, List.sum_cons, hget, sum_monthLengths] at hsum
  rw [daysBeforeMonth_eq]
  omega

theorem inYear_dayNumber (d : Date) : InYear d.dayNumber d.year := by
  have hlt := d.dayOfYear_lt
  rw [InYear, daysBeforeYear_succ, dayNumber]
  omega

theorem ofCivil?_self (d : Date) : ofCivil? d.year d.month d.day = some d := by
  rw [ofCivil?, dif_pos d.year_mem, dif_pos d.month_mem, dif_pos d.day_mem]

theorem ofDayNumber?_dayNumber (d : Date) : ofDayNumber? d.dayNumber = some d := by
  have hmonth := d.month_mem
  have hday := monthAndDay_of_getElem? d.getElem?_monthLengths d.day_mem 1
  rw [ofDayNumber?, yearOfDay_eq d.inYear_dayNumber,
    show (d.dayNumber - daysBeforeYear d.year).toNat =
      ((monthLengths (isLeap d.year)).take (d.month - 1)).sum + (d.day - 1) by
      rw [dayNumber, daysBeforeMonth_eq]; omega]
  dsimp only
  rw [hday, Nat.add_sub_cancel' hmonth.1]
  exact d.ofCivil?_self

theorem dayNumber_injective : Function.Injective dayNumber := fun d e h =>
  Option.some.inj (d.ofDayNumber?_dayNumber.symm.trans (h ▸ e.ofDayNumber?_dayNumber))

def firstDay : Int := daysBeforeYear firstYear

def lastDay : Int := daysBeforeYear (lastYear + 1) - 1

def InCalendar (n : Int) : Prop := firstDay ≤ n ∧ n ≤ lastDay

instance (n : Int) : Decidable (InCalendar n) := inferInstanceAs (Decidable (_ ∧ _))

theorem inCalendar_dayNumber (d : Date) : InCalendar d.dayNumber := by
  have hyear := d.inYear_dayNumber
  have hfirst := daysBeforeYear_mono d.year_mem.1
  have hlast := daysBeforeYear_mono (add_le_add_left d.year_mem.2 1)
  exact ⟨hfirst.trans hyear.1, Int.le_sub_one_of_lt (hyear.2.trans_le hlast)⟩

theorem exists_dayNumber {n : Int} (h : InCalendar n) : ∃ d : Date, d.dayNumber = n := by
  have hyear := inYear_yearOfDay n
  have hfirst : firstYear ≤ yearOfDay n := by
    by_contra hlt
    exact absurd (hyear.2.trans_le (daysBeforeYear_mono (not_le.mp hlt))) (not_lt_of_ge h.1)
  have hlast : yearOfDay n ≤ lastYear := by
    by_contra hgt
    exact absurd ((daysBeforeYear_mono (not_le.mp hgt)).trans hyear.1)
      (not_le_of_gt (Int.lt_of_le_sub_one h.2))
  have hwithin : (n - daysBeforeYear (yearOfDay n)).toNat <
      (monthLengths (isLeap (yearOfDay n))).sum := by
    rw [sum_monthLengths]
    rw [InYear, daysBeforeYear_succ] at hyear
    omega
  obtain ⟨i, l, day, hget, hpos, hle, hr⟩ := exists_monthAndDay hwithin
  have hi : i < 12 := (List.getElem?_eq_some_iff.mp hget).1
  have hl : daysInMonth (isLeap (yearOfDay n)) (i + 1) = l := by
    rw [daysInMonth, List.getD_eq_getElem?_getD, Nat.add_sub_cancel, hget, Option.getD_some]
  refine ⟨⟨yearOfDay n, i + 1, day, ⟨hfirst, hlast⟩, by omega, ⟨hpos, hl ▸ hle⟩⟩, ?_⟩
  have hstart := hyear.1
  change daysBeforeYear (yearOfDay n) + daysBeforeMonth (isLeap (yearOfDay n)) (i + 1) +
    (day - 1 : Nat) = n
  rw [daysBeforeMonth_eq, Nat.add_sub_cancel]
  omega

theorem ofCivil?_some {y : Int} {m day : Nat} {d : Date} (h : ofCivil? y m day = some d) :
    d.year = y := by
  rw [ofCivil?] at h
  split at h
  · split at h
    · split at h
      · cases h; rfl
      · cases h
    · cases h
  · cases h

theorem ofDayNumber?_eq_some_iff {n : Int} {d : Date} :
    ofDayNumber? n = some d ↔ d.dayNumber = n := by
  constructor
  · intro h
    have hyear : d.year = yearOfDay n := by
      rw [ofDayNumber?] at h
      exact ofCivil?_some h
    have hin : InYear n d.year := hyear ▸ inYear_yearOfDay n
    obtain ⟨e, rfl⟩ := exists_dayNumber ⟨(daysBeforeYear_mono d.year_mem.1).trans hin.1,
      Int.le_sub_one_of_lt (hin.2.trans_le (daysBeforeYear_mono (by have := d.year_mem.2; omega)))⟩
    rw [Option.some.inj (e.ofDayNumber?_dayNumber.symm.trans h)]
  · rintro rfl
    exact d.ofDayNumber?_dayNumber

theorem shift?_eq_some_iff {d e : Date} {k : Int} :
    d.shift? k = some e ↔ e.dayNumber = d.dayNumber + k :=
  ofDayNumber?_eq_some_iff

theorem shift?_eq_none_iff {d : Date} {k : Int} :
    d.shift? k = none ↔ ¬ InCalendar (d.dayNumber + k) := by
  constructor
  · intro hnone hin
    obtain ⟨e, he⟩ := exists_dayNumber hin
    rw [shift?_eq_some_iff.mpr he] at hnone
    cases hnone
  · intro hout
    rw [Option.eq_none_iff_forall_ne_some]
    intro e he
    exact hout (shift?_eq_some_iff.mp he ▸ e.inCalendar_dayNumber)

end Date

end LazyCalc
