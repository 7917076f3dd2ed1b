import LazyCalc.Proofs.Fanout.Slots
import Mathlib.Algebra.Group.Nat.Defs
import Mathlib.Order.Bounds.Basic
/-!
The thresholds of a backlog, 65536 and its doublings. A slot waits for the least of them that is
above every length that its backlog has had, and what it has warned of are those that are not.
-/

namespace LazyCalc

def IsThreshold (w : Nat) : Prop := ∃ j, w = 65536 * 2 ^ j

namespace IsThreshold

variable {v w : Nat}

theorem double (h : IsThreshold w) : IsThreshold (2 * w) := by
  obtain ⟨j, rfl⟩ := h
  exact ⟨j + 1, by rw [Nat.pow_succ]; omega⟩

theorem first : IsThreshold firstThreshold := ⟨0, rfl⟩

theorem first_le (h : IsThreshold w) : firstThreshold ≤ w := by
  obtain ⟨j, rfl⟩ := h
  exact Nat.le_mul_of_pos_right _ (Nat.two_pow_pos j)

theorem two_mul_le (hv : IsThreshold v) (hw : IsThreshold w) (h : v < w) : 2 * v ≤ w := by
  obtain ⟨j, rfl⟩ := hv
  obtain ⟨k, rfl⟩ := hw
  have hjk : j < k := (Nat.pow_lt_pow_iff_right Nat.one_lt_two).mp (Nat.lt_of_mul_lt_mul_left h)
  calc 2 * (65536 * 2 ^ j)
    _ = 65536 * 2 ^ (j + 1) := by rw [Nat.pow_succ]; omega
    _ ≤ 65536 * 2 ^ k := Nat.mul_le_mul_left _ (Nat.pow_le_pow_right Nat.two_pos hjk)

end IsThreshold

theorem isLeast_thresholdAbove_of_lt {length fuel threshold : Nat} (ht : IsThreshold threshold)
    (hleast : ∀ w, IsThreshold w → length < w → threshold ≤ w)
    (hfuel : length < threshold * 2 ^ fuel) :
    IsLeast {w | IsThreshold w ∧ length < w} (thresholdAbove length fuel threshold) := by
  induction fuel generalizing threshold with
  | zero =>
    rw [Nat.pow_zero, Nat.mul_one] at hfuel
    exact ⟨⟨ht, hfuel⟩, fun w hw => hleast w hw.1 hw.2⟩
  | succ fuel ih =>
    rw [thresholdAbove]
    split
    · next hle =>
      refine ih ht.double (fun w hw hlt => ht.two_mul_le hw (hle.trans_lt hlt)) ?_
      calc length
        _ < threshold * 2 ^ (fuel + 1) := hfuel
        _ = 2 * threshold * 2 ^ fuel := by rw [Nat.pow_succ', Nat.mul_left_comm, Nat.mul_assoc]
    · next hlt => exact ⟨⟨ht, Nat.lt_of_not_le hlt⟩, fun w hw => hleast w hw.1 hw.2⟩

theorem isLeast_thresholdAbove (length : Nat) :
    IsLeast {w | IsThreshold w ∧ length < w} (thresholdAbove length length firstThreshold) := by
  refine isLeast_thresholdAbove_of_lt .first (fun w hw _ => hw.first_le) ?_
  calc length
    _ < 2 ^ length := Nat.lt_two_pow_self
    _ ≤ firstThreshold * 2 ^ length := Nat.le_mul_of_pos_left _ (by decide)

/-- What has gone on in a slot since it was last taken. -/
structure Tenure where
  seed : Nat
  later : List Nat
  warned : List Nat

namespace Tenure

def lengths (t : Tenure) : List Nat := t.seed :: t.later

def observe (t : Tenure) (length : Nat) (warnings : List Nat) : Tenure :=
  { t with later := t.later ++ [length], warned := t.warned ++ warnings }

@[simp]
theorem lengths_observe (t : Tenure) (length : Nat) (warnings : List Nat) :
    (t.observe length warnings).lengths = t.lengths ++ [length] := rfl

@[simp]
theorem warned_observe (t : Tenure) (length : Nat) (warnings : List Nat) :
    (t.observe length warnings).warned = t.warned ++ warnings := rfl

@[simp]
theorem seed_observe (t : Tenure) (length : Nat) (warnings : List Nat) :
    (t.observe length warnings).seed = t.seed := rfl

/-- A slot as it is after all that has gone on in it: each threshold that the backlog has passed
since the branch began was warned of once, in order. -/
structure Marks {α : Type} (t : Tenure) (s : Slot α) : Prop where
  last : t.lengths.getLast? = some s.backlog.length
  warnAt : IsLeast {w | IsThreshold w ∧ ∀ n ∈ t.lengths, n < w} s.warnAt
  increasing : t.warned.Pairwise (· < ·)
  mem_warned : ∀ w, w ∈ t.warned ↔ IsThreshold w ∧ t.seed < w ∧ ∃ n ∈ t.lengths, w ≤ n

namespace Marks

variable {α : Type} {t : Tenure} {s s' : Slot α}

theorem start (items : List α) : (Tenure.mk items.length [] []).Marks (.ofList items) where
  last := rfl
  warnAt := by
    simp only [lengths, List.forall_mem_singleton]
    exact isLeast_thresholdAbove items.length
  increasing := .nil
  mem_warned w := by
    simp only [lengths, List.not_mem_nil, false_iff, List.mem_singleton, exists_eq_left]
    rintro ⟨-, hlt, hle⟩
    exact hlt.not_ge hle

theorem length_lt (h : t.Marks s) : s.backlog.length < s.warnAt :=
  h.warnAt.1.2 _ (List.mem_of_getLast? h.last)

theorem exists_le (h : t.Marks s) {w : Nat} (hw : IsThreshold w) (hlt : w < s.warnAt) :
    ∃ n ∈ t.lengths, w ≤ n := by
  by_contra! hall
  exact hlt.not_ge (h.warnAt.2 ⟨hw, hall⟩)

theorem observe (h : t.Marks s) (hwarn : s'.warnAt = s.warnAt)
    (hlt : s'.backlog.length < s.warnAt) : (t.observe s'.backlog.length []).Marks s' where
  last := by rw [lengths_observe, List.getLast?_concat]
  warnAt := by
    rw [hwarn]
    refine ⟨⟨h.warnAt.1.1, ?_⟩, fun w hw => h.warnAt.2 ⟨hw.1, fun n hn => hw.2 n ?_⟩⟩
    · rw [lengths_observe, List.forall_mem_append, List.forall_mem_singleton]
      exact ⟨h.warnAt.1.2, hlt⟩
    · exact List.mem_append_left _ hn
  increasing := by simpa using h.increasing
  mem_warned w := by
    rw [warned_observe, List.append_nil, h.mem_warned, lengths_observe, seed_observe]
    refine and_congr_right fun hw => and_congr_right fun _ => ⟨?_, ?_⟩
    · rintro ⟨n, hn, hle⟩
      exact ⟨n, List.mem_append_left _ hn, hle⟩
    · rintro ⟨n, hn, hle⟩
      rw [List.mem_append, List.mem_singleton] at hn
      obtain hn | rfl := hn
      · exact ⟨n, hn, hle⟩
      · exact h.exists_le hw (hle.trans_lt hlt)

theorem warn (h : t.Marks s) (hwarn : s'.warnAt = 2 * s.warnAt)
    (hreach : s'.backlog.length = s.warnAt) :
    (t.observe s'.backlog.length [s'.backlog.length]).Marks s' where
  last := by rw [lengths_observe, List.getLast?_concat]
  warnAt := by
    rw [hwarn, hreach]
    have hpos : 0 < s.warnAt := Nat.zero_lt_of_lt h.length_lt
    refine ⟨⟨h.warnAt.1.1.double, ?_⟩, fun w hw => h.warnAt.1.1.two_mul_le hw.1 (hw.2 _ ?_)⟩
    · rw [lengths_observe, List.forall_mem_append, List.forall_mem_singleton]
      exact ⟨fun n hn => (h.warnAt.1.2 n hn).trans (by omega), by omega⟩
    · simp
  increasing := by
    rw [warned_observe, List.pairwise_append]
    refine ⟨h.increasing, List.pairwise_singleton _ _, fun v hv w hw => ?_⟩
    obtain ⟨-, -, n, hn, hle⟩ := (h.mem_warned v).mp hv
    rw [List.mem_singleton.mp hw, hreach]
    exact hle.trans_lt (h.warnAt.1.2 n hn)
  mem_warned w := by
    rw [warned_observe, List.mem_append, List.mem_singleton, h.mem_warned, lengths_observe,
      seed_observe, hreach]
    constructor
    · rintro (⟨hw, hseed, n, hn, hle⟩ | rfl)
      · exact ⟨hw, hseed, n, List.mem_append_left _ hn, hle⟩
      · exact ⟨h.warnAt.1.1, h.warnAt.1.2 _ List.mem_cons_self, _, by simp, le_rfl⟩
    · rintro ⟨hw, hseed, n, hn, hle⟩
      rw [List.mem_append, List.mem_singleton] at hn
      by_cases he : w = s.warnAt
      · exact .inr he
      · refine .inl ⟨hw, hseed, ?_⟩
        obtain hn | rfl := hn
        · exact ⟨n, hn, hle⟩
        · exact h.exists_le hw (Nat.lt_of_le_of_ne hle he)

theorem push (h : t.Marks s) (item : α) :
    (t.observe (s.push item).1.backlog.length
      (if s.warnAt ≤ (s.push item).1.backlog.length then [(s.push item).1.backlog.length]
        else [])).Marks (s.push item).1 := by
  have hlength := Fanout.length_push_backlog s item
  have hwarn := Fanout.warnAt_push s item
  rw [Backlog.length_toList, ← hlength] at hwarn
  have hlt := h.length_lt
  split
  · next hdue =>
    rw [if_pos hdue] at hwarn
    exact h.warn hwarn (by omega)
  · next hdue =>
    rw [if_neg hdue] at hwarn
    exact h.observe hwarn (Nat.lt_of_not_le hdue)

end Marks

end Tenure

end LazyCalc
