import LazyCalc.Generator
import Mathlib.Algebra.BigOperators.Ring.List
import Mathlib.Algebra.GroupWithZero.Nat
import Mathlib.Data.List.GetD
import Mathlib.Data.Nat.Factorial.Basic
/-!
How many tuples are still to come: of an odometer, read as a number in its mixed radix, and of the
orderings, whose counters are a number in the factorial base. Each step takes one away.
-/

namespace LazyCalc

open Nat (factorial factorial_succ)

namespace Odometer

def after : (lengths indices : List Nat) → Nat
  | length :: lengths, i :: is => (length - 1 - i) * lengths.prod + after lengths is
  | _, _ => 0

def Within (lengths indices : List Nat) : Prop :=
  List.Forall₂ (fun length i => i < length) lengths indices

theorem within_zeros {lengths : List Nat} (h : 0 ∉ lengths) :
    Within lengths (lengths.map fun _ => 0) := by
  induction lengths with
  | nil => exact .nil
  | cons length lengths ih =>
    obtain ⟨hlength, hlengths⟩ := not_or.mp (mt List.mem_cons.mpr h)
    exact .cons (Nat.pos_of_ne_zero (Ne.symm hlength)) (ih hlengths)

theorem after_zeros {lengths : List Nat} (h : 0 ∉ lengths) :
    after lengths (lengths.map fun _ => 0) + 1 = lengths.prod := by
  induction lengths with
  | nil => rfl
  | cons length lengths ih =>
    obtain ⟨hlength, hlengths⟩ := not_or.mp (mt List.mem_cons.mpr h)
    obtain ⟨n, rfl⟩ := Nat.exists_eq_succ_of_ne_zero (Ne.symm hlength)
    rw [List.map_cons, after, List.prod_cons, Nat.add_assoc, ih hlengths]
    exact (Nat.succ_mul n _).symm

theorem zeros_of_within {lengths is : List Nat} (h : Within lengths is) :
    is.map (fun _ => 0) = lengths.map fun _ => 0 := by
  induction h with
  | nil => rfl
  | cons _ _ ih => rw [List.map_cons, List.map_cons, ih]

theorem not_mem_of_within {lengths is : List Nat} (h : Within lengths is) : 0 ∉ lengths := by
  induction h with
  | nil => exact List.not_mem_nil
  | cons hi _ ih => exact mt List.mem_cons.mp (not_or.mpr ⟨(Nat.ne_zero_of_lt hi).symm, ih⟩)

theorem after_increment {lengths is : List Nat} (h : Within lengths is) :
    match increment lengths is with
    | some later => Within lengths later ∧ after lengths later + 1 = after lengths is
    | none => after lengths is = 0 := by
  induction h with
  | nil => rfl
  | @cons length i lengths is hi h ih =>
    rw [increment]
    cases hlater : increment lengths is with
    | some later =>
      rw [hlater] at ih
      exact ⟨.cons hi ih.1, by rw [after, after, Nat.add_assoc, ih.2]⟩
    | none =>
      rw [hlater] at ih
      by_cases hlt : i + 1 < length
      · -- the later places start again from the first of their tuples
        have hzeros := after_zeros (not_mem_of_within h)
        rw [if_pos hlt, zeros_of_within h]
        refine ⟨.cons hlt (within_zeros (not_mem_of_within h)), ?_⟩
        rw [after, after, Nat.add_assoc, hzeros, ih, ← Nat.succ_mul]
        congr 1
        omega
      · rw [if_neg hlt, after, ih, show length - 1 - i = 0 by omega, Nat.zero_mul]

def left (o : Odometer) : Nat :=
  match o.upcoming with
  | some is => after o.lengths is + 1
  | none => 0

def Valid (o : Odometer) : Prop := ∀ is, o.upcoming = some is → Within o.lengths is

theorem valid_ofLengths (lengths : List Nat) : (ofLengths lengths).Valid := by
  intro is h
  rw [ofLengths] at h
  split at h
  · cases h
  · next hzero =>
    cases h
    exact within_zeros hzero

theorem left_ofLengths (lengths : List Nat) : (ofLengths lengths).left = lengths.prod := by
  unfold ofLengths left
  split_ifs with hzero
  · exact (List.prod_eq_zero (l := lengths) hzero).symm
  · exact after_zeros hzero

theorem left_next {o : Odometer} (h : o.Valid) :
    match o.next with
    | (some _, o') => o'.Valid ∧ o'.left + 1 = o.left
    | (none, _) => o.left = 0 := by
  obtain ⟨lengths, upcoming⟩ := o
  cases upcoming with
  | none => rfl
  | some is =>
    have hnext := after_increment (h is rfl)
    cases hlater : increment lengths is with
    | none =>
      rw [hlater] at hnext
      refine ⟨fun _ hsome => ?_, ?_⟩
      · exact nomatch hlater.symm.trans hsome
      · simp only [left, hlater, hnext]
    | some later =>
      rw [hlater] at hnext
      refine ⟨fun _ hsome => ?_, ?_⟩
      · obtain rfl := Option.some.inj (hlater.symm.trans hsome)
        exact hnext.1
      · simp only [left, hlater, hnext.2]

end Odometer

namespace Arrangement

/-- The counters, less one, as digits in the factorial base. -/
def worth : (cycles : List Nat) → Nat
  | [] => 0
  | c :: cs => (c - 1) * factorial cs.length + worth cs

theorem worth_set {cycles : List Nat} {place : Nat} (h : place < cycles.length) (c : Nat) :
    worth (cycles.set place c) + (cycles[place] - 1) * factorial (cycles.length - place - 1) =
      worth cycles + (c - 1) * factorial (cycles.length - place - 1) := by
  induction cycles generalizing place with
  | nil => cases h
  | cons d cycles ih =>
    cases place with
    | zero =>
      simp only [List.set_cons_zero, worth, List.getElem_cons_zero, List.length_cons, Nat.sub_zero,
        Nat.add_sub_cancel]
      omega
    | succ place =>
      have := ih (Nat.lt_of_succ_lt_succ h)
      simp only [List.set_cons_succ, worth, List.getElem_cons_succ, List.length_cons, List.length_set,
        Nat.add_sub_add_right]
      omega

def Restarted (cycles : List Nat) (place : Nat) : Prop :=
  worth (cycles.drop place) + 1 = factorial (cycles.length - place)

theorem Restarted.set {cycles : List Nat} {place : Nat} (hplace : place < cycles.length)
    (h : Restarted cycles (place + 1)) :
    Restarted (cycles.set place (cycles.length - place)) place := by
  unfold Restarted at h ⊢
  obtain ⟨k, hk⟩ : ∃ k, cycles.length - place = k + 1 := ⟨cycles.length - place - 1, by omega⟩
  rw [show cycles.length - (place + 1) = k by omega] at h
  rw [List.drop_set, if_neg (Nat.lt_irrefl _), Nat.sub_self, List.drop_eq_getElem_cons hplace,
    List.set_cons_zero, worth, List.length_set, hk, List.length_drop,
    show cycles.length - (place + 1) = k by omega, factorial_succ, Nat.succ_mul]
  simp only [Nat.add_sub_cancel]
  omega

structure Valid (a : Arrangement) : Prop where
  length_eq : a.indices.length = a.cycles.length
  pos : ∀ c ∈ a.cycles, 0 < c

@[simp]
theorem length_rotateFrom (place : Nat) (xs : List Nat) :
    (rotateFrom place xs).length = xs.length := by
  unfold rotateFrom
  split
  · rfl
  · next y ys hdrop =>
    have := congrArg List.length hdrop
    simp only [List.length_drop, List.length_cons] at this
    simp only [List.length_append, List.length_take, List.length_cons, List.length_nil]
    omega

@[simp]
theorem length_exchange (i j : Nat) (xs : List Nat) : (exchange i j xs).length = xs.length := by
  unfold exchange
  split
  · rw [List.length_set, List.length_set]
  · rfl

theorem Valid.set {indices indices' cycles : List Nat} {place c : Nat}
    (h : Valid ⟨indices, cycles⟩) (hlength : indices'.length = indices.length) (hc : 0 < c) :
    Valid ⟨indices', cycles.set place c⟩ where
  length_eq := by
    rw [List.length_set, hlength]
    exact h.length_eq
  pos d hd := (List.mem_or_eq_of_mem_set hd).elim (h.pos d) fun hdc => hdc ▸ hc

/-- The counter of some place before `places` goes down by one; those after it, which had run out,
start again. Where all of them had, no ordering is left. -/
theorem worth_advance {places : Nat} {a : Arrangement} (hvalid : a.Valid)
    (hplaces : places ≤ a.cycles.length) (hrestarted : Restarted a.cycles places) :
    match advance places a with
    | some a' => a'.Valid ∧
        worth a'.cycles + factorial (a.cycles.length - places) = worth a.cycles
    | none => worth a.cycles + 1 = factorial (a.cycles.length - places) := by
  -- from the last place back: one that has run out starts again, and the one before it steps
  induction places generalizing a with
  | zero => exact hrestarted
  | succ place ih =>
    obtain ⟨indices, cycles⟩ := a
    have hlt : place < cycles.length := hplaces
    have hpos : 0 < cycles[place] := hvalid.pos _ (List.getElem_mem hlt)
    have hlength : indices.length = cycles.length := hvalid.length_eq
    obtain ⟨k, hk⟩ : ∃ k, cycles.length - place = k + 1 := ⟨cycles.length - place - 1, by omega⟩
    rw [advance, List.getD_eq_getElem _ _ hlt, hlength]
    by_cases hleft : cycles[place] - 1 = 0
    · have hset := worth_set hlt (cycles.length - place)
      have hvalid' : Valid ⟨rotateFrom place indices, cycles.set place (cycles.length - place)⟩ :=
        hvalid.set (length_rotateFrom _ _) (by omega)
      have ih := ih hvalid' (by rw [List.length_set]; omega) (hrestarted.set hlt)
      rw [hleft, Nat.zero_mul, Nat.add_zero, show cycles.length - place - 1 = k by omega, hk] at hset
      rw [List.length_set, hk, factorial_succ, Nat.succ_mul] at ih
      rw [if_pos hleft, hk, show cycles.length - (place + 1) = k by omega]
      dsimp only at ih ⊢
      split at ih
      · exact ⟨ih.1, by omega⟩
      · omega
    · have hset := worth_set hlt (cycles[place] - 1)
      rw [if_neg hleft]
      refine ⟨hvalid.set (length_exchange _ _ _) (by omega), ?_⟩
      obtain ⟨c, hc⟩ : ∃ c, cycles[place] - 1 = c + 1 := ⟨cycles[place] - 1 - 1, by omega⟩
      rw [hc, Nat.add_sub_cancel, Nat.succ_mul] at hset
      rw [show cycles.length - (place + 1) = cycles.length - place - 1 by omega]
      dsimp only
      rw [hc]
      omega

def starts (n : Nat) : List Nat := (List.range n).map (n - ·)

theorem starts_succ (n : Nat) : starts (n + 1) = (n + 1) :: starts n := by
  rw [starts, List.range_succ_eq_map, List.map_cons, List.map_map, Nat.sub_zero, starts]
  congr 1
  exact List.map_congr_left fun i _ => Nat.add_sub_add_right n 1 i

theorem length_starts (n : Nat) : (starts n).length = n := by
  rw [starts, List.length_map, List.length_range]

theorem worth_first (n : Nat) : worth (first n).cycles + 1 = factorial n := by
  change worth (starts n) + 1 = factorial n
  induction n with
  | zero => rfl
  | succ n ih =>
    rw [starts_succ, worth, length_starts, Nat.add_sub_cancel, Nat.add_assoc, ih, factorial_succ,
      Nat.succ_mul]

theorem valid_first (n : Nat) : (first n).Valid where
  length_eq := by rw [first, List.length_map]
  pos c hc := by
    obtain ⟨i, hi, rfl⟩ := List.mem_map.mp hc
    exact Nat.sub_pos_of_lt (List.mem_range.mp hi)

end Arrangement

namespace Permutations

def left (p : Permutations) : Nat :=
  match p.upcoming with
  | some a => Arrangement.worth a.cycles + 1
  | none => 0

def Valid (p : Permutations) : Prop := ∀ a, p.upcoming = some a → a.Valid

theorem valid_ofLength (n : Nat) : (ofLength n).Valid :=
  fun _ h => Option.some.inj h ▸ Arrangement.valid_first n

theorem left_ofLength (n : Nat) : (ofLength n).left = factorial n := Arrangement.worth_first n

theorem left_next {p : Permutations} (h : p.Valid) :
    match p.next with
    | (some _, p') => p'.Valid ∧ p'.left + 1 = p.left
    | (none, _) => p.left = 0 := by
  obtain ⟨upcoming⟩ := p
  cases upcoming with
  | none => rfl
  | some a =>
    have hvalid := h a rfl
    have hrestarted : Arrangement.Restarted a.cycles a.indices.length := by
      rw [Arrangement.Restarted, hvalid.length_eq, List.drop_length, Nat.sub_self]
      rfl
    have hnext := Arrangement.worth_advance hvalid hvalid.length_eq.le hrestarted
    rw [← hvalid.length_eq, Nat.sub_self, Nat.factorial_zero] at hnext
    cases hlater : a.advance a.indices.length with
    | none =>
      rw [hlater] at hnext
      refine ⟨fun _ hsome => ?_, ?_⟩
      · exact nomatch hlater.symm.trans hsome
      · simp only [left, hlater, Nat.add_right_cancel hnext]
    | some later =>
      rw [hlater] at hnext
      refine ⟨fun _ hsome => ?_, ?_⟩
      · obtain rfl := Option.some.inj (hlater.symm.trans hsome)
        exact hnext.1
      · simp only [left, hlater, hnext.2]

end Permutations

namespace Draft

end Draft

end LazyCalc
