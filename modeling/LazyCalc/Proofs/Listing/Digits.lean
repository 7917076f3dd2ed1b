import LazyCalc.Operator.Builtin
import LazyCalc.Proofs.Listing.Permutations
import Mathlib.Data.Nat.Digits.Lemmas
/-!
The digits of integers: what is written by one number after another is read as one number, and the
digits of a number in all their orders are read as numbers one after another, beginning with the
number itself.
-/

namespace LazyCalc

open Nat (factorial digits ofDigits digitChar)

def decimals (n : Nat) : List Nat := if n = 0 then [0] else (digits 10 n).reverse

def rearranged {α : Type} (xs : List α) (indices : List Nat) : List α :=
  indices.filterMap (xs[·]?)

theorem decimals_of_lt {n : Nat} (h : n < 10) : decimals n = [n] := by
  unfold decimals
  split
  · next h0 => rw [h0]
  · next h0 => rw [Nat.digits_of_lt 10 n h0 h, List.reverse_singleton]

theorem decimals_of_le {n : Nat} (h : 10 ≤ n) : decimals n = decimals (n / 10) ++ [n % 10] := by
  rw [decimals, if_neg (by omega), decimals, if_neg (by omega),
    Nat.digits_def' (by decide) (by omega), List.reverse_cons]

theorem decimals_ne_nil (n : Nat) : decimals n ≠ [] := by
  unfold decimals
  split
  · exact List.cons_ne_nil _ _
  · next h => rwa [Ne, List.reverse_eq_nil_iff, Nat.digits_eq_nil_iff_eq_zero]

theorem lt_of_mem_decimals {n d : Nat} (h : d ∈ decimals n) : d < 10 := by
  unfold decimals at h
  split at h
  · rw [List.mem_singleton.mp h]
    decide
  · exact Nat.digits_lt_base (by decide) (List.mem_reverse.mp h)

theorem ofDigits_decimals (n : Nat) : ofDigits 10 (decimals n).reverse = n := by
  unfold decimals
  split
  · next h => rw [h]; rfl
  · rw [List.reverse_reverse, Nat.ofDigits_digits]

theorem toDigits_eq (n : Nat) : Nat.toDigits 10 n = (decimals n).map digitChar := by
  induction n using Nat.strong_induction_on with
  | h n ih =>
    rw [Nat.toDigits_eq_if (by decide)]
    split
    · next h => rw [decimals_of_lt h]; rfl
    · next h =>
      rw [ih (n / 10) (by omega), decimals_of_le (not_lt.mp h), List.map_append]
      rfl

theorem toList_toString (n : Nat) : (toString (n : Int)).toList = (decimals n).map digitChar := by
  rw [← toDigits_eq, Int.toString_eq_repr]
  change (toString n).toList = _
  rw [Nat.toString_eq_ofList_toDigits, String.toList_ofList]

namespace Assembly

theorem digitValue?_digitChar {d : Nat} (h : d < 10) : digitValue? (digitChar d) = some d := by
  have hall : ∀ d < 10, digitValue? (digitChar d) = some d := by decide
  exact hall d h

theorem ne_of_digitChar {d : Nat} (h : d < 10) :
    digitChar d ≠ '_' ∧ digitChar d ≠ '+' ∧ digitChar d ≠ '-' := by
  have hall : ∀ d < 10, digitChar d ≠ '_' ∧ digitChar d ≠ '+' ∧ digitChar d ≠ '-' := by decide
  exact hall d h

theorem readDigits?_digitChars {ds : List Nat} (h : ∀ d ∈ ds, d < 10) (value : Nat) :
    readDigits? value (ds.map digitChar) = some (ds.foldl (fun v d => v * 10 + d) value) := by
  induction ds generalizing value with
  | nil => rfl
  | cons d ds ih =>
    obtain ⟨hd, hds⟩ := List.forall_mem_cons.mp h
    rw [List.map_cons, readDigits?, digitValue?_digitChar hd, List.foldl_cons]
    · exact ih hds _
    · exact (ne_of_digitChar hd).1

theorem foldl_digits (ds : List Nat) (value : Nat) :
    ds.foldl (fun v d => v * 10 + d) value = value * 10 ^ ds.length + ofDigits 10 ds.reverse := by
  induction ds generalizing value with
  | nil => simp
  | cons d ds ih =>
    rw [List.foldl_cons, ih, List.reverse_cons, Nat.ofDigits_append, List.length_reverse,
      List.length_cons, Nat.ofDigits_singleton]
    ring

theorem readNatural?_of_ne {c : Char} (hunderscore : c ≠ '_') (hplus : c ≠ '+') (cs : List Char) :
    readNatural? (c :: cs) = readDigits? 0 (c :: cs) := by
  simp [readNatural?, hunderscore, hplus]

theorem readInteger?_of_ne {c : Char} (hminus : c ≠ '-') {cs : List Char} {n : Nat}
    (h : readNatural? (c :: cs) = some n) : readInteger? (c :: cs) = some (n : Int) := by
  unfold readInteger?
  split
  · next heq => exact absurd (List.cons.inj heq).1 hminus
  · next heq => exact absurd (List.cons.inj heq).1 hminus
  · rw [h]
    rfl

theorem readInteger?_digitChars {ds : List Nat} (h : ∀ d ∈ ds, d < 10) (hne : ds ≠ []) :
    readInteger? (ds.map digitChar) = some ((ofDigits 10 ds.reverse : Nat) : Int) := by
  have hread := readDigits?_digitChars h 0
  rw [foldl_digits, zero_mul, zero_add] at hread
  obtain ⟨d, ds, rfl⟩ := List.exists_cons_of_ne_nil hne
  obtain ⟨hunderscore, hplus, hminus⟩ := ne_of_digitChar (h d List.mem_cons_self)
  rw [List.map_cons, ← readNatural?_of_ne hunderscore hplus] at hread
  exact readInteger?_of_ne hminus hread

theorem toList_join (texts : List String) :
    (String.join texts).toList = texts.flatMap String.toList := by
  induction texts with
  | nil => rw [String.join_nil]; rfl
  | cons text texts ih => rw [String.join_cons, String.toList_append, ih, List.flatMap_cons]

theorem digits_of_digitChars {parts : List Scalar} {ds : List Nat}
    (htext : parts.flatMap (fun part => part.bareText.toList) = ds.map digitChar)
    (h : ∀ d ∈ ds, d < 10) (hne : ds ≠ []) :
    Assembly.digits parts = .ok (.scalar (.integer (ofDigits 10 ds.reverse : Nat))) := by
  have hjoin : (String.join (parts.map Scalar.bareText)).toList = ds.map digitChar := by
    rw [toList_join, List.flatMap_map, htext]
  rw [Assembly.digits, hjoin, readInteger?_digitChars h hne]

theorem ofDigits_flatMap (ps : List Nat) :
    ofDigits 10 (ps.flatMap decimals).reverse =
      ps.foldl (fun acc p => acc * 10 ^ (decimals p).length + p) 0 := by
  have hfold := foldl_digits (ps.flatMap decimals) 0
  rw [zero_mul, zero_add, List.foldl_flatMap] at hfold
  rw [← hfold]
  congr 1
  funext acc p
  rw [foldl_digits, ofDigits_decimals]

theorem digits_integers {ps : List Nat} (h : ps ≠ []) :
    Assembly.digits (ps.map fun p : Nat => .integer p) =
      .ok (.scalar (.integer
        (ps.foldl (fun acc p => acc * 10 ^ (decimals p).length + p) 0 : Nat))) := by
  rw [← ofDigits_flatMap]
  apply digits_of_digitChars
  · rw [List.flatMap_map, List.map_flatMap]
    congr 1
    funext p
    exact toList_toString p
  · intro d hd
    obtain ⟨p, -, hp⟩ := List.mem_flatMap.mp hd
    exact lt_of_mem_decimals hp
  · obtain ⟨p, ps, rfl⟩ := List.exists_cons_of_ne_nil h
    rw [List.flatMap_cons]
    exact List.append_ne_nil_of_left_ne_nil (decimals_ne_nil p) _

end Assembly

theorem untilFailure_ok (ts : List Plain) :
    untilFailure (ts.map .ok) = ts.map .ok := by
  induction ts with
  | nil => rfl
  | cons t ts ih => rw [List.map_cons, untilFailure, ih]

namespace Permutations

theorem rearranged_range {α : Type} (xs : List α) : rearranged xs (List.range xs.length) = xs := by
  induction xs with
  | nil => rfl
  | cons x xs ih =>
    rw [rearranged, List.length_cons, List.range_succ_eq_map, List.filterMap_cons,
      List.filterMap_map]
    exact congrArg (x :: ·) ih

theorem choose_map {α : Type} (f : α → Scalar) (xs : List α) (indices : List Nat) :
    Generator.choose (xs.map f) indices = (rearranged xs indices).map f := by
  rw [Generator.choose, rearranged, List.map_filterMap]
  simp only [List.getElem?_map]

theorem rearranged_perm {α : Type} {xs : List α} {indices : List Nat}
    (h : indices.Perm (List.range xs.length)) : (rearranged xs indices).Perm xs := by
  have hperm := h.filterMap (xs[·]?)
  rwa [← rearranged, ← rearranged, rearranged_range] at hperm

theorem head?_of_lists {n : Nat} {orderings : List (List Nat)}
    (h : Lists next (ofLength n) orderings) : orderings.head? = some (List.range n) := by
  cases h with
  | nil hnext => cases hnext
  | cons hnext hrest =>
    obtain ⟨hfirst, -⟩ := Prod.mk.inj hnext
    rw [List.head?_cons, ← hfirst]
    rfl

end Permutations

namespace Operator

open Permutations

def digitParts (n : Nat) : List Scalar := (decimals n).map fun d => .string (digitChar d).toString

theorem permuteDigits_natural (n : Nat) :
    permuteDigits (.integer n) = .ok (Draft.permutations (digitParts n) Assembly.digits) := by
  have hnonneg : ¬ (n : Int) < 0 := by omega
  simp only [permuteDigits, if_neg hnonneg, toList_toString, List.map_map]
  rfl

theorem permuteDigits_other {s : Scalar} (h : ∀ n : Nat, s ≠ .integer n) :
    permuteDigits s =
      .error (.domain ("permute_digits needs a non-negative integer, got " ++ s.text)) := by
  cases s with
  | integer i =>
    have hneg : i < 0 := by
      by_contra hnonneg
      exact h i.toNat (congrArg Scalar.integer (Int.toNat_of_nonneg (not_lt.mp hnonneg)).symm)
    exact if_pos hneg
  | _ => rfl

theorem digits_choose {n : Nat} {indices : List Nat}
    (h : indices.Perm (List.range (decimals n).length)) :
    Assembly.digits (Generator.choose (digitParts n) indices) =
      .ok (.scalar (.integer (ofDigits 10 (rearranged (decimals n) indices).reverse : Nat))) := by
  have hperm := rearranged_perm h
  rw [digitParts, choose_map]
  apply Assembly.digits_of_digitChars
  · rw [List.flatMap_map, List.map_eq_flatMap]
    simp only [Scalar.bareText, Char.toString_eq_singleton, String.toList_singleton]
  · exact fun d hd => lt_of_mem_decimals (hperm.subset hd)
  · intro hnil
    rw [hnil] at hperm
    exact decimals_ne_nil n hperm.nil_eq.symm

theorem gives_rearranged {n : Nat} {orderings : List (List Nat)}
    (hlists : Lists next (ofLength (decimals n).length) orderings)
    (hperm : ∀ is ∈ orderings, is.Perm (List.range (decimals n).length)) :
    (Draft.permutations (digitParts n) Assembly.digits).Gives (orderings.map fun is =>
      .ok (.scalar (.integer (ofDigits 10 (rearranged (decimals n) is).reverse : Nat)))) := by
  have hgives := Generator.gives_of_lists (.permutations · (digitParts n) Assembly.digits) _
    (fun _ => rfl) hlists
  rw [List.map_congr_left fun is his => digits_choose (hperm is his)] at hgives
  -- every order of the digits makes a number, so none of them is the last for a failure
  have hok := untilFailure_ok (orderings.map fun is =>
    .scalar (.integer (ofDigits 10 (rearranged (decimals n) is).reverse : Nat)))
  rw [List.map_map] at hok
  apply Draft.gives_of_generator
  rw [Draft.permutations, digitParts, List.length_map, ← digitParts]
  exact hok ▸ hgives

/-- Numbers in a list are put together to one, each after the digits of those before it. The digits
of a number are rearranged in all orders, lexicographically by their positions, and each time read
as a number, the first time as the number itself. Anything but a natural number is refused. -/
theorem digits_spell_numbers :
    (∀ ps : List Nat, ps ≠ [] → Assembly.digits (ps.map fun p : Nat => .integer p) =
      .ok (.scalar (.integer
        (ps.foldl (fun acc p => acc * 10 ^ (decimals p).length + p) 0 : Nat)))) ∧
    (∀ n : Nat, ∃ (draft : Draft) (orderings : List (List Nat)) (numbers : List Nat),
      permuteDigits (.integer n) = .ok draft ∧
      (∀ is, is ∈ orderings ↔ is.Perm (List.range (decimals n).length)) ∧
      orderings.Pairwise (· < ·) ∧
      numbers = orderings.map (fun is => ofDigits 10 (rearranged (decimals n) is).reverse) ∧
      numbers.head? = some n ∧ numbers.length = factorial (decimals n).length ∧
      draft.Gives (numbers.map fun m : Nat => .ok (.scalar (.integer m)))) ∧
    ∀ s : Scalar, (∀ n : Nat, s ≠ .integer n) → permuteDigits s =
      .error (.domain ("permute_digits needs a non-negative integer, got " ++ s.text)) := by
  refine ⟨fun ps => Assembly.digits_integers, fun n => ?_, fun s => permuteDigits_other⟩
  obtain ⟨orderings, hlists, hlength, hpairwise, hmem⟩ := exists_orderings (decimals n).length
  refine ⟨_, orderings, _, permuteDigits_natural n, hmem, hpairwise, rfl, ?_, ?_, ?_⟩
  · rw [List.head?_map, head?_of_lists hlists, Option.map_some, rearranged_range,
      ofDigits_decimals]
  · rw [List.length_map, hlength]
  · rw [List.map_map]
    exact gives_rearranged hlists fun is => (hmem is).mp

end Operator

end LazyCalc
