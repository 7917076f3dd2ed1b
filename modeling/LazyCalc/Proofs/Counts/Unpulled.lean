import LazyCalc.Proofs.Aggregates.Elements
import LazyCalc.Proofs.Counts.Builtin
import LazyCalc.Proofs.Counts.Truthful
import LazyCalc.Proofs.Desk.Standing
/-!
What was built in a run, and of which nothing was pulled: neither from it, nor from anything before
it was built over that or forked from it. If there is an exact hint on it, it says how many elements
there are.
-/

namespace LazyCalc

open Filter

open Readers (at?)

namespace Act

def adds : Act → Showing → Nat
  | .use .., reply => reply.length
  | .onClose .., _ => 0

/-- The numbers of what is built and not pulled after an act that replies with `reply`, with those
before it and the first number that is free. -/
def unpulled (a : Act) (reply : Showing) (free : Nat) (before : Set Nat) : Set Nat :=
  match a with
  | .use tool numbers => before ∪ {k | tool.Regular numbers ∧ (∀ i ∈ numbers, i ∈ before) ∧
      free ≤ k ∧ k < free + reply.length}
  | .onClose .. => before

end Act

namespace Desk

def unpulled : List (Nat × Act) → List (Nat × Showing) → (free : Nat) → Set Nat → Set Nat
  | (_, a) :: acts, (_, reply) :: replies, free, before =>
    unpulled acts replies (free + a.adds reply) (a.unpulled reply free before)
  | _, _, _, before => before

section

variable {α : Type}

theorem of_at?_set_none {desk : List (Option α)} {i k : Nat} {a : α}
    (h : at? (desk.set i none) k = some a) : at? desk k = some a := by
  rw [Readers.at?_set_none] at h
  split at h
  · cases h
  · exact h

theorem length_take (is : List Nat) (desk : List (Option α)) :
    (take is desk).2.length = desk.length := by
  induction is generalizing desk with
  | nil => rfl
  | cons i is ih => exact (ih (desk.set i none)).trans List.length_set

theorem of_at?_take {is : List Nat} {desk : List (Option α)} {k : Nat} {a : α}
    (h : at? (take is desk).2 k = some a) : at? desk k = some a := by
  induction is generalizing desk with
  | nil => exact h
  | cons i is ih => exact of_at?_set_none (ih h)

theorem exists_of_mem_take {is : List Nat} {desk : List (Option α)} {a : α}
    (h : a ∈ (take is desk).1) : ∃ i ∈ is, at? desk i = some a := by
  induction is generalizing desk with
  | nil => cases h
  | cons i is ih =>
    obtain h | h := List.mem_append.mp h
    · exact ⟨i, List.mem_cons_self, Option.mem_toList.mp h⟩
    · obtain ⟨j, hj, hat⟩ := ih h
      exact ⟨j, List.mem_cons_of_mem i hj, of_at?_set_none hat⟩

theorem length_taken_le (is : List Nat) (desk : List (Option α)) :
    (take is desk).1.length ≤ is.length := by
  induction is generalizing desk with
  | nil => exact Nat.le_refl _
  | cons i is ih =>
    have := ih (desk.set i none)
    have hone : (at? desk i).toList.length ≤ 1 := by cases at? desk i <;> simp
    rw [take, List.length_append, List.length_cons]
    omega

end

/-- All sequences in what has one of the numbers satisfy `P`. -/
def Covers (P : Lone.Sequence → Prop) (numbers : Set Nat) (desk : Lone.Desk) : Prop :=
  ∀ k ∈ numbers, k < desk.length ∧ ∀ v, at? desk k = some v → v.All P

variable {P : Lone.Sequence → Prop} {n : Nat} {before : Set Nat} {desk : Lone.Desk}

theorem Covers.rest (h : Covers P before desk) (numbers : List Nat) (items : List Lone.Item) :
    Covers P before (put items (take numbers desk).2) := by
  intro k hk
  obtain ⟨hlt, hall⟩ := h k hk
  have hlt' : k < (take numbers desk).2.length := by rwa [length_take]
  refine ⟨?_, fun v hv => ?_⟩
  · rw [put, List.length_append]
    exact Nat.lt_add_right _ hlt'
  · rw [at?, put, List.getElem?_append_left hlt'] at hv
    exact hall v (of_at?_take hv)

theorem Covers.act (hP : Lone.Closed P) (h : Covers P before desk) {a : Act} {reply : Showing}
    {desk' : Lone.Desk}
    (hact : act (Drive.alone n) (fun s _ => s) a desk = some (reply, desk')) :
    Covers P (a.unpulled reply desk.length before) desk' ∧
      desk'.length = desk.length + a.adds reply := by
  cases a with
  | onClose number label =>
    rw [Desk.act] at hact
    cases hat : at? desk number with
    | none =>
      rw [hat] at hact
      cases hact
      exact ⟨h, rfl⟩
    | some v =>
      rw [hat] at hact
      cases hact
      refine ⟨fun k hk => ⟨?_, fun w hw => ?_⟩, List.length_set⟩
      · rw [List.length_set]
        exact (h k hk).1
      · rw [Readers.at?_set (Readers.lt_of_at? hat)] at hw
        split at hw
        · next heq =>
          cases hw
          exact hP.wrap ((h k hk).2 v (heq ▸ hat))
        · exact (h k hk).2 w hw
  | use tool numbers =>
    obtain ⟨items, hwork, hact⟩ := Option.bind_eq_some_iff.mp hact
    cases hact
    have hlength : (showing items).length = items.length := List.length_map _
    -- a number that is unpulled afterwards was so before, or the tool has made what lies there
    refine ⟨fun k hk => ?_, ?_⟩
    · obtain hk | ⟨hregular, hnumbers, hle, hlt⟩ := hk
      · exact h.rest numbers items k hk
      · rw [hlength] at hlt
        have hvs : Tree.AllList P (take numbers desk).1 := Tree.allList_iff.mpr fun v hv => by
          obtain ⟨i, hi, hat⟩ := exists_of_mem_take hv
          exact (h i (hnumbers i hi)).2 v hat
        have hitems := hP.work hregular hvs (length_taken_le numbers desk) items hwork
        rw [← length_take numbers desk] at hle hlt
        refine ⟨?_, fun v hv => ?_⟩
        · rwa [put, List.length_append, List.length_map]
        · rw [at?, put, List.getElem?_append_right hle, List.getElem?_map] at hv
          obtain ⟨x, hx, hv⟩ := Option.bind_eq_some_iff.mp hv
          obtain ⟨y, hy, rfl⟩ := Option.map_eq_some_iff.mp hx
          cases y with
          | error e => cases hv
          | ok w =>
            cases hv
            exact hitems _ (List.mem_of_getElem? hy)
    · rw [put, List.length_append, List.length_map, length_take, Act.adds, hlength]

/-- After a run all that is unpulled is made of sequences with the property. -/
theorem Covers.run (hP : Lone.Closed P) (h : Covers P before desk) {acts : List (Nat × Act)}
    {replies : List (Nat × Showing)} {desks : List Lone.Desk}
    (hrun : runAlone n acts [desk] = some (replies, desks)) :
    ∃ desk', desks = [desk'] ∧ Covers P (unpulled acts replies desk.length before) desk' := by
  induction acts generalizing desk before replies with
  | nil =>
    cases hrun
    exact ⟨desk, rfl, h⟩
  | cons a acts ih =>
    obtain ⟨k, a⟩ := a
    obtain ⟨reply, desks₁, replies', hact, hrun, rfl⟩ := runAlone_cons.mp hrun
    cases k with
    | zero =>
      obtain ⟨⟨_, desk₁⟩, hone, heq⟩ := Option.bind_eq_some_iff.mp hact
      cases heq
      obtain ⟨hcovers, hlength⟩ := h.act hP hone
      rw [unpulled, ← hlength]
      exact ih hcovers hrun
    | succ k =>
      cases hact
      -- there is no such desk: nothing is done
      have hnone : a.unpulled [] desk.length before = before := by
        cases a with
        | onClose => rfl
        | use tool numbers =>
          refine Set.union_eq_left.mpr fun k hk => ?_
          obtain ⟨-, -, hle, hlt⟩ := hk
          exact absurd hlt (Nat.not_lt.mpr hle)
      have hadds : a.adds [] = 0 := by cases a <;> rfl
      rw [unpulled, hnone, hadds]
      exact ih h hrun

variable {acts : List (Nat × Act)} {replies : List (Nat × Showing)} {desk : Linked.Desk} {st : Store}
  {number : Nat} {s : Linked.Sequence}

end Desk

end LazyCalc
