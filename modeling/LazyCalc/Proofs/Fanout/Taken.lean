import LazyCalc.Proofs.Fanout.Slots
import Mathlib.Data.Finset.Card
import Mathlib.Data.Finset.Range
import Mathlib.Order.Bounds.Basic
/-!
Which slots of a fan-out are taken. A new branch takes the least that is not, so that a new slot is
made only when every slot is taken.
-/

namespace LazyCalc.Fanout

variable {α : Type}

def taken (f : Fanout α) : Finset Nat :=
  (Finset.range f.slots.length).filter fun slot => (f.slot? slot).isSome = true

variable {f g : Fanout α}

@[simp]
theorem mem_taken {slot : Nat} : slot ∈ f.taken ↔ (f.slot? slot).isSome = true := by
  rw [taken, Finset.mem_filter, Finset.mem_range, and_iff_right_iff_imp]
  intro h
  obtain ⟨s, hs⟩ := Option.isSome_iff_exists.mp h
  exact slot?_lt hs

theorem notMem_taken {slot : Nat} : slot ∉ f.taken ↔ f.slot? slot = none := by
  rw [mem_taken, Bool.not_eq_true, Option.isSome_eq_false_iff, Option.isNone_iff_eq_none]

theorem taken_congr (h : ∀ slot, (g.slot? slot).isSome = (f.slot? slot).isSome) :
    g.taken = f.taken := by
  ext slot
  rw [mem_taken, mem_taken, h]

theorem taken_subset (f : Fanout α) : f.taken ⊆ Finset.range f.slots.length :=
  Finset.filter_subset _ _

theorem card_taken_le (f : Fanout α) : f.taken.card ≤ f.slots.length :=
  (Finset.card_le_card f.taken_subset).trans_eq (Finset.card_range _)

theorem isDeserted_iff_taken : f.isDeserted = true ↔ f.taken = ∅ := by
  simp only [isDeserted_iff, Finset.eq_empty_iff_forall_notMem, notMem_taken]

@[simp]
theorem taken_single : (single : Fanout α).taken = {0} := by
  ext slot
  rw [mem_taken, slot?_single, Finset.mem_singleton]
  split <;> simp_all

theorem taken_setBacklog (f : Fanout α) (slot : Nat) (items : List α) :
    (f.setBacklog slot items).taken = f.taken := by
  refine taken_congr fun j => ?_
  rw [slot?_setBacklog]
  split
  · rw [Option.isSome_map]
  · rfl

theorem length_setBacklog (f : Fanout α) (slot : Nat) (items : List α) :
    (f.setBacklog slot items).slots.length = f.slots.length :=
  List.length_modify ..

theorem taken_leave (f : Fanout α) (slot : Nat) : (f.leave slot).taken = f.taken.erase slot := by
  ext j
  rw [mem_taken, slot?_leave, Finset.mem_erase, mem_taken]
  split <;> simp_all

theorem length_leave (f : Fanout α) (slot : Nat) : (f.leave slot).slots.length = f.slots.length :=
  List.length_set

theorem taken_of_pop? {slot : Nat} {item : α} (h : f.pop? slot = some (item, g)) :
    g.taken = f.taken := by
  obtain ⟨-, s, t, hs, -, -, hslots⟩ := pop?_eq_some h
  refine taken_congr fun j => ?_
  rw [hslots]
  split
  · next hj => rw [hj, hs]; rfl
  · rfl

theorem length_of_pop? {slot : Nat} {item : α} (h : f.pop? slot = some (item, g)) :
    g.slots.length = f.slots.length := by
  unfold pop? at h
  split at h
  · cases h
  · split at h
    · cases h
    · cases h
      exact List.length_set

theorem insert_fst_le {s : Slot α} {slots : List (Option (Slot α))} {j : Nat}
    (hj : slots[j]?.join = none) : (insert s slots).1 ≤ j := by
  induction slots generalizing j with
  | nil => exact Nat.zero_le j
  | cons t slots ih =>
    cases t with
    | none => exact Nat.zero_le j
    | some t =>
      cases j with
      | zero => cases hj
      | succ j => exact Nat.succ_le_succ (ih hj)

theorem length_insert (s : Slot α) (slots : List (Option (Slot α))) :
    (insert s slots).2.length = max slots.length ((insert s slots).1 + 1) := by
  induction slots with
  | nil => rfl
  | cons t slots ih =>
    cases t with
    | none => simp [insert]
    | some t => simpa [insert] using ih

theorem isLeast_join (f : Fanout α) (items : List α) :
    IsLeast {slot | f.slot? slot = none} (f.join items).1 :=
  ⟨f.slot?_join_fst items, fun _ h => insert_fst_le h⟩

theorem taken_join (f : Fanout α) (items : List α) :
    (f.join items).2.taken = Insert.insert (f.join items).1 f.taken := by
  ext j
  rw [mem_taken, slot?_join, Finset.mem_insert, mem_taken]
  split <;> simp_all

theorem join_fst_notMem (f : Fanout α) (items : List α) : (f.join items).1 ∉ f.taken :=
  notMem_taken.mpr (f.slot?_join_fst items)

theorem length_join_fst (f : Fanout α) (items : List α) :
    (f.join items).2.slots.length = max f.slots.length ((f.join items).1 + 1) :=
  length_insert _ f.slots

theorem join_fst_le (f : Fanout α) (items : List α) : (f.join items).1 ≤ f.slots.length :=
  insert_fst_le (by rw [List.getElem?_eq_none le_rfl]; rfl)

theorem length_join (f : Fanout α) (items : List α) :
    (f.join items).2.slots.length = max f.slots.length (f.taken.card + 1) := by
  have hlength := f.length_join_fst items
  have hfree := f.join_fst_notMem items
  have hbelow : Finset.range (f.join items).1 ⊆ f.taken := by
    intro j hj
    by_contra hnone
    exact (Finset.mem_range.mp hj).not_ge ((f.isLeast_join items).2 (notMem_taken.mp hnone))
  have hle := Finset.card_le_card hbelow
  have hend := f.join_fst_le items
  rw [Finset.card_range] at hle
  by_cases hlt : (f.join items).1 < f.slots.length
  · have hsubset : Insert.insert (f.join items).1 f.taken ⊆ Finset.range f.slots.length :=
      Finset.insert_subset (Finset.mem_range.mpr hlt) f.taken_subset
    have hcard := Finset.card_le_card hsubset
    rw [Finset.card_insert_of_notMem hfree, Finset.card_range] at hcard
    rw [hlength, max_eq_left hlt, max_eq_left hcard]
  · have hcard := f.card_taken_le
    rw [hlength, show (f.join items).1 = f.taken.card by omega]

end LazyCalc.Fanout
