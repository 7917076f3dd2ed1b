import LazyCalc.Proofs.Fanout.Charted
namespace LazyCalc

open Engine (Keeps)

namespace Fanout

variable {α : Type} {f g : Fanout α} {ws : Finset Nat} {L m : Nat}

structure Within (f : Fanout α) (ws : Finset Nat) (L m : Nat) : Prop where
  length_le : f.slots.length ≤ L
  card_le : (f.taken \ ws).card ≤ m

theorem Within.congr (h : f.Within ws L m) (hlength : g.slots.length = f.slots.length)
    (htaken : g.taken = f.taken) : g.Within ws L m :=
  ⟨hlength ▸ h.length_le, htaken ▸ h.card_le⟩

theorem Within.leave (h : f.Within ws L m) (slot : Nat) : (f.leave slot).Within ws L m := by
  refine ⟨(f.length_leave slot).trans_le h.length_le, (Finset.card_le_card ?_).trans h.card_le⟩
  rw [taken_leave]
  exact Finset.sdiff_subset_sdiff (Finset.erase_subset _ _) subset_rfl

theorem Within.leave_insert {slot : Nat} (h : f.Within (Insert.insert slot ws) L m) :
    (f.leave slot).Within ws L m := by
  refine ⟨(f.length_leave slot).trans_le h.length_le, (Finset.card_le_card ?_).trans h.card_le⟩
  intro j hj
  simp only [taken_leave, Finset.mem_sdiff, Finset.mem_erase] at hj
  rw [Finset.mem_sdiff, Finset.mem_insert, not_or]
  exact ⟨hj.1.2, hj.1.1, hj.2⟩

theorem Within.join (h : f.Within ws L m) (items : List α) :
    (f.join items).2.Within (Insert.insert (f.join items).1 ws) (max L (m + ws.card + 1)) m := by
  constructor
  · have hcard := Finset.card_le_card_sdiff_add_card (s := f.taken) (t := ws)
    have hm := h.card_le
    have hL := h.length_le
    rw [length_join]
    omega
  · refine (Finset.card_le_card ?_).trans h.card_le
    intro j hj
    simp only [taken_join, Finset.mem_sdiff, Finset.mem_insert, not_or] at hj
    exact Finset.mem_sdiff.mpr ⟨hj.1.resolve_left hj.2.1, hj.2.2⟩

theorem Forked.within {slot place : Nat} {f g : Fanout Linked.Item} {own seed : List Linked.Item}
    (hf : Forked slot f own seed place g) (h : f.Within ws L m) :
    g.Within (Insert.insert place ws) (max L (m + ws.card + 1)) m := by
  have hjoined := (h.congr (f.length_setBacklog slot own) (f.taken_setBacklog slot own)).join seed
  rwa [hf.join_eq] at hjoined

theorem Pulled.within {slot : Nat} {f g : Fanout Linked.Item} {x : Option Linked.Item}
    (hf : Pulled slot f x g) (h : f.Within ws L m) : g.Within ws L m := by
  cases hf with
  | waiting hpop => exact h.congr (length_of_pop? hpop) (taken_of_pop? hpop)
  | ended hpop hslots =>
    exact h.congr (congrArg List.length hslots) (taken_congr fun j => by rw [slot?, slot?, hslots])
  | produced hpop hlength hfree hown hother =>
    refine h.congr hlength (taken_congr fun j => ?_)
    cases hj : f.slot? j with
    | none => rw [hfree j hj]
    | some s =>
      by_cases he : j = slot
      · rw [he, hown, ← he, hj]
      · obtain ⟨_, -, hpushed⟩ := hother j s he hj
        rw [hpushed]
        rfl

end Fanout

/-- The fan-out at a place, while it is there, keeps within bounds. -/
def Store.Room (i : Nat) (ws : Finset Nat) (L m : Nat) (st : Store) : Prop :=
  ∀ shared, st.Shows i (.held shared) → shared.fanout.Within ws L m

namespace Store.Room

variable {i slot L m : Nat} {ws : Finset Nat} {st st' : Store} {s : Linked.Sequence}

theorem guard (i : Nat) (ws : Finset Nat) (L m : Nat) :
    Guard (Room i ws L m) fun j shared => j = i → shared.fanout.Within ws L m where
  record _ h := h
  lend {st j shared} h hj := by
    constructor
    · intro shared' hi
      rw [Shows, getElem?_setFanout] at hi
      split at hi
      · split at hi
        · cases hi
        · cases hi
      · exact h shared' hi
    · rintro rfl
      exact h shared hj
  leave slot h hj := (h hj).leave slot
  put {st j shared} h hshared := by
    intro shared' hi
    rw [Shows, getElem?_setFanout] at hi
    split at hi
    · next hj =>
      split at hi
      · cases hi
        exact hshared hj
      · cases hi
    · exact h shared' hi
  vacate {st j shared} h _ := by
    intro shared' hi
    rw [Shows, fanouts_record, getElem?_setFanout] at hi
    split at hi
    · split at hi <;> cases hi
    · exact h shared' hi
  lendCell h _ := ⟨h, h, fun _ => h⟩

theorem of_shows {shared : Shared} (hi : st.Shows i (.held shared))
    (h : shared.fanout.Within ws L m) : st.Room i ws L m := by
  intro shared' hi'
  cases hi.symm.trans hi'
  exact h

theorem pullBranch (h : st.Room i ws L m) {n : Nat} {x : Option Linked.Item}
    (hx : LazyCalc.pullBranch (Drive.ofFuel n) ⟨i, slot⟩ st = .ok (x, st')) :
    st'.Room i ws L m := by
  obtain ⟨shared, _, hi, hpulls, hi'⟩ := of_pullBranch hx
  exact of_shows hi' (hpulls.pulled.within (h shared hi))

theorem drop (h : st.Room i (insert slot ws) L m) (hs : s.origin = .branch ⟨i, slot⟩) {u : Unit}
    (hdrop : Engine.dropValues [.sequence s] st = .ok (u, st')) : st'.Room i ws L m := by
  obtain ⟨origin, hint, finished, hooks⟩ := s
  cases hs
  obtain ⟨shared, hi, hi'⟩ := of_drop_branch hdrop
  intro shared' hshared'
  rw [Shows, hi'] at hshared'
  split at hshared'
  · cases hshared'
  · cases hshared'
    exact (h shared hi).leave_insert

end Store.Room

end LazyCalc
