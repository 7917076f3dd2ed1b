import LazyCalc.Proofs.Desk.Moments
import LazyCalc.Proofs.Sharing.Carriers
/-!
A run meets no fault but that its fuel is spent: nothing that is in use is asked for again, and
nothing that is gone is asked for. After each run every slot and every cell is held for just those
that read it.
-/

namespace LazyCalc

namespace Store

def slotOf (st : Store) (p : Branch) : Option (Slot Linked.Item) :=
  match st.fanouts[p.fanout]? with
  | some (.held shared) => shared.fanout.slot? p.slot
  | _ => none

def holdersOf (st : Store) (i : Nat) : Nat :=
  match st.cells[i]? with
  | some (.held cell) => cell.holders
  | _ => 0

end Store

/-- Nothing is in use, and what is in a store is there for those on the desk and in the store that
read it, and for nobody else. -/
structure Tidy (st : Store) (desk : Linked.Desk) : Prop where
  fanoutIdle : ∀ i : Nat, st.fanouts[i]? ≠ some Place.lent
  cellIdle : ∀ i : Nat, st.cells[i]? ≠ some Place.lent
  /-- A branch has a slot as long as there is a sequence for it, of which there is one. -/
  branch : ∀ p, (st.assets + Desk.assets desk).count (.branch p) =
    if (st.slotOf p).isSome then 1 else 0
  fanout : ∀ (i : Nat) (shared : Shared), st.fanouts[i]? = some (.held shared) → ∃ slot, (st.slotOf ⟨i, slot⟩).isSome
  holders : ∀ i, (st.assets + Desk.assets desk).count (.cell i) = st.holdersOf i
  cell : ∀ (i : Nat) (cell : Cell), st.cells[i]? = some (.held cell) → 0 < st.holdersOf i

namespace Rests

variable {G : Ledger} {st : Store} {desk : Twins.Desk}

theorem not_lent {A : Twins.Parts} (h : Rests G st A) (i : Nat) :
    st.fanouts[i]? ≠ some Place.lent ∧ st.cells[i]? ≠ some Place.lent := by
  constructor
  · intro hi
    have := (h.sound.lentFanout i).mpr hi
    rw [h.idle] at this
    cases this
  · intro hi
    have := (h.sound.lentCell i).mpr hi
    rw [h.idle] at this
    cases this

theorem live_eq {A : Twins.Parts} (h : Rests G st A) (p : Branch) :
    G.live p = (st.slotOf p).isSome := by
  cases hp : st.fanouts[p.fanout]? with
  | none =>
    rw [Store.slotOf, hp]
    refine Bool.eq_false_of_not_eq_true fun hl => ?_
    obtain hl | ⟨shared, hl⟩ := h.sound.present p hl
    · cases hp.symm.trans hl
    · cases hp.symm.trans hl
  | some place =>
    cases place with
    | lent => exact absurd hp (h.not_lent _).1
    | held shared =>
      rw [Store.slotOf, hp]
      exact (h.sound.shared _ _ hp).1.live p.slot
    | vacant =>
      rw [Store.slotOf, hp]
      refine Bool.eq_false_of_not_eq_true fun hl => ?_
      obtain hl | ⟨shared, hl⟩ := h.sound.present p hl
      · cases hp.symm.trans hl
      · cases hp.symm.trans hl

theorem holders_eq {A : Twins.Parts} (h : Rests G st A) (i : Nat) :
    G.holders i = st.holdersOf i := by
  have hnone (hi : ∀ cell, st.cells[i]? ≠ some (.held cell)) : G.holders i = 0 := by
    by_contra hpos
    obtain hl | ⟨cell, hl⟩ := h.sound.occupied i (Nat.pos_of_ne_zero hpos)
    · exact (h.not_lent i).2 hl
    · exact hi cell hl
  cases hi : st.cells[i]? with
  | none =>
    rw [Store.holdersOf, hi]
    exact hnone (by simp [hi])
  | some place =>
    cases place with
    | lent => exact absurd hi (h.not_lent i).2
    | held cell =>
      rw [Store.holdersOf, hi]
      exact (h.sound.cell _ _ hi).holders.symm
    | vacant =>
      rw [Store.holdersOf, hi]
      exact hnone (by simp [hi])

theorem tidy (h : Rests G st (parts desk)) : Tidy st (left desk) where
  fanoutIdle i := (h.not_lent i).1
  cellIdle i := (h.not_lent i).2
  branch p := by
    rw [← ownedBy_desk, h.sound.branches, h.live_eq]
    cases (st.slotOf p).isSome <;> rfl
  fanout i shared hi := by
    obtain ⟨slot, hslot⟩ := Fanout.exists_slot (h.sound.shared i shared hi).2
    exact ⟨slot, by rwa [Store.slotOf, hi]⟩
  holders i := by rw [← ownedBy_desk, h.sound.holdings, h.holders_eq]
  cell i cell hi := by
    rw [Store.holdersOf, hi]
    exact (h.sound.cell i cell hi).held

end Rests

theorem Moment.tidy (M : Moment) : Tidy M.store M.desk := by
  obtain ⟨desk, G, hdesk, h, -⟩ := M.rests
  exact hdesk ▸ h.tidy

/-- However long it goes on, a run asks for nothing that is in use and for nothing that is gone, and
what has been dropped has left its place. -/
theorem Moment.run_faultless (M : Moment) (n : Nat) (acts : List (Nat × Act)) :
    Desk.runLinked n acts [M.desk] M.store = .error .outOfFuel ∨
      ∃ (replies : List (Nat × Showing)) (M' : Moment),
        Desk.runLinked n acts [M.desk] M.store = .ok ((replies, [M'.desk]), M'.store) ∧
        Tidy M'.store M'.desk := by
  obtain hx | ⟨replies, M', hx, -⟩ := M.run n acts
  · exact .inl hx
  · exact .inr ⟨replies, M', hx, M'.tidy⟩

end LazyCalc
