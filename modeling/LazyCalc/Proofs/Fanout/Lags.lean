import LazyCalc.Proofs.Engine.Places
import LazyCalc.Proofs.Fanout.Slots
/-!
The warnings of a pull. They are those of the branches that it has brought to their thresholds, in
the order of the slots.
-/

namespace LazyCalc.Fanout

structure Warns {α : Type} (slot : Nat) (f g : Fanout α) (lags : List Lag) : Prop where
  ordered : lags.Pairwise fun a b => a.slot < b.slot
  others : ∀ lag ∈ lags, lag.slot ≠ slot
  mem_iff : ∀ lag, lag ∈ lags ↔ ∃ s t, f.slot? lag.slot = some s ∧ g.slot? lag.slot = some t ∧
    t.backlog.length = s.backlog.length + 1 ∧ s.warnAt ≤ t.backlog.length ∧
    lag.length = t.backlog.length

/-- A warning is due in one of the slots, which are numbered from `k`, as an item comes into all of
them but the puller's. -/
def Due {α : Type} (puller k : Nat) (slots : List (Option (Slot α))) (lag : Lag) : Prop :=
  ∃ j s, slots[j]?.join = some s ∧ k + j ≠ puller ∧ s.warnAt ≤ s.backlog.length + 1 ∧
    lag = ⟨k + j, s.backlog.length + 1⟩

section

variable {α : Type} {puller k : Nat} {slots slots' : List (Option (Slot α))} {lag : Lag}

theorem due_cons {t : Option (Slot α)} : Due puller k (t :: slots) lag ↔
    (∃ s, t = some s ∧ k ≠ puller ∧ s.warnAt ≤ s.backlog.length + 1 ∧
      lag = ⟨k, s.backlog.length + 1⟩) ∨ Due puller (k + 1) slots lag := by
  have hshift (j : Nat) : k + 1 + j = k + (j + 1) := by omega
  constructor
  · rintro ⟨_ | j, s, hs, hlag⟩
    · exact .inl ⟨s, hs, hlag⟩
    · exact .inr ⟨j, s, hs, hshift j ▸ hlag⟩
  · rintro (⟨s, rfl, hlag⟩ | ⟨j, s, hs, hlag⟩)
    · exact ⟨0, s, rfl, hlag⟩
    · exact ⟨j + 1, s, hs, hshift j ▸ hlag⟩

theorem lags_of_deliver {copy : α → Engine (α × α)} {x x' : α} {lags : List Lag} {st st' : Store}
    (h : deliver copy puller x k slots st = .ok ((x', slots', lags), st')) :
    lags.Pairwise (fun a b => a.slot < b.slot) ∧ ∀ lag, lag ∈ lags ↔ Due puller k slots lag := by
  -- the slots are numbered from `k`, so that what is due further on has a greater number
  induction slots generalizing k x slots' lags st with
  | nil =>
    cases h
    exact ⟨.nil, fun lag => ⟨nofun, fun ⟨_, _, hs, _⟩ => nomatch hs⟩⟩
  | cons t slots ih =>
    simp only [due_cons]
    cases t with
    | none =>
      obtain ⟨⟨x₁, slots₁, lags₁⟩, st₁, hrest, h⟩ := Engine.of_bind_ok h
      cases h
      simpa using ih hrest
    | some s =>
      rw [deliver] at h
      by_cases hk : k = puller
      · rw [if_pos hk] at h
        obtain ⟨⟨x₁, slots₁, lags₁⟩, st₁, hrest, h⟩ := Engine.of_bind_ok h
        cases h
        simpa [hk] using ih hrest
      · rw [if_neg hk] at h
        obtain ⟨⟨x₁, other⟩, st₁, hcopy, h⟩ := Engine.of_bind_ok h
        have hlength := length_push_backlog s other
        have hdue := due_push s other
        dsimp only at h
        obtain ⟨s', due⟩ := s.push other
        obtain ⟨⟨x₂, slots₂, lags₂⟩, st₂, hrest, h⟩ := Engine.of_bind_ok h
        cases h
        obtain ⟨hordered, hmem⟩ := ih hrest
        by_cases hreach : s.warnAt ≤ s.backlog.length + 1
        · rw [hdue, if_pos (decide_eq_true hreach), hlength]
          refine ⟨List.pairwise_cons.mpr ⟨fun lag hlag => ?_, hordered⟩, fun lag => ?_⟩
          · obtain ⟨j, -, -, -, -, rfl⟩ := (hmem lag).mp hlag
            exact Nat.lt_of_lt_of_le (Nat.lt_succ_self k) (Nat.le_add_right _ j)
          · simp [hmem, hk, hreach]
        · rw [hdue, if_neg (by simpa using hreach)]
          simpa [hreach] using ⟨hordered, hmem⟩

end

namespace Warns

variable {α : Type} {slot : Nat} {f g : Fanout α} {lags : List Lag}

theorem nil (h : ∀ j s t, f.slot? j = some s → g.slot? j = some t →
    t.backlog.length ≤ s.backlog.length) : Warns slot f g [] where
  ordered := .nil
  others := nofun
  mem_iff lag := by
    refine ⟨nofun, ?_⟩
    rintro ⟨s, t, hs, ht, hlength, -⟩
    have := h _ s t hs ht
    omega

theorem of_pop {item : α} (hpop : f.pop? slot = some (item, g)) : Warns slot f g [] := by
  obtain ⟨-, s, t, hs, hitems, -, hslots⟩ := pop?_eq_some hpop
  refine .nil fun j s' t' hs' ht' => ?_
  rw [hslots] at ht'
  split at ht'
  · next hj =>
    rw [hj, hs] at hs'
    cases hs'
    cases ht'
    rw [← Backlog.length_toList, ← Backlog.length_toList, hitems]
    exact Nat.le_succ _
  · cases hs'.symm.trans ht'
    exact Nat.le_refl _

theorem of_slots_eq (hslots : g.slots = f.slots) : Warns slot f g [] := by
  refine .nil fun j s t hs ht => ?_
  rw [slot?, hslots] at ht
  cases hs.symm.trans ht
  exact Nat.le_refl _

theorem of_push (hown : g.slot? slot = f.slot? slot)
    (hother : ∀ j s, j ≠ slot → f.slot? j = some s → ∃ item, g.slot? j = some (s.push item).1)
    (hordered : lags.Pairwise fun a b => a.slot < b.slot)
    (hlags : ∀ lag, lag ∈ lags ↔ Due slot 0 f.slots lag) : Warns slot f g lags where
  ordered := hordered
  others lag hlag := by
    obtain ⟨j, -, -, hne, -, rfl⟩ := (hlags lag).mp hlag
    exact hne
  mem_iff lag := by
    simp only [hlags, Due, Nat.zero_add]
    constructor
    · rintro ⟨j, s, hs, hne, hdue, rfl⟩
      obtain ⟨item, ht⟩ := hother j s hne hs
      have hlength := length_push_backlog s item
      exact ⟨s, _, hs, ht, hlength, hlength ▸ hdue, hlength.symm⟩
    · rintro ⟨s, t, hs, ht, hlength, hdue, hlag⟩
      refine ⟨lag.slot, s, hs, ?_, hlength ▸ hdue, by rw [← hlength, ← hlag]⟩
      intro hslot
      rw [hslot, hown, ← hslot, hs] at ht
      cases ht
      exact (Nat.succ_ne_self _) hlength.symm

end Warns

end LazyCalc.Fanout
