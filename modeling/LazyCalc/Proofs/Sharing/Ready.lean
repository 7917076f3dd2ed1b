import LazyCalc.Proofs.Sharing.Sound
/-!
A sound store with parts at hand, and what is reached from there: the frame around the parts stays
as it is, so that it is at hand again afterwards.
-/

namespace LazyCalc

/-- The parts `A` are at hand in a sound store, below `r`, with the frame `F` around them; what is
lent is not below `r`. -/
structure Ready (G : Ledger) (st : Store) (A : Twins.Parts) (F : Assets) (r : ℚ) : Prop where
  sound : Sound G st (ownedBy A + F)
  fits : Twins.Fits G A
  below : G.Below r (ownedBy A)
  guards : G.Guards r

/-- From `G` a store is reached where the parts `A` are at hand. -/
def Reaches (G : Ledger) (F : Assets) (r : ℚ) (A : Twins.Parts) (st : Store) : Prop :=
  ∃ G', Ready G' st A F r ∧ Evolves F G G'

namespace Ready

variable {G G' : Ledger} {st st' : Store} {A A' B : Twins.Parts} {F : Assets} {r : ℚ}

theorem reaches (h : Ready G st A F r) : Reaches G F r A st := ⟨G, h, .refl F G⟩

theorem focus (h : Ready G st (A + B) F r) : Ready G st A (ownedBy B + F) r where
  sound := by
    have := h.sound
    rwa [ownedBy_add, add_assoc] at this
  fits := (Twins.fits_add.mp h.fits).1
  below := (Ledger.below_add.mp (ownedBy_add A B ▸ h.below)).1
  guards := h.guards

theorem widen (h : Ready G st (A + B) F r) (h' : Ready G' st' A' (ownedBy B + F) r)
    (hG : Evolves (ownedBy B + F) G G') : Ready G' st' (A' + B) F r where
  sound := by
    have := h'.sound
    rwa [← add_assoc, ← ownedBy_add] at this
  fits := by
    refine Twins.fits_add.mpr ⟨h'.fits, ?_⟩
    exact (Twins.fits_add.mp h.fits).2.mono (hG.agrees.sub (Multiset.le_add_right _ _))
  below := by
    rw [ownedBy_add, Ledger.below_add]
    refine ⟨h'.below, hG.below (fun a ha x hx => h.sound.knows ?_ hx) ?_⟩
    · simp only [ownedBy_add, Multiset.mem_add]
      exact .inr (.inl (.inr ha))
    · exact (Ledger.below_add.mp (ownedBy_add A B ▸ h.below)).2
  guards := h'.guards

end Ready

namespace Reaches

variable {G G' : Ledger} {st st' : Store} {A A' B : Twins.Parts} {F : Assets} {r : ℚ}

theorem trans (hG : Evolves F G G') (h : Reaches G' F r A st) : Reaches G F r A st := by
  obtain ⟨G'', h, hG'⟩ := h
  exact ⟨G'', h, hG.trans hG'⟩

theorem frame (h : Ready G st (A + B) F r) (h' : Reaches G (ownedBy B + F) r A' st') :
    Reaches G F r (A' + B) st' := by
  obtain ⟨G', h', hG⟩ := h'
  exact ⟨G', h.widen h' hG, hG.sub (Multiset.le_add_left _ _)⟩

end Reaches

/-- Linked computations that always go through, with what the lone ones give; `P` is kept. -/
def serving (P : Ledger → Store → Prop) : Logic Engine Option Twins.Sequence Twins.Cell where
  Triple γ _ _ _ _ A X Y B := ∀ n G st F r, P G st → Ready G st A F r →
    ∃ (c : γ) (st' : Store), X n st = .ok (left c, st') ∧ Y n = some (right c) ∧
      ∃ G', Ready G' st' (parts c + B) F r ∧ Evolves F G G' ∧ P G' st'
  pure_parts := by
    intro γ α β _ _ c B n G st F r hP h
    exact ⟨c, st, rfl, rfl, G, h, .refl F G, hP⟩
  bind_parts := by
    intro γ α β γ' α' β' _ _ _ _ A B B' X Y f g hX hf n G st F r hP h
    obtain ⟨c, st', hx, hy, G', h', hG, hP'⟩ := hX n G st F r hP h
    obtain ⟨c', st'', hx', hy', G'', h'', hG', hP''⟩ := hf c n G' st' F r hP' h'
    exact ⟨c', st'', (Engine.bind_eq hx).trans hx', Option.bind_eq_some_iff.mpr ⟨_, hy, hy'⟩,
      G'', h'', hG.trans hG', hP''⟩
  frame := by
    intro γ α β _ _ A B X Y F' hX n G st F r hP h
    obtain ⟨c, st', hx, hy, G', h', hG, hP'⟩ := hX n G st _ r hP h.focus
    refine ⟨c, st', hx, hy, G', ?_, hG.sub (Multiset.le_add_left _ _), hP'⟩
    rw [← add_assoc]
    exact h.widen h' hG

end LazyCalc
