import LazyCalc.Proofs.Fanout.Simulation
namespace LazyCalc

namespace Readers

namespace Shares

variable {g : Generator} {i : Nat} {fanout : Fanout Linked.Item} {hooks : List String} {pool : Pool}
  {cs : Cursors} {st : Store} {r : Nat} {s : Linked.Sequence} {c : Cursor}

theorem single (st : Store) (hooks : List String) (fork : Linked.Sequence) (hv : cs.Valid g.answer) (hlt : r < pool.length)
    (hlength : pool.length = cs.cursors.length)
    (hpool : ∀ j, at? pool j = if j = r then some s else none)
    (hcursors : ∀ j, at? cs.cursors j = if j = r then some c else none)
    (hfork : fork.origin = .branch ⟨st.fanouts.size, 0⟩) (hfinished : fork.finished = c.finished)
    (hposition : c.position = cs.reached) :
    Shares g st.fanouts.size .single hooks (pool.set r (some fork)) cs
      (st.addFanout ⟨.generated (g.after cs.reached), .single, hooks⟩).2 := by
  have hset : ∀ j, at? (pool.set r (some fork)) j = if j = r then some fork else none := by
    intro j
    rw [at?_set hlt, hpool]
    split <;> rfl
  have hc : at? cs.cursors r = some c := by rw [hcursors, if_pos rfl]
  have hgoing : Fanout.done (.single : Fanout Linked.Item) = false := rfl
  refine ⟨?_, by simpa using hlength, ?_, ?_, ?_, ?_, by simp [hgoing], ?_⟩
  · rw [Store.getElem?_addFanout, if_pos rfl]
  · intro j
    rw [hset, hcursors]
    split <;> simp
  · intro j s₁ c₁ h₁ hk
    rw [hset] at h₁
    rw [hcursors] at hk
    split at h₁ <;> simp_all only [if_true, if_false]
    · obtain rfl := Option.some.inj h₁
      obtain rfl := Option.some.inj hk
      refine ⟨hfinished, 0, _, [], hfork, Fanout.slot?_single 0, rfl, fun _ => ?_⟩
      rw [hposition, behind_self]
    · cases h₁
  · intro j j' s₁ s₂ h₁ h₂ _
    rw [hset] at h₁ h₂
    split at h₁ <;> split at h₂ <;> simp_all
  · intro slot hslot
    rw [Fanout.slot?_single] at hslot
    split at hslot
    · next h0 => exact ⟨r, fork, by rw [hset, if_pos rfl], h0 ▸ hfork⟩
    · exact absurd rfl hslot
  · intro _ j c₁ hk hf k hlt'
    rw [hcursors] at hk
    split at hk
    · obtain rfl := Option.some.inj hk
      exact (hv.cursor hc).1 k (hposition ▸ hlt') (by simp [hf])
    · cases hk

theorem fork (h : Shares g i fanout hooks pool cs st) (hv : cs.Valid g.answer)
    (hs : at? pool r = some s) (hc : at? cs.cursors r = some c) (fuel : Nat) :
    ∃ s' other fanout' hooks' st', s.forkWithin (fuel + 1) st = .ok ((s', other), st') ∧
      Shares g i fanout' hooks' (pool.set r (some s') ++ [some other]) (cs.add c) st' := by
  have hread := h.reads hs hc
  obtain ⟨slot, t, items, horigin, ht, hitems, hback⟩ := hread.slot
  have hlt := Store.lt_of_getElem? h.held
  have hkept : Shares g i (fanout.setBacklog slot (items.map .ofPlain)) hooks
      (pool.set r (some { s with hooks := [] })) (cs.move r c)
      (st.setFanout i (.held ⟨.generated (g.after cs.reached),
        fanout.setBacklog slot (items.map .ofPlain), hooks⟩)) := by
    have hslot := fanout.slot?_setBacklog slot (items.map .ofPlain)
    refine h.moved hs hc horigin (by rw [move_self hc (hv.cursor hc).2]) ?_ rfl ?_ ?_ ?_ h.ended ?_
    · rw [Store.getElem?_setFanout, if_pos rfl, if_pos hlt]
    · intro j
      rw [hslot]
      split <;> simp
    · exact ⟨hread.finished, slot, _, items, horigin, by rw [hslot, if_pos rfl, ht]; rfl,
        by simp, hback⟩
    · intro r₁ s₁ c₁ slot₁ _ hne ho₁ hr
      obtain ⟨t₁, items₁, ht₁, hi₁, hb₁⟩ := hr.slot_of ho₁
      exact ⟨hr.finished, slot₁, t₁, items₁, ho₁, by rw [hslot, if_neg hne, ht₁], hi₁, hb₁⟩
    · rintro hd ⟨r₁, c₁, h₁, hf₁⟩
      rw [move_self hc (hv.cursor hc).2] at h₁
      exact h.going hd h₁ hf₁
  rw [move_self hc (hv.cursor hc).2] at hkept
  have hself : at? (pool.set r (some { s with hooks := [] })) r = some { s with hooks := [] } := by
    simp [at?_set (lt_of_at? hs)]
  have hslot : (fanout.setBacklog slot (items.map .ofPlain)).slot? slot =
      some { t with backlog := .ofList (items.map .ofPlain) } := by
    rw [Fanout.slot?_setBacklog, if_pos rfl, ht]
    rfl
  have hnew := hkept.joined hself hc horigin hslot
    { s with
      origin := .branch ⟨i, ((fanout.setBacklog slot (items.map .ofPlain)).join (items.map .ofPlain)).1⟩,
      hooks := [] }
    (hooks ++ s.hooks) (by simp) rfl
  refine ⟨_, _, _, _, _, ?_, hnew⟩
  simp only [Sequence.forkWithin, horigin]
  rw [Engine.bind_eq (Engine.lendFanout_eq h.held)]
  simp only [Fanout.backlog_eq ht, hitems, Item.copyListWith_ofPlain, pure_bind]
  rw [Engine.bind_eq rfl]
  simp

section

variable {slot : Nat} (h : Shares g i fanout hooks pool cs st) (hs : at? pool r = some s)
  (hc : at? cs.cursors r = some c) (horigin : s.origin = .branch ⟨i, slot⟩)

include h hs horigin

theorem reads_leave {r₁ : Nat} {s₁ : Linked.Sequence} {c₁ : Cursor} (hne : r₁ ≠ r)
    (h₁ : at? pool r₁ = some s₁) (hk : at? cs.cursors r₁ = some c₁) :
    Reads g i (fanout.leave slot) cs.reached s₁ c₁ := by
  have hread := h.reads h₁ hk
  obtain ⟨slot₁, t₁, items₁, ho₁, ht₁, hi₁, hb₁⟩ := hread.slot
  have hslot : slot₁ ≠ slot := by
    rintro rfl
    exact hne (h.apart h₁ hs (ho₁.trans horigin.symm))
  refine ⟨hread.finished, slot₁, t₁, items₁, ho₁, ?_, hi₁, hb₁⟩
  rw [Fanout.slot?_leave, if_neg hslot, ht₁]

theorem at?_of_isDeserted (hd : (fanout.leave slot).isDeserted = true) (j : Nat) :
    at? (pool.set r none) j = none := by
  rw [at?_set (lt_of_at? hs)]
  split
  · rfl
  · next hne =>
    cases h₁ : at? pool j with
    | none => rfl
    | some s₁ =>
      obtain ⟨c₁, hk⟩ := h.cursor_of h₁
      obtain ⟨slot₁, t₁, -, -, ht₁, -⟩ := (h.reads_leave hs horigin hne h₁ hk).slot
      rw [(Fanout.isDeserted_iff _).mp hd slot₁] at ht₁
      cases ht₁

include hc

theorem removed {st' : Store} (held : st'.fanouts[i]? =
      some (.held ⟨.generated (g.after cs.reached), fanout.leave slot, hooks⟩)) :
    Shares g i (fanout.leave slot) hooks (pool.set r none) (cs.remove r) st' := by
  have hpool := at?_set (lt_of_at? hs) none
  have hcs : ∀ j, at? (cs.remove r).cursors j = if j = r then none else at? cs.cursors j :=
    at?_set (lt_of_at? hc) none
  have hleave := fanout.slot?_leave slot
  refine ⟨held, by simpa [Cursors.remove] using h.length_eq, ?_, ?_, ?_, ?_, h.ended, ?_⟩
  · intro j
    rw [hpool, hcs]
    split
    · simp
    · exact h.alive j
  · intro j s₁ c₁ h₁ hk
    rw [hpool] at h₁
    rw [hcs] at hk
    split at h₁
    · cases h₁
    · next hne =>
      rw [if_neg hne] at hk
      exact h.reads_leave hs horigin hne h₁ hk
  · intro j j' s₁ s₂ h₁ h₂ heq
    rw [hpool] at h₁ h₂
    split at h₁
    · cases h₁
    · split at h₂
      · cases h₂
      · exact h.apart h₁ h₂ heq
  · intro j hj
    rw [hleave] at hj
    split at hj
    · exact absurd rfl hj
    · next hne =>
      obtain ⟨r₁, s₁, h₁, ho₁⟩ := h.owned j hj
      refine ⟨r₁, s₁, ?_, ho₁⟩
      rw [hpool, if_neg, h₁]
      rintro rfl
      obtain rfl := Option.some.inj (hs.symm.trans h₁)
      exact hne (by simpa using ho₁.symm.trans horigin)
  · intro hd r₁ c₁ h₁ hf₁
    rw [hcs] at h₁
    split at h₁
    · cases h₁
    · exact h.going hd h₁ hf₁

end

theorem drop (h : Shares g i fanout hooks pool cs st) (hs : at? pool r = some s)
    (hc : at? cs.cursors r = some c) :
    ∃ st', Engine.dropValues [.sequence s] st = .ok ((), st') ∧
      ((∀ j, at? (pool.set r none) j = none) ∨
        ∃ fanout', Shares g i fanout' hooks (pool.set r none) (cs.remove r) st') := by
  obtain ⟨slot, t, items, horigin, ht, hitems, -⟩ := (h.reads hs hc).slot
  obtain ⟨origin, hint, finished, hooks₁⟩ := s
  obtain rfl : origin = .branch ⟨i, slot⟩ := horigin
  -- What is left to drop when the backlog is gone, which has nothing but plain items.
  have hrelease : release [.sequence ⟨.branch ⟨i, slot⟩, hint, finished, hooks₁⟩] st =
      release [.fanout i ⟨.generated (g.after cs.reached), fanout.leave slot, hooks⟩]
        ((st.record (hooks₁.map .closed)).setFanout i .lent) := by
    rw [release_branch h.held, Fanout.backlog_eq ht, hitems, release_ofPlainItems]
  cases hd : (fanout.leave slot).isDeserted with
  | true =>
    have hlast := hrelease.trans
      ((release_fanout_last hd).trans ((release_generated _ _ _).trans (release_nil _)))
    exact ⟨_, Engine.dropValues_sequence hlast, .inl (h.at?_of_isDeserted hs rfl hd)⟩
  | false =>
    have hleft := hrelease.trans ((release_fanout (by simp [hd])).trans (release_nil _))
    refine ⟨_, Engine.dropValues_sequence hleft, .inr ⟨fanout.leave slot, h.removed hs hc rfl ?_⟩⟩
    simp [Store.setFanout, Store.record, Store.lt_of_getElem? h.held]

end Shares

end Readers

end LazyCalc
