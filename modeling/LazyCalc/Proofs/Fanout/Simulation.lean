import LazyCalc.Proofs.Engine.Dropping
import LazyCalc.Proofs.Fanout.Branches
/-!
Readers beside cursors. The backlog of a branch is what lies between its cursor and the one that has
come furthest; everything that can be done with a reader keeps it so.
-/

namespace LazyCalc

namespace Readers

/-- A branch stands for a cursor: it lags behind with plain items, and unless it has finished these
are the ones between the cursor and the one that has come furthest. -/
structure Reads (g : Generator) (i : Nat) (fanout : Fanout Linked.Item) (reached : Nat)
    (s : Linked.Sequence) (c : Cursor) : Prop where
  finished : s.finished = c.finished
  slot : ∃ slot t items, s.origin = .branch ⟨i, slot⟩ ∧ fanout.slot? slot = some t ∧
    t.backlog.toList = items.map .ofPlain ∧
    (c.finished = false → items = behind g.answer c.position reached)

theorem Reads.slot_of {g : Generator} {i slot reached : Nat} {fanout : Fanout Linked.Item}
    {s : Linked.Sequence} {c : Cursor} (h : Reads g i fanout reached s c)
    (ho : s.origin = .branch ⟨i, slot⟩) : ∃ t items, fanout.slot? slot = some t ∧
      t.backlog.toList = items.map .ofPlain ∧
      (c.finished = false → items = behind g.answer c.position reached) := by
  obtain ⟨slot', t, items, ho', ht, hi, hb⟩ := h.slot
  obtain rfl : slot' = slot := by
    have := ho'.symm.trans ho
    simpa using this
  exact ⟨t, items, ht, hi, hb⟩

/-- Readers that share the fan-out `i` stand for the cursors of the same numbers. -/
structure Shares (g : Generator) (i : Nat) (fanout : Fanout Linked.Item)
    (hooks : List String) (pool : Pool) (cs : Cursors) (st : Store) : Prop where
  held : st.fanouts[i]? = some (.held ⟨.generated (g.after cs.reached), fanout, hooks⟩)
  length_eq : pool.length = cs.cursors.length
  alive : ∀ r, at? pool r = none ↔ at? cs.cursors r = none
  reads : ∀ {r s c}, at? pool r = some s → at? cs.cursors r = some c →
    Reads g i fanout cs.reached s c
  apart : ∀ {r r' s s'}, at? pool r = some s → at? pool r' = some s' → s.origin = s'.origin →
    r = r'
  owned : ∀ slot, fanout.slot? slot ≠ none → ∃ r s, at? pool r = some s ∧ s.origin = .branch ⟨i, slot⟩
  ended : fanout.done = true → ∃ k, cs.reached = k + 1 ∧ ¬ Delivers g.answer k
  going : fanout.done = false → ∀ {r c}, at? cs.cursors r = some c → c.finished = false →
    ∀ k < cs.reached, Delivers g.answer k

namespace Shares

variable {g : Generator} {i : Nat} {fanout fanout' : Fanout Linked.Item}
  {hooks : List String} {pool : Pool} {cs : Cursors} {st st' : Store} {r : Nat} {s s' : Linked.Sequence}
  {c c' : Cursor}

theorem cursor_of (h : Shares g i fanout hooks pool cs st) (hs : at? pool r = some s) :
    ∃ c, at? cs.cursors r = some c :=
  Option.ne_none_iff_exists'.mp fun hn => by simp [(h.alive r).mpr hn] at hs

theorem moved (h : Shares g i fanout hooks pool cs st) (hs : at? pool r = some s)
    (hc : at? cs.cursors r = some c) {slot : Nat} (horigin : s.origin = .branch ⟨i, slot⟩)
    {reached : Nat} (hreached : (cs.move r c').reached = reached)
    (held : st'.fanouts[i]? = some (.held ⟨.generated (g.after reached), fanout', hooks⟩))
    (origin : s'.origin = s.origin)
    (live : ∀ j, fanout'.slot? j = none ↔ fanout.slot? j = none)
    (self : Reads g i fanout' reached s' c')
    (others : ∀ {r₁ s₁ c₁ slot₁}, at? cs.cursors r₁ = some c₁ → slot₁ ≠ slot →
      s₁.origin = .branch ⟨i, slot₁⟩ → Reads g i fanout cs.reached s₁ c₁ →
      Reads g i fanout' reached s₁ c₁)
    (ended : fanout'.done = true → ∃ k, reached = k + 1 ∧ ¬ Delivers g.answer k)
    (going : fanout'.done = false → (∃ r₁ c₁, at? (cs.move r c').cursors r₁ = some c₁ ∧
      c₁.finished = false) → ∀ k < reached, Delivers g.answer k) :
    Shares g i fanout' hooks (pool.set r (some s')) (cs.move r c') st' := by
  subst hreached
  have hpool := at?_set (lt_of_at? hs) (some s')
  have hcs : ∀ j, at? (cs.move r c').cursors j = if j = r then some c' else at? cs.cursors j :=
    at?_set (lt_of_at? hc) (some c')
  refine ⟨held, by simpa [Cursors.move] using h.length_eq, ?_, ?_, ?_, ?_, ended,
    fun hd _ _ h₁ hf₁ => going hd ⟨_, _, h₁, hf₁⟩⟩
  · intro j
    rw [hpool, hcs]
    split
    · simp
    · exact h.alive j
  · intro j s₁ c₁ h₁ hk
    rw [hpool] at h₁
    rw [hcs] at hk
    split at h₁ <;> simp_all only [if_true, if_false]
    · obtain rfl := Option.some.inj h₁
      obtain rfl := Option.some.inj hk
      exact self
    · next hj =>
      have hread := h.reads h₁ hk
      obtain ⟨slot₁, -, -, horigin₁, -⟩ := hread.slot
      refine others hk ?_ horigin₁ hread
      rintro rfl
      exact hj (h.apart h₁ hs (horigin₁.trans horigin.symm))
  · intro j j' s₁ s₂ h₁ h₂ heq
    rw [hpool] at h₁ h₂
    split at h₁ <;> split at h₂
    · simp_all
    · obtain rfl := Option.some.inj h₁
      subst_vars
      exact h.apart hs h₂ (origin ▸ heq)
    · obtain rfl := Option.some.inj h₂
      subst_vars
      exact h.apart h₁ hs (origin ▸ heq)
    · exact h.apart h₁ h₂ heq
  · intro j hj
    obtain ⟨r₁, s₁, h₁, ho⟩ := h.owned j (fun hn => hj ((live j).mpr hn))
    by_cases hr : r₁ = r
    · subst hr
      rw [hs] at h₁
      obtain rfl := Option.some.inj h₁
      exact ⟨r₁, s', by simp [hpool], origin.trans ho⟩
    · exact ⟨r₁, s₁, by simp [hpool, hr, h₁], ho⟩

theorem pull_of_lt (h : Shares g i fanout hooks pool cs st) (hs : at? pool r = some s)
    (hc : at? cs.cursors r = some c) (hf : c.finished = false) {slot : Nat} {x : PlainItem}
    (horigin : s.origin = .branch ⟨i, slot⟩) (hlt : c.position < cs.reached)
    (hx : g.answer c.position = some x) (d : Linked.Drive) :
    ∃ fanout' st', pullBranch d ⟨i, slot⟩ st = .ok (some (.ofPlain x), st') ∧
      ∀ {s'}, s'.origin = s.origin → s'.finished = (c.step g.answer).2.finished →
        Shares g i fanout' hooks (pool.set r (some s')) (cs.move r (c.step g.answer).2) st' := by
  obtain ⟨t, items, ht, hitems, hback⟩ := (h.reads hs hc).slot_of horigin
  rw [hback hf, behind_of_lt hlt, hx] at hitems
  cases hp : fanout.pop? slot with
  | none =>
    rw [Fanout.pop?_eq_none_iff, Fanout.backlog_eq ht, hitems] at hp
    simp at hp
  | some popped =>
    obtain ⟨item, fanout'⟩ := popped
    obtain ⟨hdone, t₀, u, ht₀, hu, -, hslots⟩ := Fanout.pop?_eq_some hp
    obtain rfl := Option.some.inj (ht.symm.trans ht₀)
    rw [hitems] at hu
    simp only [Option.toList_some, List.singleton_append, List.map_cons, List.cons.injEq] at hu
    obtain ⟨rfl, hu⟩ := hu
    refine ⟨fanout', _, pullBranch_of_pop h.held hp, ?_⟩
    intro s' ho hfin
    have hstep : (c.step g.answer).2 = ⟨c.position + 1, Cursor.stops (some x)⟩ := by
      simp [Cursor.step, hf, hx]
    have hreached : (cs.move r (c.step g.answer).2).reached = cs.reached := by
      simp only [Cursors.move, hstep]
      omega
    refine h.moved hs hc horigin hreached ?_ ho ?_ ?_ ?_ ?_ ?_
    · rw [Store.getElem?_setFanout, if_pos rfl, if_pos (Store.lt_of_getElem? h.held)]
    · intro j
      rw [hslots]
      split
      · next hj => subst hj; simp [ht]
      · rfl
    · refine ⟨hfin, slot, u, _, ho.trans horigin, by simp [hslots], hu.symm, ?_⟩
      intro _
      rw [hstep]
    · intro r₁ s₁ c₁ slot₁ _ hne ho₁ hr
      obtain ⟨t₁, items₁, ht₁, hi₁, hb₁⟩ := hr.slot_of ho₁
      exact ⟨hr.finished, slot₁, t₁, items₁, ho₁, by simp [hslots, hne, ht₁], hi₁, hb₁⟩
    · rw [hdone]
      exact h.ended
    · rw [hdone]
      intro hd _
      exact h.going hd hc hf

theorem pull_of_passed (h : Shares g i fanout hooks pool cs st) (hv : cs.Valid g.answer)
    (hs : at? pool r = some s) (hc : at? cs.cursors r = some c) (hf : c.finished = false)
    {slot : Nat} (horigin : s.origin = .branch ⟨i, slot⟩) (hlt : c.position < cs.reached)
    (hx : g.answer c.position = none) (d : Linked.Drive) :
    ∃ st', pullBranch d ⟨i, slot⟩ st = .ok (none, st') ∧
      ∀ {s'}, s'.origin = s.origin → s'.finished = (c.step g.answer).2.finished →
        Shares g i fanout hooks (pool.set r (some s')) (cs.move r (c.step g.answer).2) st' := by
  obtain ⟨t, items, ht, hitems, hback⟩ := (h.reads hs hc).slot_of horigin
  have hend : ¬ Delivers g.answer c.position := by
    rintro ⟨v, hv⟩
    rw [hx] at hv
    cases hv
  have hlast : c.position + 1 = cs.reached := by
    rcases Nat.lt_or_ge (c.position + 1) cs.reached with hlt' | hge
    · exact absurd (hv.reached c.position hlt') hend
    · omega
  have hdone : fanout.done = true := by
    cases hd : fanout.done with
    | true => rfl
    | false => exact absurd (h.going hd hc hf c.position hlt) hend
  have hp : fanout.pop? slot = none := by
    rw [Fanout.pop?_eq_none_iff, Fanout.backlog_eq ht, hitems, hback hf, behind_of_lt hlt, hx,
      hlast, behind_self]
    rfl
  refine ⟨_, pullBranch_of_done h.held hp hdone, ?_⟩
  intro s' ho hfin
  have hstep : (c.step g.answer).2 = ⟨c.position + 1, true⟩ := by
    simp [Cursor.step, hf, hx, Cursor.stops]
  have hreached : (cs.move r (c.step g.answer).2).reached = cs.reached := by
    simp only [Cursors.move, hstep]
    omega
  refine h.moved hs hc horigin hreached ?_ ho ?_ ?_ ?_ ?_ ?_
  · rw [Store.getElem?_setFanout, if_pos rfl, if_pos (Store.lt_of_getElem? h.held)]
  · simp
  · exact ⟨hfin, slot, t, items, ho.trans horigin, ht, hitems, by simp [hstep]⟩
  · intro r₁ s₁ c₁ slot₁ _ _ _ hr
    exact hr
  · exact h.ended
  · simp [hdone]

section

variable (h : Shares g i fanout hooks pool cs st) (hv : cs.Valid g.answer) (hs : at? pool r = some s)
  (hc : at? cs.cursors r = some c) (hf : c.finished = false) {slot : Nat}
  (horigin : s.origin = .branch ⟨i, slot⟩) (heq : c.position = cs.reached)

include hv hc hf heq in
theorem delivers_of_eq : ∀ k < cs.reached, Delivers g.answer k :=
  fun k hk => (hv.cursor hc).1 k (by omega) (by simp [hf])

include h hv hc hf heq in
theorem done_of_eq : fanout.done = false := by
  cases hd : fanout.done with
  | false => rfl
  | true =>
    obtain ⟨k, hk, hn⟩ := h.ended hd
    exact absurd (delivers_of_eq hv hc hf heq k (by omega)) hn

include h hs hc hf horigin heq in
theorem pop?_of_eq : fanout.pop? slot = none := by
  obtain ⟨t, items, ht, hitems, hback⟩ := (h.reads hs hc).slot_of horigin
  rw [Fanout.pop?_eq_none_iff, Fanout.backlog_eq ht, hitems, hback hf, heq, behind_self]
  rfl

include hf heq in
theorem reached_of_eq : (cs.move r (c.step g.answer).2).reached = cs.reached + 1 := by
  simp only [Cursors.move, Cursor.step, hf, Bool.false_eq_true, if_false]
  omega

include h hv hs hc hf horigin heq

theorem pull_of_last (hx : g.answer c.position = none) (d : Linked.Drive) :
    ∃ fanout' st', pullBranch d ⟨i, slot⟩ st = .ok (none, st') ∧
      ∀ {s'}, s'.origin = s.origin → s'.finished = (c.step g.answer).2.finished →
        Shares g i fanout' hooks (pool.set r (some s')) (cs.move r (c.step g.answer).2) st' := by
  obtain ⟨t, items, ht, hitems, -⟩ := (h.reads hs hc).slot_of horigin
  have hstep : (c.step g.answer).2 = ⟨c.position + 1, true⟩ := by
    simp [Cursor.step, hf, hx, Cursor.stops]
  have hsource (st : Store) : Source.step d (.generated (g.after cs.reached)) st =
      .ok ((none, .generated (g.after (cs.reached + 1))), st) := by
    change Except.ok ((Option.map Item.ofPlain (g.answer cs.reached), _), st) = _
    rw [← heq, hx]
    rfl
  have hbehind {c₁ : Cursor} (hle : c₁.position ≤ cs.reached) :
      behind g.answer c₁.position (cs.reached + 1) = behind g.answer c₁.position cs.reached := by
    rw [behind_succ hle, ← heq, hx]
    exact List.append_nil _
  refine ⟨{ fanout with done := true }, _, pullBranch_of_end h.held
    (pop?_of_eq h hs hc hf horigin heq) (done_of_eq h hv hc hf heq) (hsource _), ?_⟩
  intro s' ho hfin
  refine h.moved hs hc horigin (reached_of_eq hf heq) ?_ ho (fun _ => Iff.rfl) ?_ ?_ ?_
    (fun hdone => Bool.noConfusion hdone)
  · simp [Store.setFanout, Store.lt_of_getElem? h.held]
  · exact ⟨hfin, slot, t, items, ho.trans horigin, ht, hitems, by simp [hstep]⟩
  · intro r₁ s₁ c₁ slot₁ hk _ ho₁ hr
    obtain ⟨t₁, items₁, ht₁, hi₁, hb₁⟩ := hr.slot_of ho₁
    exact ⟨hr.finished, slot₁, t₁, items₁, ho₁, ht₁, hi₁, by rwa [hbehind (hv.cursor hk).2]⟩
  · intro _
    refine ⟨cs.reached, rfl, ?_⟩
    rw [← heq, ← Cursor.stops_eq_false_iff, hx]
    simp [Cursor.stops]

theorem pull_of_new {x : PlainItem} (hx : g.answer c.position = some x) (d : Linked.Drive) :
    ∃ fanout' st', pullBranch d ⟨i, slot⟩ st = .ok (some (.ofPlain x), st') ∧
      ∀ {s'}, s'.origin = s.origin → s'.finished = (c.step g.answer).2.finished →
        Shares g i fanout' hooks (pool.set r (some s')) (cs.move r (c.step g.answer).2) st' := by
  obtain ⟨t, items, ht, hitems, hback⟩ := (h.reads hs hc).slot_of horigin
  have hstep : (c.step g.answer).2 = ⟨c.position + 1, Cursor.stops (some x)⟩ := by
    simp [Cursor.step, hf, hx]
  have hsource (st : Store) : Source.step d (.generated (g.after cs.reached)) st =
      .ok ((some (.ofPlain x), .generated (g.after (cs.reached + 1))), st) := by
    change Except.ok ((Option.map Item.ofPlain (g.answer cs.reached), _), st) = _
    rw [← heq, hx]
    rfl
  have hfailed : Item.isFailure (.ofPlain x : Linked.Item) = Cursor.stops (some x) := by
    cases x <;> rfl
  obtain ⟨slots, lags, hd, hslots⟩ := Fanout.deliver_of_copy
    (Item.copyWith_ofPlain d.fork x) slot 0 fanout.slots
  have hslot (j : Nat) :
      (⟨slots, Item.isFailure (.ofPlain x : Linked.Item)⟩ : Fanout Linked.Item).slot? j =
        if j = slot then fanout.slot? j
        else (fanout.slot? j).map fun t => (t.push (.ofPlain x)).1 := by
    simpa [Fanout.slot?] using hslots j
  refine ⟨⟨slots, Item.isFailure (.ofPlain x : Linked.Item)⟩, _, pullBranch_of_item h.held
    (pop?_of_eq h hs hc hf horigin heq) (done_of_eq h hv hc hf heq) (hsource _)
    (by rw [hd]; rfl), ?_⟩
  intro s' ho hfin
  refine h.moved hs hc horigin (reached_of_eq hf heq) ?_ ho ?_ ?_ ?_ ?_ ?_
  · simp [Store.setFanout, Store.record, Store.lt_of_getElem? h.held]
  · intro j
    rw [hslot]
    split <;> simp
  · refine ⟨hfin, slot, t, items, ho.trans horigin, by rw [hslot, if_pos rfl, ht], hitems, ?_⟩
    intro _
    rw [hstep, hback hf, ← heq, behind_self, behind_self]
  · intro r₁ s₁ c₁ slot₁ hk hne ho₁ hr
    obtain ⟨t₁, items₁, ht₁, hi₁, hb₁⟩ := hr.slot_of ho₁
    refine ⟨hr.finished, slot₁, _, items₁ ++ [x], ho₁, by rw [hslot, if_neg hne, ht₁]; rfl, ?_, ?_⟩
    · simp [hi₁]
    · intro hf₁
      rw [hb₁ hf₁, behind_succ (hv.cursor hk).2, ← heq, hx]
      rfl
  · intro hfail
    refine ⟨cs.reached, rfl, ?_⟩
    rw [← heq, ← Cursor.stops_eq_false_iff, hx, ← hfailed]
    simpa using hfail
  · intro hfail _ k hk
    rcases Nat.lt_succ_iff_lt_or_eq.mp hk with hlt | rfl
    · exact delivers_of_eq hv hc hf heq k hlt
    · rw [← heq, ← Cursor.stops_eq_false_iff, hx, ← hfailed]
      exact hfail

end

theorem move_self (hc : at? cs.cursors r = some c) (hle : c.position ≤ cs.reached) :
    cs.move r c = cs := by
  simp only [Cursors.move, set_of_at? hc, Nat.max_eq_left hle]

theorem pull (h : Shares g i fanout hooks pool cs st) (hv : cs.Valid g.answer)
    (hs : at? pool r = some s) (hc : at? cs.cursors r = some c) (d : Linked.Drive) :
    ∃ s' fanout' st', s.step d (pullBranch d) st = .ok (((c.step g.answer).1.map .ofPlain, s'), st') ∧
      Shares g i fanout' hooks (pool.set r (some s')) (cs.move r (c.step g.answer).2) st' := by
  have hread := h.reads hs hc
  obtain ⟨slot, -, -, horigin, -⟩ := hread.slot
  cases hf : c.finished with
  | true =>
    have hstep : c.step g.answer = (none, c) := by simp [Cursor.step, hf]
    refine ⟨s, fanout, st, by rw [hstep]; exact Sequence.step_of_finished (hread.finished.trans hf), ?_⟩
    rw [hstep, set_of_at? hs, move_self hc (hv.cursor hc).2]
    exact h
  | false =>
    have hitem : (c.step g.answer).1 = g.answer c.position := by simp [Cursor.step, hf]
    have hfin : (c.step g.answer).2.finished = Cursor.stops (g.answer c.position) := by
      simp [Cursor.step, hf]
    have hpull : ∃ fanout' st', pullBranch d ⟨i, slot⟩ st =
        .ok ((g.answer c.position).map .ofPlain, st') ∧
        ∀ {s'}, s'.origin = s.origin → s'.finished = (c.step g.answer).2.finished →
          Shares g i fanout' hooks (pool.set r (some s')) (cs.move r (c.step g.answer).2) st' := by
      rcases Nat.lt_or_ge c.position cs.reached with hlt | hge
      · cases hx : g.answer c.position with
        | none =>
          obtain ⟨st', hp, hshares⟩ := h.pull_of_passed hv hs hc hf horigin hlt hx d
          exact ⟨fanout, st', hp, hshares⟩
        | some x => exact h.pull_of_lt hs hc hf horigin hlt hx d
      · have heq := Nat.le_antisymm (hv.cursor hc).2 hge
        cases hx : g.answer c.position with
        | none => exact h.pull_of_last hv hs hc hf horigin heq hx d
        | some x => exact h.pull_of_new hv hs hc hf horigin heq hx d
    obtain ⟨fanout', st', hp, hshares⟩ := hpull
    refine ⟨_, fanout', st', by
      rw [hitem]; exact Sequence.step_of_branch (hread.finished.trans hf) horigin hp, ?_⟩
    exact hshares rfl hfin.symm

theorem reads_join {reached : Nat} {s₁ : Linked.Sequence} {c₁ : Cursor}
    (hr : Reads g i fanout reached s₁ c₁)
    (items : List Linked.Item) : Reads g i (fanout.join items).2 reached s₁ c₁ := by
  obtain ⟨slot, t, items₁, ho, ht, hi, hb⟩ := hr.slot
  refine ⟨hr.finished, slot, t, items₁, ho, ?_, hi, hb⟩
  rw [fanout.slot?_join items, if_neg, ht]
  rintro rfl
  rw [fanout.slot?_join_fst items] at ht
  cases ht

theorem origin_ne_join (h : Shares g i fanout hooks pool cs st) (hs : at? pool r = some s)
    (items : List Linked.Item) : s.origin ≠ .branch ⟨i, (fanout.join items).1⟩ := by
  intro horigin
  obtain ⟨c, hc⟩ := h.cursor_of hs
  obtain ⟨t, -, ht, -⟩ := (h.reads hs hc).slot_of horigin
  rw [fanout.slot?_join_fst items] at ht
  cases ht

theorem joined (h : Shares g i fanout hooks pool cs st) (hs : at? pool r = some s)
    (hc : at? cs.cursors r = some c) {slot : Nat} {t : Slot Linked.Item} (horigin : s.origin = .branch ⟨i, slot⟩)
    (ht : fanout.slot? slot = some t) (s' : Linked.Sequence) (hooks' : List String)
    (horigin' : s'.origin = .branch ⟨i, (fanout.join t.backlog.toList).1⟩)
    (hf : s'.finished = s.finished) :
    Shares g i (fanout.join t.backlog.toList).2 hooks' (pool ++ [some s']) (cs.add c)
      (st.setFanout i (.held ⟨.generated (g.after cs.reached),
        (fanout.join t.backlog.toList).2, hooks'⟩)) := by
  have hslots := fanout.slot?_join t.backlog.toList
  have hnew : Reads g i (fanout.join t.backlog.toList).2 cs.reached s' c := by
    have hread := h.reads hs hc
    obtain ⟨t₁, items, ht₁, hitems, hb⟩ := hread.slot_of horigin
    obtain rfl := Option.some.inj (ht.symm.trans ht₁)
    refine ⟨hf.trans hread.finished, _, _, items, horigin', by rw [hslots, if_pos rfl], ?_, hb⟩
    simpa using hitems
  have hother {r₁ s₁} (h₁ : at? pool r₁ = some s₁) : s₁.origin ≠ s'.origin := fun heq =>
    h.origin_ne_join h₁ _ (heq.trans horigin')
  refine ⟨?_, by simp [Cursors.add, h.length_eq], ?_, ?_, ?_, ?_, h.ended, ?_⟩
  · rw [Store.getElem?_setFanout, if_pos rfl, if_pos (Store.lt_of_getElem? h.held)]
    rfl
  · intro j
    simp only [Cursors.add, at?_append, h.length_eq]
    split
    · simp
    · exact h.alive j
  · intro j s₁ c₁ h₁ hk
    simp only [Cursors.add, at?_append, h.length_eq] at h₁ hk
    split at h₁ <;> simp_all only [if_true, if_false]
    · obtain rfl := Option.some.inj h₁
      obtain rfl := Option.some.inj hk
      exact hnew
    · exact reads_join (h.reads h₁ hk) _
  · intro j j' s₁ s₂ h₁ h₂ heq
    rw [at?_append] at h₁ h₂
    split at h₁ <;> split at h₂
    · simp_all
    · obtain rfl := Option.some.inj h₁
      exact absurd heq.symm (hother h₂)
    · obtain rfl := Option.some.inj h₂
      exact absurd heq (hother h₁)
    · exact h.apart h₁ h₂ heq
  · intro j hj
    rw [hslots] at hj
    split at hj
    · next he => exact ⟨pool.length, s', by rw [at?_append, if_pos rfl], by rw [he]; exact horigin'⟩
    · obtain ⟨r₁, s₁, h₁, ho₁⟩ := h.owned j hj
      exact ⟨r₁, s₁, by rw [at?_append, if_neg (Nat.ne_of_lt (lt_of_at? h₁)), h₁], ho₁⟩
  · intro hd r₁ c₁ h₁ hf₁
    simp only [Cursors.add, at?_append] at h₁
    split at h₁
    · obtain rfl := Option.some.inj h₁
      exact h.going hd hc hf₁
    · exact h.going hd h₁ hf₁

end Shares

end Readers

end LazyCalc
