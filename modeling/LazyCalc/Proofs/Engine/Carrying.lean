import LazyCalc.Proofs.Engine.Closing
import LazyCalc.Proofs.Engine.Guards
/-!
What becomes of the labels of a fan-out. Forks put further labels behind them; they stay as long as
the fan-out is there, and are noted, one behind the other, when its last branch is dropped.
-/

namespace LazyCalc

open Engine (Keeps)

/-- A fan-out has the labels that it had when the log was `log`, and maybe others behind them; if it
is gone, they have been noted since. -/
structure Store.Minds (i : Nat) (labels : List String) (log : Array Event) (st : Store) : Prop where
  lt : i < st.fanouts.size
  held : ∀ shared, st.Shows i (.held shared) → labels <+: shared.hooks
  noted : ∃ noted, closedIn st.log = closedIn log ++ noted ∧
    (st.Shows i .vacant → labels <:+: noted)

namespace Store.Minds

variable {i : Nat} {labels : List String} {log : Array Event} {st : Store}

theorem of_shows {shared : Shared} (hi : st.Shows i (.held shared)) :
    st.Minds i shared.hooks st.log where
  lt := lt_of_getElem? hi
  held shared' hi' := by
    cases hi.symm.trans hi'
    exact List.prefix_refl _
  noted := by
    refine ⟨[], (List.append_nil _).symm, fun hi' => ?_⟩
    cases hi.symm.trans hi'

theorem record (h : st.Minds i labels log) (events : List Event) :
    (st.record events).Minds i labels log where
  lt := h.lt
  held := h.held
  noted := by
    obtain ⟨noted, hlog, hvacant⟩ := h.noted
    refine ⟨noted ++ events.filterMap Event.label?, ?_, fun hi => ?_⟩
    · rw [closedIn_record, hlog, List.append_assoc]
    · exact (hvacant hi).trans (List.prefix_append _ _).isInfix

theorem setFanout (h : st.Minds i labels log) (j : Nat) {place : Place Shared}
    (hheld : j = i → ∀ shared, place = .held shared → labels <+: shared.hooks)
    (hvacant : j = i → place ≠ .vacant) : (st.setFanout j place).Minds i labels log where
  lt := by simpa [Store.setFanout] using h.lt
  held shared hi := by
    rw [Shows, getElem?_setFanout] at hi
    split at hi
    · next hj =>
      rw [if_pos (hj ▸ h.lt)] at hi
      exact hheld hj shared (Option.some.inj hi)
    · exact h.held shared hi
  noted := by
    obtain ⟨noted, hlog, hgone⟩ := h.noted
    refine ⟨noted, by rwa [log_setFanout], fun hi => ?_⟩
    rw [Shows, getElem?_setFanout] at hi
    split at hi
    · next hj =>
      rw [if_pos (hj ▸ h.lt)] at hi
      exact absurd (Option.some.inj hi) (hvacant hj)
    · exact hgone hi

theorem setCell (h : st.Minds i labels log) (k : Nat) (place : Place Cell) :
    (st.setCell k place).Minds i labels log :=
  ⟨h.lt, h.held, h.noted⟩

theorem addFanout (h : st.Minds i labels log) (shared : Shared) :
    (st.addFanout shared).2.Minds i labels log where
  lt := by simpa [Store.addFanout] using Nat.lt_succ_of_lt h.lt
  held shared' hi := by
    rw [Shows, getElem?_addFanout, if_neg h.lt.ne] at hi
    exact h.held shared' hi
  noted := by
    obtain ⟨noted, hlog, hgone⟩ := h.noted
    refine ⟨noted, hlog, fun hi => ?_⟩
    rw [Shows, getElem?_addFanout, if_neg h.lt.ne] at hi
    exact hgone hi

theorem vacate (h : st.Minds i labels log) {shared : Shared} (hlabels : labels <+: shared.hooks) :
    ((st.setFanout i .vacant).record (shared.hooks.map .closed)).Minds i labels log where
  lt := by simpa [Store.setFanout] using h.lt
  held shared' hi := by
    rw [Shows, fanouts_record, getElem?_setFanout, if_pos rfl, if_pos h.lt] at hi
    cases hi
  noted := by
    obtain ⟨noted, hlog, -⟩ := h.noted
    refine ⟨noted ++ shared.hooks, ?_, fun _ => ?_⟩
    · rw [closedIn_record, log_setFanout, hlog, filterMap_closed, List.append_assoc]
    · exact hlabels.isInfix.trans (List.suffix_append _ _).isInfix

theorem guard (i : Nat) (labels : List String) (log : Array Event) :
    Guard (Minds i labels log) fun j shared => j = i → labels <+: shared.hooks where
  record events h := h.record events
  lend {st j shared} h hj := by
    refine ⟨h.setFanout j (fun _ _ => nofun) fun _ => nofun, ?_⟩
    rintro rfl
    exact h.held shared hj
  leave _ h := h
  put h hshared := h.setFanout _ (fun hj _ heq => Place.held.inj heq ▸ hshared hj) fun _ => nofun
  vacate {st j shared} h hshared := by
    by_cases hj : j = i
    · subst hj
      exact h.vacate (hshared rfl)
    · exact (h.setFanout j (fun he => absurd he hj) fun he => absurd he hj).record _
  lendCell h _ := ⟨h.setCell _ _, h.setCell _ _, fun _ => h.setCell _ _⟩

theorem kept (i : Nat) (labels : List String) (log : Array Event) : Kept (Minds i labels log) := by
  have hadd {st : Store} (shared : Shared) (h : st.Minds i labels log) :
      (st.addFanout shared).2.Minds i labels log := h.addFanout shared
  have hread (k : Nat) : Keeps (Minds i labels log) (Engine.read k) :=
    Engine.keeps_read (fun k place h => h.setCell k place)
      ((guard i labels log).keeps_fork (fun hD hp hj => (hD hj).trans hp) hadd) k
  refine (guard i labels log).kept (fun hD hp hj => (hD hj).trans hp) hadd ?_ hread
  rintro c st _ _ h ⟨⟩
  exact ⟨h.lt, h.held, h.noted⟩

end Store.Minds

/-- What a fork does with the labels of a sequence: they are put behind those of its fan-out, which
is a new one if the sequence had its source to itself. Neither branch has any of its own. -/
structure Sequence.HandsOver (s : Linked.Sequence) (st : Store)
    (forks : Linked.Sequence × Linked.Sequence) (i : Nat) (st' : Store) : Prop where
  branches : ∃ slot slot', forks.1.origin = .branch ⟨i, slot⟩ ∧ forks.2.origin = .branch ⟨i, slot'⟩
  bare : forks.1.hooks = [] ∧ forks.2.hooks = []
  labels : ∃ shared, st'.Shows i (.held shared) ∧
    ((∃ source, s.origin = .direct source ∧ i = st.fanouts.size ∧ shared.hooks = s.hooks) ∨
      ∃ slot before, s.origin = .branch ⟨i, slot⟩ ∧ st.Shows i (.held before) ∧
        shared.hooks = before.hooks ++ s.hooks)

theorem Sequence.handsOver {s : Linked.Sequence} {st st' : Store}
    {forks : Linked.Sequence × Linked.Sequence} (h : s.fork st = .ok (forks, st')) :
    ∃ i, s.HandsOver st forks i st' := by
  obtain ⟨origin, hint, finished, hooks⟩ := s
  cases origin with
  | direct source =>
    obtain ⟨i, st₁, hadd, h⟩ := Engine.of_bind_ok h
    cases hadd
    cases h
    have hnew := (Store.getElem?_addFanout st ⟨source, (Fanout.single.join []).2, hooks⟩ _).trans
      (if_pos rfl)
    exact ⟨st.fanouts.size, ⟨_, _, rfl, rfl⟩, ⟨rfl, rfl⟩, _, hnew, .inl ⟨source, rfl, rfl, rfl⟩⟩
  | branch place =>
    obtain ⟨i, slot⟩ := place
    obtain ⟨shared, st₁, hlend, h⟩ := Engine.of_bind_ok h
    obtain ⟨hi, rfl⟩ := Store.of_lendFanout hlend
    obtain ⟨⟨own, seed⟩, st₂, hcopy, h⟩ := Engine.of_bind_ok h
    have hlent : (st.setFanout i .lent).Shows i .lent := Store.Shows.of_set hi
    have hlent₂ := Item.keeps_copyListWith
      (Store.keeps_forkWithin_shows Store.lent_ne_held st.fanouts.size) _ _ _ _ hlent hcopy
    cases h
    exact ⟨i, ⟨slot, _, rfl, rfl⟩, ⟨rfl, rfl⟩, _, hlent₂.of_set, .inr ⟨slot, shared, rfl, hi, rfl⟩⟩

/-- When the last branch of a fan-out is dropped, its own labels come first, then those of the
sequences left in its backlog, those of the fan-out, and those of what the fan-out reads. -/
theorem release_last_branch {st st' : Store} {i slot : Nat} {hint : Hint} {finished : Bool}
    {hooks : List String} {shared : Shared} {rest : List Debris}
    (hi : st.Shows i (.held shared)) (hlast : (shared.fanout.leave slot).isDeserted = true)
    (h : release (.sequence ⟨.branch ⟨i, slot⟩, hint, finished, hooks⟩ :: rest) st = .ok st') :
    NotedBetween (hooks ++ (Source.itemsClosing (shared.fanout.backlog slot) ++
      (shared.hooks ++ shared.source.closing ++ rest.flatMap Debris.closing))) st.log st'.log := by
  rw [release_branch hi] at h
  have hnotes := release_notes _ _ _ h
  rw [List.flatMap_append, Debris.closing_ofItems, List.flatMap_cons, Debris.closing, if_pos hlast,
    Store.log_setFanout] at hnotes
  exact hnotes.after_closed

end LazyCalc
