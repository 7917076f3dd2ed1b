import LazyCalc.Proofs.Fanout.Thresholds
import LazyCalc.Proofs.Fanout.Turns
/-!
Chronicles of a fan-out: for every slot that is taken, the lengths that its backlog has had and the
warnings that were logged for it, over all that is done with the branches.
-/

namespace LazyCalc

def Event.warning? (slot : Nat) : Event → Option Nat
  | .lagging lag => if lag.slot = slot then some lag.length else none
  | .note _ | .closed _ => none

def warnings (slot : Nat) (events : List Event) : List Nat := events.filterMap (Event.warning? slot)

@[simp]
theorem warnings_nil (slot : Nat) : warnings slot [] = [] := rfl

@[simp]
theorem warnings_closed (slot : Nat) (labels : List String) :
    warnings slot (labels.map .closed) = [] := by
  rw [warnings, List.filterMap_map, List.filterMap_eq_nil_iff]
  exact fun _ _ => rfl

section

variable {lags : List Lag} {slot : Nat}

theorem warnings_cons_lagging (slot : Nat) (lag : Lag) (lags : List Lag) :
    warnings slot ((lag :: lags).map .lagging) =
      (if lag.slot = slot then [lag.length] else []) ++ warnings slot (lags.map .lagging) := by
  rw [warnings, List.map_cons, List.filterMap_cons, Event.warning?]
  split
  · next h =>
    split at h
    · cases h
    · next hne => rw [if_neg hne]; rfl
  · next h =>
    split at h
    · next heq => cases h; rw [if_pos heq]; rfl
    · cases h

theorem warnings_eq_nil (h : ∀ lag ∈ lags, lag.slot ≠ slot) :
    warnings slot (lags.map .lagging) = [] := by
  induction lags with
  | nil => rfl
  | cons lag lags ih =>
    obtain ⟨hne, h⟩ := List.forall_mem_cons.mp h
    rw [warnings_cons_lagging, if_neg hne, ih h, List.append_nil]

theorem warnings_eq_singleton (hordered : lags.Pairwise fun a b => a.slot < b.slot) {lag : Lag}
    (hlag : lag ∈ lags) : warnings lag.slot (lags.map .lagging) = [lag.length] := by
  induction lags with
  | nil => cases hlag
  | cons first lags ih =>
    obtain ⟨hfirst, hordered⟩ := List.pairwise_cons.mp hordered
    rw [warnings_cons_lagging]
    obtain rfl | hlag := List.mem_cons.mp hlag
    · rw [if_pos rfl, warnings_eq_nil fun later hlater => (hfirst later hlater).ne',
        List.append_nil]
    · rw [if_neg (hfirst lag hlag).ne, List.nil_append, ih hordered hlag]

end

namespace Fanout

variable {slot j : Nat} {f g : Fanout Linked.Item} {x : Option Linked.Item} {lags : List Lag}

theorem Warns.warnings_eq (h : Warns slot f g lags) {s t : Slot Linked.Item}
    (hs : f.slot? j = some s) (ht : g.slot? j = some t) :
    warnings j (lags.map .lagging) =
      if t.backlog.length = s.backlog.length + 1 ∧ s.warnAt ≤ t.backlog.length
      then [t.backlog.length] else [] := by
  split
  · next hdue =>
    have hlag : Lag.mk j t.backlog.length ∈ lags :=
      (h.mem_iff _).mpr ⟨s, t, hs, ht, hdue.1, hdue.2, rfl⟩
    exact warnings_eq_singleton h.ordered hlag
  · next hdue =>
    refine warnings_eq_nil fun lag hlag hslot => hdue ?_
    obtain ⟨s', t', hs', ht', hlength, hreach, -⟩ := (h.mem_iff lag).mp hlag
    rw [hslot] at hs' ht'
    cases hs.symm.trans hs'
    cases ht.symm.trans ht'
    exact ⟨hlength, hreach⟩

theorem Pulled.slot?_eq_none (h : Pulled slot f x g) (hj : f.slot? j = none) :
    g.slot? j = none := by
  cases h with
  | waiting hpop =>
    obtain ⟨-, s, t, hs, -, -, hslots⟩ := pop?_eq_some hpop
    rw [hslots, if_neg, hj]
    rintro rfl
    cases hj.symm.trans hs
  | ended hpop hslots => rwa [slot?, hslots]
  | produced hpop hlength hfree hown hother => exact hfree j hj

theorem Pulled.exists_slot (h : Pulled slot f x g) {s : Slot Linked.Item}
    (hs : f.slot? j = some s) :
    ∃ t, g.slot? j = some t ∧ (t.warnAt = s.warnAt ∧ t.backlog.length ≤ s.backlog.length ∨
      ∃ item, t = (s.push item).1) := by
  cases h with
  | waiting hpop =>
    obtain ⟨-, s', t, hs', hitems, hwarn, hslots⟩ := pop?_eq_some hpop
    by_cases hj : j = slot
    · subst hj
      cases hs.symm.trans hs'
      refine ⟨t, by rw [hslots, if_pos rfl], .inl ⟨hwarn, ?_⟩⟩
      rw [← Backlog.length_toList, ← Backlog.length_toList, hitems]
      exact Nat.le_succ _
    · exact ⟨s, by rw [hslots, if_neg hj, hs], .inl ⟨rfl, le_rfl⟩⟩
  | ended hpop hslots => exact ⟨s, by rwa [slot?, hslots], .inl ⟨rfl, le_rfl⟩⟩
  | produced hpop hlength hfree hown hother =>
    by_cases hj : j = slot
    · subst hj
      exact ⟨s, hown.trans hs, .inl ⟨rfl, le_rfl⟩⟩
    · obtain ⟨item, -, hpushed⟩ := hother j s hj hs
      exact ⟨_, hpushed, .inr ⟨item, rfl⟩⟩

end Fanout

def Store.backlog (st : Store) (i slot : Nat) : List Linked.Item :=
  match st.fanouts[i]? with
  | some (.held shared) => shared.fanout.backlog slot
  | some .lent | some .vacant | none => []

theorem Store.length_backlog {st : Store} {i slot : Nat} {shared : Shared}
    {s : Slot Linked.Item} (hi : st.Shows i (.held shared))
    (hs : shared.fanout.slot? slot = some s) : (st.backlog i slot).length = s.backlog.length := by
  have hi : st.fanouts[i]? = some (.held shared) := hi
  rw [backlog, hi]
  dsimp only
  rw [Fanout.backlog_eq hs, Backlog.length_toList]

/-- What has gone on in each slot that is taken, since then. -/
abbrev Chronicle := Nat → Option Tenure

namespace Chronicle

def single : Chronicle := fun slot => if slot = 0 then some ⟨0, [], []⟩ else none

def observe (c : Chronicle) (i : Nat) (st : Store) (events : List Event) : Chronicle :=
  fun slot => (c slot).map (·.observe (st.backlog i slot).length (warnings slot events))

def join (c : Chronicle) (i slot : Nat) (st : Store) (events : List Event) : Chronicle :=
  fun j => if j = slot then some ⟨(st.backlog i slot).length, [], warnings slot events⟩ else c j

def leave (c : Chronicle) (slot : Nat) : Chronicle := fun j => if j = slot then none else c j

def Tells (c : Chronicle) (f : Fanout Linked.Item) : Prop :=
  ∀ slot, Option.Rel Tenure.Marks (c slot) (f.slot? slot)

end Chronicle

/-- The chronicles of the fan-out at the place `i`, over all that is done with its branches. A step
is taken down with what it logs, a pull with what it logs once the source has been asked: what is
logged before that comes from the source. -/
inductive Chronicled (i : Nat) : Chronicle → Store → Prop
  | new {st : Store} (source : Linked.Source) (hooks : List String) (hi : i = st.fanouts.size) :
    Chronicled i .single (st.addFanout ⟨source, .single, hooks⟩).2
  | fork {c : Chronicle} {st st' : Store} {slot place depth : Nat} {hint : Hint}
    {finished : Bool} {hooks : List String} {s other : Linked.Sequence} {events : List Event}
    (h : Chronicled i c st)
    (hfork : Sequence.forkWithin depth ⟨.branch ⟨i, slot⟩, hint, finished, hooks⟩ st =
      .ok ((s, other), st'))
    (hother : other.origin = .branch ⟨i, place⟩)
    (hlog : st'.log.toList = st.log.toList ++ events) :
    Chronicled i ((c.observe i st' events).join i place st' events) st'
  | next {c : Chronicle} {st st₁ st' : Store} {slot n : Nat} {x : Option Linked.Item}
    {events : List Event} (h : Chronicled i c st)
    (hpull : pullBranch (Drive.ofFuel n) ⟨i, slot⟩ st = .ok (x, st'))
    (hasked : st.Asked (Drive.ofFuel n) i slot st₁)
    (hlog : st'.log.toList = st₁.log.toList ++ events) :
    Chronicled i (c.observe i st' events) st'
  | drop {c : Chronicle} {st st' : Store} {slot : Nat} {hint : Hint} {finished : Bool}
    {hooks : List String} {u : Unit} {events : List Event} (h : Chronicled i c st)
    (hdrop : Engine.dropValues [.sequence ⟨.branch ⟨i, slot⟩, hint, finished, hooks⟩] st =
      .ok (u, st'))
    (hlog : st'.log.toList = st.log.toList ++ events) :
    Chronicled i ((c.observe i st' events).leave slot) st'
  | elsewhere {c : Chronicle} {st st' : Store} (h : Chronicled i c st)
    (hplace : st'.fanouts[i]? = st.fanouts[i]?) : Chronicled i c st'

namespace Chronicle.Tells

variable {c : Chronicle} {i slot place : Nat} {f g : Fanout Linked.Item} {st st' : Store}
  {shared : Shared} {events : List Event} {hint : Hint} {finished : Bool} {hooks : List String}

theorem single : Chronicle.single.Tells .single := by
  intro slot
  rw [Chronicle.single, Fanout.slot?_single]
  split
  · exact .some (.start [])
  · exact .none

theorem eq_none (h : c.Tells f) {j : Nat} (hj : f.slot? j = none) : c j = none := by
  have hslot := h j
  rw [hj] at hslot
  cases hc : c j with
  | none => rfl
  | some t =>
    rw [hc] at hslot
    cases hslot

theorem exists_marks (h : c.Tells f) {j : Nat} {s : Slot Linked.Item} (hj : f.slot? j = some s) :
    ∃ t, c j = some t ∧ t.Marks s := by
  have hslot := h j
  rw [hj] at hslot
  cases hc : c j with
  | none =>
    rw [hc] at hslot
    cases hslot
  | some t =>
    rw [hc] at hslot
    cases hslot with
    | some hmarks => exact ⟨t, rfl, hmarks⟩

theorem observe {j : Nat} (h : c.Tells f) (hi : st.Shows i (.held shared))
    (hfree : f.slot? j = none → shared.fanout.slot? j = none)
    (hstep : ∀ s, f.slot? j = some s → ∃ t, shared.fanout.slot? j = some t ∧
      ∀ tenure : Tenure, tenure.Marks s →
        (tenure.observe t.backlog.length (warnings j events)).Marks t) :
    Option.Rel Tenure.Marks (c.observe i st events j) (shared.fanout.slot? j) := by
  rw [Chronicle.observe]
  cases hs : f.slot? j with
  | none =>
    rw [h.eq_none hs, hfree hs]
    exact .none
  | some s =>
    obtain ⟨t, ht, hmarks⟩ := hstep s hs
    obtain ⟨tenure, hc, hj⟩ := h.exists_marks hs
    rw [hc, ht, Option.map_some, Store.length_backlog hi ht]
    exact .some (hmarks tenure hj)

theorem observe_same {j : Nat} (h : c.Tells f) (hi : st.Shows i (.held shared))
    (hsame : shared.fanout.slot? j = f.slot? j) (hevents : warnings j events = []) :
    Option.Rel Tenure.Marks (c.observe i st events j) (shared.fanout.slot? j) := by
  refine h.observe hi (fun hj => hsame.trans hj) fun s hs => ⟨s, hsame.trans hs, ?_⟩
  intro tenure hmarks
  rw [hevents]
  exact hmarks.observe rfl hmarks.length_lt

theorem next (h : c.Tells f) {x : Option Linked.Item} {lags : List Lag}
    (hi : st.Shows i (.held shared)) (hpulled : Fanout.Pulled slot f x shared.fanout)
    (hwarns : Fanout.Warns slot f shared.fanout lags) :
    (c.observe i st (lags.map .lagging)).Tells shared.fanout := by
  intro j
  refine h.observe hi hpulled.slot?_eq_none fun s hs => ?_
  obtain ⟨t, ht, hslot⟩ := hpulled.exists_slot hs
  refine ⟨t, ht, fun tenure hmarks => ?_⟩
  rw [hwarns.warnings_eq hs ht]
  obtain ⟨hwarn, hle⟩ | ⟨item, rfl⟩ := hslot
  · rw [if_neg (by omega)]
    exact hmarks.observe hwarn (hle.trans_lt hmarks.length_lt)
  · simp only [Fanout.length_push_backlog, true_and]
    have hpush := hmarks.push item
    rwa [Fanout.length_push_backlog] at hpush

theorem fork (h : c.Tells f) {own seed : List Linked.Item}
    (hi : st.Shows i (.held shared)) (hforked : Fanout.Forked slot f own seed place shared.fanout)
    (hown : own.length = (f.backlog slot).length) :
    ((c.observe i st []).join i place st []).Tells shared.fanout := by
  have hslots := (f.setBacklog slot own).slot?_join seed
  rw [hforked.join_eq] at hslots
  intro j
  rw [Chronicle.join]
  split
  · next hj =>
    have hplace : shared.fanout.slot? place = some (.ofList seed) := by rw [hslots, if_pos rfl]
    rw [hj, hplace, Store.length_backlog hi hplace, warnings_nil]
    exact .some (.start seed)
  · next hj =>
    have hslot : shared.fanout.slot? j = (f.setBacklog slot own).slot? j := by
      rw [hslots, if_neg hj]
    rw [Fanout.slot?_setBacklog] at hslot
    by_cases he : j = slot
    -- The branch that was forked gets a copy of its backlog in place of it, which is as long.
    · rw [if_pos he] at hslot
      refine h.observe hi (fun hnone => by rw [hslot, hnone, Option.map_none]) fun s hs => ?_
      refine ⟨{ s with backlog := .ofList own }, by rw [hslot, hs, Option.map_some], ?_⟩
      intro tenure hmarks
      have hlength : own.length = s.backlog.length := by
        rw [hown, ← he, Fanout.backlog_eq hs, Backlog.length_toList]
      exact hmarks.observe rfl (hlength.trans_lt hmarks.length_lt)
    · rw [if_neg he] at hslot
      exact h.observe_same hi hslot (warnings_nil j)

theorem drop (h : c.Tells f) {labels : List String} (hi : st.Shows i (.held shared))
    (hshared : shared.fanout = f.leave slot) :
    ((c.observe i st (labels.map .closed)).leave slot).Tells shared.fanout := by
  intro j
  have hslot := f.slot?_leave slot j
  rw [← hshared] at hslot
  rw [Chronicle.leave]
  split
  · next hj =>
    rw [hslot, if_pos hj]
    exact .none
  · next hj =>
    rw [if_neg hj] at hslot
    exact h.observe_same hi hslot (warnings_closed j labels)

end Chronicle.Tells

theorem Chronicled.tells {i : Nat} {c : Chronicle} {st : Store} (h : Chronicled i c st) :
    ∀ {shared : Shared}, st.Shows i (.held shared) → c.Tells shared.fanout := by
  induction h with
  | new source hooks hi =>
    intro shared hshows
    rw [Store.Shows, Store.getElem?_addFanout, if_pos hi] at hshows
    cases hshows
    exact .single
  | fork h hfork hother hlog ih =>
    intro shared' hshows
    obtain ⟨shared, own, seed, place, fanout, hi, hforked, hr, hi', hown, -⟩ :=
      Store.of_forkWithin_branch hfork
    cases hr
    cases hother
    cases hi'.symm.trans hshows
    rw [Sequence.keeps_log_forkWithin _ _ _ _ _ rfl hfork] at hlog
    obtain rfl := List.self_eq_append_right.mp hlog
    exact (ih hi).fork hi' hforked hown
  | next h hpull hasked hlog ih =>
    intro shared' hshows
    obtain ⟨shared, _, hi, hpulls, hi', st₁, lags, hasked', hwarns, hlog'⟩ :=
      Store.of_pullBranch_warns hpull
    cases hi'.symm.trans hshows
    -- A pull asks its source in one way only, so `events` are what it logs itself.
    cases hasked.unique hasked'
    obtain rfl := List.append_cancel_left (hlog.symm.trans hlog')
    exact (ih hi).next hi' hpulls.pulled hwarns
  | drop h hdrop hlog ih =>
    intro shared' hshows
    obtain ⟨shared, hi, hi'⟩ := Store.of_drop_branch hdrop
    obtain ⟨labels, hlog'⟩ := Engine.closes_dropValues hdrop
    obtain rfl := List.append_cancel_left (hlog.symm.trans hlog')
    split at hi'
    · cases hi'.symm.trans hshows
    · cases hi'.symm.trans hshows
      exact (ih hi).drop hi' rfl
  | elsewhere h hplace ih => exact fun hshows => ih (hplace.symm.trans hshows)

end LazyCalc
