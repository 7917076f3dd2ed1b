import LazyCalc.Proofs.Fanout.Branches
import LazyCalc.Proofs.Fanout.Chronicles
/-!
Warnings mark the doublings. Over all that is done with the branches of a fan-out, each of them is
warned once of every threshold that its backlog comes to, and of nothing else.
-/

namespace LazyCalc

/-- In every state of a fan-out the slots that are taken are those of the chronicle, and each waits
for the least threshold above all the lengths that its backlog has had since it was taken, having
been warned once, in increasing order, of those that the backlog has passed since then. A pull logs,
after what its source does, a warning for each backlog that it makes reach the length that the slot
waits for, with that length, and none for the branch that pulls. Forks log nothing, and drops
nothing but labels. -/
theorem Chronicled.warnings_mark_doublings {i : Nat} {c : Chronicle} {st : Store}
    (h : Chronicled i c st) :
    (∀ {shared : Shared}, st.Shows i (.held shared) → c.Tells shared.fanout) ∧
    (∀ {slot n : Nat} {x : Option Linked.Item} {st' : Store},
      pullBranch (Drive.ofFuel n) ⟨i, slot⟩ st = .ok (x, st') →
      ∃ (shared shared' : Shared) (st₁ : Store) (lags : List Lag),
        st.Shows i (.held shared) ∧ st'.Shows i (.held shared') ∧
        st.Asked (Drive.ofFuel n) i slot st₁ ∧
        st'.log.toList = st₁.log.toList ++ lags.map .lagging ∧
        lags.Pairwise (fun a b => a.slot < b.slot) ∧ (∀ lag ∈ lags, lag.slot ≠ slot) ∧
        ∀ lag, lag ∈ lags ↔ ∃ s s', shared.fanout.slot? lag.slot = some s ∧
          shared'.fanout.slot? lag.slot = some s' ∧
          s'.backlog.length = s.backlog.length + 1 ∧ s'.backlog.length = s.warnAt ∧
          lag.length = s'.backlog.length) ∧
    (∀ {slot depth : Nat} {hint : Hint} {finished : Bool} {hooks : List String}
      {r : Linked.Sequence × Linked.Sequence} {st' : Store},
      Sequence.forkWithin depth ⟨.branch ⟨i, slot⟩, hint, finished, hooks⟩ st = .ok (r, st') →
      st'.log = st.log) ∧
    ∀ {slot : Nat} {hint : Hint} {finished : Bool} {hooks : List String} {u : Unit} {st' : Store},
      Engine.dropValues [.sequence ⟨.branch ⟨i, slot⟩, hint, finished, hooks⟩] st = .ok (u, st') →
      st.Closes st' := by
  refine ⟨h.tells, ?_, ?_, Engine.closes_dropValues⟩
  · intro slot n x st' hpull
    obtain ⟨shared, shared', hi, -, hi', st₁, lags, hasked, hwarns, hlog⟩ :=
      Store.of_pullBranch_warns hpull
    refine ⟨shared, shared', st₁, lags, hi, hi', hasked, hlog, hwarns.ordered, hwarns.others, ?_⟩
    intro lag
    rw [hwarns.mem_iff]
    -- A backlog is below its threshold before a push, so that to be at or above it is to be at it.
    refine exists_congr fun s => exists_congr fun s' => and_congr_right fun hs =>
      and_congr_right fun hs' => and_congr_right fun hlength => and_congr_left fun _ => ?_
    obtain ⟨t, -, hmarks⟩ := (h.tells hi).exists_marks hs
    have hlt := hmarks.length_lt
    omega
  · exact fun hfork => Sequence.keeps_log_forkWithin _ _ _ _ _ rfl hfork

section

/-- A fan-out over as many scalars as are left, with one branch that lags behind another. -/
def Shared.behind (x : Scalar) (left : Nat) (s : Slot Linked.Item) : Shared :=
  ⟨.items (.replicate left (.ok (.scalar x))), ⟨[some (.ofList []), some s], false⟩, []⟩

variable {x : Scalar} {left : Nat} {s : Slot Linked.Item} {st : Store}

theorem Store.pull_ahead (hi : st.Shows 0 (.held (.behind x (left + 1) s))) :
    ∃ (lags : List Lag) (st' : Store),
      pullBranch (Drive.ofFuel 0) ⟨0, 0⟩ st = .ok (some (.ok (.scalar x)), st') ∧
      st.Asked (Drive.ofFuel 0) 0 0 (st.setFanout 0 .lent) ∧
      st'.log.toList = st.log.toList ++ lags.map .lagging ∧
      st'.Shows 0 (.held (.behind x left (s.push (.ok (.scalar x))).1)) := by
  have hstep : (Shared.behind x (left + 1) s).source.step (Drive.ofFuel 0) (st.setFanout 0 .lent) =
      .ok ((some (.ok (.scalar x)), (Shared.behind x left s).source), st.setFanout 0 .lent) := rfl
  have hdeliver : Fanout.deliver (Item.copyWith (Drive.ofFuel 0).fork) 0 (.ok (.scalar x)) 0
      (Shared.behind x (left + 1) s).fanout.slots (st.setFanout 0 .lent) =
        .ok ((.ok (.scalar x), (Shared.behind x left (s.push (.ok (.scalar x))).1).fanout.slots,
          if (s.push (.ok (.scalar x))).2 then [⟨1, (s.push (.ok (.scalar x))).1.backlog.length⟩]
          else []), st.setFanout 0 .lent) := rfl
  refine ⟨if (s.push (.ok (.scalar x))).2 then [⟨1, (s.push (.ok (.scalar x))).1.backlog.length⟩]
    else [], _, pullBranch_of_item hi rfl rfl hstep hdeliver,
    .step hi rfl Bool.false_ne_true hstep, ?_, ?_⟩
  · rw [log_setFanout, toList_log_record, log_setFanout]
  · exact (Shows.of_set hi).of_set

/-- Of the two branches of the fan-out at place 0, the one that lags behind began with nothing, and
has never had more before it than it has now. -/
structure Chronicled.Behind (x : Scalar) (left : Nat) (c : Chronicle) (st : Store) (t : Tenure)
    (s : Slot Linked.Item) : Prop where
  chronicled : Chronicled 0 c st
  shows : st.Shows 0 (.held (.behind x left s))
  tenure : c 1 = some t
  seed : t.seed = 0
  lengths : ∀ n ∈ t.lengths, n ≤ s.backlog.length

namespace Chronicled.Behind

variable {c : Chronicle} {t : Tenure}

theorem next (h : Chronicled.Behind x (left + 1) c st t s) :
    ∃ c' st' t', pullBranch (Drive.ofFuel 0) ⟨0, 0⟩ st = .ok (some (.ok (.scalar x)), st') ∧
      Chronicled.Behind x left c' st' t' (s.push (.ok (.scalar x))).1 := by
  obtain ⟨lags, st', hpull, hasked, hlog, hi'⟩ := Store.pull_ahead h.shows
  have hnow : (st'.backlog 0 1).length = (s.push (.ok (.scalar x))).1.backlog.length :=
    Store.length_backlog hi' rfl
  refine ⟨_, st', t.observe (st'.backlog 0 1).length (warnings 1 (lags.map .lagging)), hpull,
    h.chronicled.next hpull hasked hlog, hi', ?_, h.seed, ?_⟩
  · rw [Chronicle.observe, h.tenure, Option.map_some]
  · rw [Tenure.lengths_observe, List.forall_mem_append, List.forall_mem_singleton, hnow,
      Fanout.length_push_backlog]
    exact ⟨fun n hn => (h.lengths n hn).trans (Nat.le_succ _), le_rfl⟩

theorem marks (h : Chronicled.Behind x left c st t s)
    (htells : c.Tells (Shared.behind x left s).fanout) : t.Marks s := by
  obtain ⟨u, hu, hmarks⟩ := htells.exists_marks (j := 1) rfl
  cases h.tenure.symm.trans hu
  exact hmarks

theorem exists_of_pulls (x : Scalar) (pulls left : Nat) :
    ∃ c st t s, Chronicled.Behind x left c st t s ∧ s.backlog.length = pulls := by
  induction pulls generalizing left with
  | zero =>
    have hstart : Chronicled 0 .single (Store.empty.addFanout
        ⟨.items (.replicate left (.ok (.scalar x))), .single, []⟩).2 := .new _ _ rfl
    obtain ⟨st, hfork, hlog, hi⟩ : ∃ st, Sequence.forkWithin 1 ⟨.branch ⟨0, 0⟩, .unknown, false, []⟩
        (Store.empty.addFanout ⟨.items (.replicate left (.ok (.scalar x))), .single, []⟩).2 =
          .ok ((⟨.branch ⟨0, 0⟩, .unknown, false, []⟩, ⟨.branch ⟨0, 1⟩, .unknown, false, []⟩), st) ∧
        st.log.toList = [] ∧ st.Shows 0 (.held (.behind x left (.ofList []))) :=
      ⟨_, rfl, rfl, rfl⟩
    have hnow : (st.backlog 0 1).length = (Slot.ofList ([] : List Linked.Item)).backlog.length :=
      Store.length_backlog hi rfl
    refine ⟨_, st, _, _, ⟨hstart.fork hfork rfl hlog, hi, rfl, hnow, ?_⟩, rfl⟩
    simp [Tenure.lengths, hnow]
  | succ pulls ih =>
    obtain ⟨c, st, t, s, h, hs⟩ := ih (left + 1)
    obtain ⟨c', st', t', -, h'⟩ := h.next
    exact ⟨c', st', t', _, h', by rw [Fanout.length_push_backlog, hs]⟩

end Chronicled.Behind

end

/-- The first warning, when one branch has given 65536 items before another has given any. -/
theorem Chronicled.warnings_mark_doublings_first :
    (∃ (c c' : Chronicle) (st st' : Store) (t t' : Tenure) (s s' : Slot Linked.Item),
      Chronicled.Behind (.integer 7) 1 c st t s ∧ s.backlog.length = 65535 ∧
      pullBranch (Drive.ofFuel 0) ⟨0, 0⟩ st = .ok (some (.ok (.scalar (.integer 7))), st') ∧
      .lagging ⟨1, 65536⟩ ∈ st'.log.toList ∧
      Chronicled.Behind (.integer 7) 0 c' st' t' s' ∧
      (∀ w, w ∈ t'.warned ↔ w = 65536) ∧ s'.warnAt = 131072) ∧
    (∃ (r : Linked.Sequence × Linked.Sequence) (st st' : Store),
      Sequence.forkWithin 1 ⟨.branch ⟨0, 0⟩, .unknown, false, []⟩ st = .ok (r, st') ∧
      st'.log = st.log) ∧
    ∃ st st' : Store,
      Engine.dropValues [.sequence ⟨.branch ⟨0, 0⟩, .unknown, false, ["a"]⟩] st = .ok ((), st') ∧
      st.Closes st' := by
  have hstart : Chronicled 0 .single (Store.empty.addFanout ⟨.items [], .single, []⟩).2 :=
    .new _ _ rfl
  refine ⟨?_, ?_, ?_⟩
  · obtain ⟨c, st, t, s, h, hs⟩ := Chronicled.Behind.exists_of_pulls (.integer 7) 65535 1
    obtain ⟨c', st', t', hpull, h'⟩ := h.next
    have hs' : (s.push (.ok (.scalar (.integer 7)))).1.backlog.length = 65536 := by
      rw [Fanout.length_push_backlog, hs]
    have hmarks := h.marks (h.chronicled.warnings_mark_doublings.1 h.shows)
    have hmarks' := h'.marks (h'.chronicled.warnings_mark_doublings.1 h'.shows)
    have hlengths : ∀ n ∈ t.lengths, n < 65536 :=
      fun n hn => (h.lengths n hn).trans_lt (by omega)
    have hlengths' : ∀ n ∈ t'.lengths, n ≤ 65536 := fun n hn => (h'.lengths n hn).trans hs'.le
    have hlast : 65536 ∈ t'.lengths := hs' ▸ List.mem_of_getLast? hmarks'.last
    have hwarn : s.warnAt = 65536 :=
      hmarks.warnAt.unique ⟨⟨.first, hlengths⟩, fun w hw => hw.1.first_le⟩
    refine ⟨c, c', st, st', t, t', s, _, h, hs, hpull, ?_, h', fun w => ?_, ?_⟩
    · obtain ⟨shared, shared', st₁, lags, hi, hi', -, hlog, -, -, hlags⟩ :=
        h.chronicled.warnings_mark_doublings.2.1 hpull
      cases h.shows.symm.trans hi
      cases h'.shows.symm.trans hi'
      have hlag : ⟨1, 65536⟩ ∈ lags :=
        (hlags _).mpr ⟨s, _, rfl, rfl, by omega, by omega, hs'.symm⟩
      rw [hlog]
      exact List.mem_append_right _ (List.mem_map_of_mem hlag)
    · rw [hmarks'.mem_warned, h'.seed]
      constructor
      · rintro ⟨hw, -, n, hn, hle⟩
        exact (hle.trans (hlengths' n hn)).antisymm hw.first_le
      · rintro rfl
        exact ⟨.first, by omega, _, hlast, le_rfl⟩
    · refine hmarks'.warnAt.unique ⟨⟨IsThreshold.first.double, fun n hn => ?_⟩, fun w hw => ?_⟩
      · exact (hlengths' n hn).trans_lt (by decide)
      · exact IsThreshold.first.two_mul_le hw.1 (hw.2 _ hlast)
  · obtain ⟨r, st', hfork⟩ : ∃ r st', Sequence.forkWithin 1 ⟨.branch ⟨0, 0⟩, .unknown, false, []⟩
        (Store.empty.addFanout ⟨.items [], .single, []⟩).2 = .ok (r, st') := ⟨_, _, rfl⟩
    exact ⟨r, _, st', hfork, hstart.warnings_mark_doublings.2.2.1 hfork⟩
  · obtain ⟨st', hdrop⟩ : ∃ st', Engine.dropValues
        [.sequence ⟨.branch ⟨0, 0⟩, .unknown, false, ["a"]⟩]
        (Store.empty.addFanout ⟨.items [], .single, []⟩).2 = .ok ((), st') := by
      have hi : (Store.empty.addFanout ⟨.items [], .single, []⟩).2.fanouts[0]? =
          some (.held ⟨.items [], .single, []⟩) := rfl
      have hbare : Source.Bare (.items []) := trivial
      exact ⟨_, Engine.dropValues_sequence ((release_branch hi).trans
        ((release_fanout_last rfl).trans ((release_bareSource hbare _ _).trans (release_nil _))))⟩
    exact ⟨_, st', hdrop, hstart.warnings_mark_doublings.2.2.2 hdrop⟩

end LazyCalc
