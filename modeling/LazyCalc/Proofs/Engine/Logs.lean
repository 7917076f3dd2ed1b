import LazyCalc.Proofs.Engine.Guards
namespace LazyCalc

open Engine (Keeps)

def Store.Closes (st st' : Store) : Prop :=
  ∃ labels : List String, st'.log.toList = st.log.toList ++ labels.map .closed

namespace Store.Closes

variable {st st' st'' : Store}

theorem of_log_eq (h : st'.log = st.log) : st.Closes st' :=
  ⟨[], by rw [h, List.map_nil, List.append_nil]⟩

theorem record (st : Store) (labels : List String) : st.Closes (st.record (labels.map .closed)) :=
  ⟨labels, toList_log_record st _⟩

theorem trans (h : st.Closes st') (h' : st'.Closes st'') : st.Closes st'' := by
  obtain ⟨labels, hlog⟩ := h
  obtain ⟨labels', hlog'⟩ := h'
  exact ⟨labels ++ labels', by rw [hlog', hlog, List.map_append, List.append_assoc]⟩

end Store.Closes

theorem Releases.closes {ds : List Debris} {st st' : Store} (h : Releases ds st st') :
    st.Closes st' := by
  induction h with
  | done st => exact .of_log_eq rfl
  | scalar _ ih | list _ ih | sequence _ ih | source _ ih => exact ih
  | @direct _ _ _ hooks _ st _ _ ih => exact (Store.Closes.record st hooks).trans ih
  | @branch _ _ _ _ hooks _ _ st _ _ _ ih => exact (Store.Closes.record st hooks).trans ih
  | @fanoutLast i shared _ st _ _ _ ih =>
    exact (Store.Closes.record (st.setFanout i .vacant) shared.hooks).trans ih
  | fanout _ _ ih | cellLast _ _ _ ih | cell _ _ _ ih => exact ih

theorem Engine.closes_dropValues {vs : List Linked.Value} {st st' : Store} {u : Unit}
    (h : dropValues vs st = .ok (u, st')) : st.Closes st' :=
  (Releases.of_drop h).closes

namespace Sequence

variable {log : Array Event}

theorem keeps_log_forkWithin (depth : Nat) (s : Linked.Sequence) :
    Keeps (fun st => st.log = log) (s.forkWithin depth) := by
  induction depth generalizing s with
  | zero => exact .fault .outOfFuel
  | succ depth ih =>
    intro st r st' hst hr
    obtain ⟨origin, hint, finished, hooks⟩ := s
    cases origin with
    | direct source =>
      obtain ⟨_, st₁, hmade, hr⟩ := Engine.of_bind_ok hr
      obtain rfl : _ = st₁ := congrArg Prod.snd (Except.ok.inj hmade)
      cases hr
      exact hst
    | branch place =>
      obtain ⟨shared, st₁, hlend, hr⟩ := Engine.of_bind_ok hr
      obtain ⟨-, rfl⟩ := Store.of_lendFanout hlend
      obtain ⟨⟨own, seed⟩, st₂, hcopy, hr⟩ := Engine.of_bind_ok hr
      have h₂ := Item.keeps_copyListWith ih _ (st.setFanout place.fanout .lent) _ _ hst hcopy
      cases hr
      exact h₂

theorem keeps_log_fork (s : Linked.Sequence) : Keeps (fun st => st.log = log) s.fork :=
  fun st => keeps_log_forkWithin _ s st

end Sequence

end LazyCalc
