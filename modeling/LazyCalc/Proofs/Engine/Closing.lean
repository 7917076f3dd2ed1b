import LazyCalc.Proofs.Engine.Dropping
/-!
The order in which labels are noted when something is dropped: those of a sequence come before those
of what its source reads, and those of a fan-out before those of what the fan-out reads.
-/

namespace LazyCalc

def Event.label? : Event → Option String
  | .closed label => some label
  | .note _ | .lagging _ => none

def closedIn (log : Array Event) : List String := log.toList.filterMap Event.label?

theorem closedIn_record (st : Store) (events : List Event) :
    closedIn (st.record events).log = closedIn st.log ++ events.filterMap Event.label? := by
  rw [closedIn, Store.toList_log_record, List.filterMap_append]
  rfl

theorem filterMap_closed (labels : List String) :
    (labels.map Event.closed).filterMap Event.label? = labels := by
  rw [List.filterMap_map]
  exact List.filterMap_some

mutual

/-- The labels of the sequences that are dropped with a value, each sequence before what it reads.
What is read through a branch is not among them: others may read it too. -/
def Tree.closing : Linked.Value → List String
  | .scalar _ => []
  | .list items => Tree.closingList items
  | .sequence s => s.closing

def Tree.closingList : List Linked.Value → List String
  | [] => []
  | v :: vs => v.closing ++ Tree.closingList vs

def Sequence.closing : Linked.Sequence → List String
  | ⟨origin, _, _, hooks⟩ => hooks ++ origin.closing

def Origin.closing : Linked.Origin → List String
  | .direct source => source.closing
  | .branch _ => []

def Source.closing : Linked.Source → List String
  | .generated _ => []
  | .items remaining => Source.itemsClosing remaining
  | .mapped inner _ => inner.closing
  | .filtered inner _ held _ => inner.closing ++ Tree.closingList held
  | .zipped left right _ => left.closing ++ right.closing
  | .window inner _ _ => inner.closing

def Source.itemsClosing : List Linked.Item → List String
  | [] => []
  | .ok v :: items => v.closing ++ Source.itemsClosing items
  | .error _ :: items => Source.itemsClosing items

end

namespace Debris

/-- A fan-out that nobody reads any more is dropped with its source. -/
def closing : Debris → List String
  | .value v => v.closing
  | .sequence s => s.closing
  | .source s => s.closing
  | .fanout _ shared =>
    if shared.fanout.isDeserted then shared.hooks ++ shared.source.closing else []
  | .cell _ => []

theorem closing_ofValues (vs : List Linked.Value) :
    (ofValues vs).flatMap closing = Tree.closingList vs := by
  induction vs with
  | nil => rfl
  | cons v vs ih => exact congrArg (v.closing ++ ·) ih

theorem closing_ofItems (items : List Linked.Item) :
    (ofItems items).flatMap closing = Source.itemsClosing items := by
  induction items with
  | nil => rfl
  | cons item items ih =>
    cases item with
    | ok v => exact congrArg (v.closing ++ ·) ih
    | error e => exact ih

theorem closing_cells (cell : Option Nat) : (cell.toList.map Debris.cell).flatMap closing = [] := by
  cases cell <;> rfl

theorem closing_ofSource (s : Linked.Source) : (ofSource s).flatMap closing = s.closing := by
  cases s with
  | generated g => rfl
  | items remaining => exact closing_ofItems remaining
  | mapped inner mapping =>
    rw [ofSource, List.flatMap_cons, closing_cells, List.append_nil]
    rfl
  | filtered inner test held invert =>
    rw [ofSource, List.flatMap_cons, closing_ofValues]
    rfl
  | zipped left right pairing =>
    rw [ofSource, List.flatMap_cons, List.flatMap_cons, closing_cells, List.append_nil]
    rfl
  | window inner skip take =>
    rw [ofSource, List.flatMap_cons, List.flatMap_nil, List.append_nil]
    rfl

end Debris

/-- The labels in `labels` were noted between two logs, in that order, maybe among others. -/
def NotedBetween (labels : List String) (log log' : Array Event) : Prop :=
  ∃ noted, closedIn log' = closedIn log ++ noted ∧ labels.Sublist noted

theorem NotedBetween.mono {labels labels' : List String} {log log' : Array Event}
    (h : NotedBetween labels log log') (hl : labels'.Sublist labels) :
    NotedBetween labels' log log' := by
  obtain ⟨noted, hlog, hsub⟩ := h
  exact ⟨noted, hlog, hl.trans hsub⟩

theorem NotedBetween.after_closed {labels hooks : List String} {st : Store} {log' : Array Event}
    (h : NotedBetween labels (st.record (hooks.map .closed)).log log') :
    NotedBetween (hooks ++ labels) st.log log' := by
  obtain ⟨noted, hlog, hsub⟩ := h
  refine ⟨hooks ++ noted, ?_, (List.Sublist.refl hooks).append hsub⟩
  rw [hlog, closedIn_record, filterMap_closed, List.append_assoc]

theorem Releases.notes {ds : List Debris} {st st' : Store} (h : Releases ds st st') :
    NotedBetween (ds.flatMap Debris.closing) st.log st'.log := by
  induction h with
  | done st => exact ⟨[], (List.append_nil _).symm, .refl _⟩
  | scalar _ ih => exact ih
  | list _ ih => rwa [List.flatMap_append, Debris.closing_ofValues] at ih
  | sequence _ ih => exact ih
  | direct _ ih =>
    have hnoted := ih.after_closed
    rwa [List.flatMap_cons, ← List.append_assoc] at hnoted
  | @branch i slot hint finished hooks shared rest st st' _ _ ih =>
    rw [Store.log_setFanout] at ih
    -- What comes of the backlog and of the fan-out itself is noted in between.
    have hsub : (rest.flatMap Debris.closing).Sublist
        ((Debris.ofItems (shared.fanout.backlog slot) ++
          .fanout i { shared with fanout := shared.fanout.leave slot } :: rest).flatMap
            Debris.closing) := by
      rw [List.flatMap_append, List.flatMap_cons]
      exact (List.sublist_append_right _ _).trans (List.sublist_append_right _ _)
    have hnoted := (ih.mono hsub).after_closed
    rw [List.flatMap_cons]
    simpa [Debris.closing, Sequence.closing, Origin.closing] using hnoted
  | source _ ih => rwa [List.flatMap_append, Debris.closing_ofSource] at ih
  | fanoutLast hd _ ih =>
    have hnoted := ih.after_closed
    rw [Store.log_setFanout, List.flatMap_cons, ← List.append_assoc] at hnoted
    rw [List.flatMap_cons, Debris.closing, if_pos hd]
    exact hnoted
  | fanout hd _ ih =>
    rw [Store.log_setFanout] at ih
    rw [List.flatMap_cons, Debris.closing, if_neg hd]
    exact ih
  | cellLast _ _ _ ih =>
    rw [Store.log_setCell, List.flatMap_cons] at ih
    exact ih.mono (List.sublist_append_right _ _)
  | cell _ _ _ ih => rwa [Store.log_setCell] at ih

theorem release_notes (ds : List Debris) (st : Store) :
    ∀ st', release ds st = .ok st' → NotedBetween (ds.flatMap Debris.closing) st.log st'.log :=
  fun st' h => (Releases.of_release ds st st' h).notes

end LazyCalc
