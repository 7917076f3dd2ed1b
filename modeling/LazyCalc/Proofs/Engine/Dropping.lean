import LazyCalc.Proofs.Engine.Places
import LazyCalc.Engine.Release
namespace LazyCalc

variable {st st' : Store} {rest : List Debris}

theorem release_nil (st : Store) : release [] st = .ok st := by rw [release]

theorem release_generated (g : Generator) (rest : List Debris) (st : Store) :
    release (.source (.generated g) :: rest) st = release rest st := by
  conv => lhs; rw [release]
  rfl

theorem release_direct {source : Linked.Source} {hint : Hint} {finished : Bool} {hooks : List String} :
    release (.sequence ⟨.direct source, hint, finished, hooks⟩ :: rest) st =
      release (.source source :: rest) (st.record (hooks.map .closed)) := by
  conv => lhs; rw [release]

theorem release_branch {i slot : Nat} {hint : Hint} {finished : Bool} {hooks : List String}
    {shared : Shared}
    (h : st.fanouts[i]? = some (.held shared)) :
    release (.sequence ⟨.branch ⟨i, slot⟩, hint, finished, hooks⟩ :: rest) st =
      release (Debris.ofItems (shared.fanout.backlog slot) ++
        .fanout i { shared with fanout := shared.fanout.leave slot } :: rest)
        ((st.record (hooks.map .closed)).setFanout i .lent) := by
  have hl : (st.record (hooks.map .closed)).lendFanout i = .ok (shared, _) :=
    Store.lendFanout_eq (by simpa using h)
  rw [release]
  split
  · next he => simp [hl] at he
  · next he =>
    rw [hl] at he
    obtain ⟨rfl, rfl⟩ := Prod.mk.inj (Except.ok.inj he)
    rfl

theorem release_held_cell {i : Nat} {cell : Cell} (h : st.cells[i]? = some (.held cell)) :
    release (.cell i :: rest) st =
      if cell.holders ≤ 1 then
        release (.value cell.collection.toValue :: rest) ((st.setCell i .lent).setCell i .vacant)
      else
        release rest ((st.setCell i .lent).setCell i
          (.held { cell with holders := cell.holders - 1 })) := by
  have hl : st.lendCell i = .ok (cell, _) := Store.lendCell_eq h
  rw [release]
  split
  · next he => simp [hl] at he
  · next he =>
    rw [hl] at he
    obtain ⟨rfl, rfl⟩ := Prod.mk.inj (Except.ok.inj he)
    rfl

theorem release_cell_last {i : Nat} {cell : Cell} (h : st.cells[i]? = some (.held cell))
    (hlast : cell.holders ≤ 1) :
    release (.cell i :: rest) st =
      release (.value cell.collection.toValue :: rest) ((st.setCell i .lent).setCell i .vacant) :=
  (release_held_cell h).trans (if_pos hlast)

theorem release_cell {i : Nat} {cell : Cell} (h : st.cells[i]? = some (.held cell))
    (hmore : ¬ cell.holders ≤ 1) :
    release (.cell i :: rest) st =
      release rest ((st.setCell i .lent).setCell i
        (.held { cell with holders := cell.holders - 1 })) :=
  (release_held_cell h).trans (if_neg hmore)

theorem release_fanout_last {i : Nat} {shared : Shared} (h : shared.fanout.isDeserted = true) :
    release (.fanout i shared :: rest) st =
      release (.source shared.source :: rest)
        ((st.setFanout i .vacant).record (shared.hooks.map .closed)) := by
  conv => lhs; rw [release, if_pos h]

theorem release_fanout {i : Nat} {shared : Shared} (h : ¬ shared.fanout.isDeserted = true) :
    release (.fanout i shared :: rest) st = release rest (st.setFanout i (.held shared)) := by
  conv => lhs; rw [release, if_neg h]

theorem map_closed_attach (labels : List String) :
    (labels.attach.map fun x => match x with | ⟨x, _⟩ => Event.closed x) = labels.map .closed := by
  rw [List.map_attach_eq_pmap, List.pmap_eq_map]

/-- A drop that goes through, step by step. -/
inductive Releases : List Debris → Store → Store → Prop
  | done (st : Store) : Releases [] st st
  | scalar {x : Scalar} {rest : List Debris} {st st' : Store} (h : Releases rest st st') :
    Releases (.value (.scalar x) :: rest) st st'
  | list {items : List Linked.Value} {rest : List Debris} {st st' : Store}
    (h : Releases (Debris.ofValues items ++ rest) st st') :
    Releases (.value (.list items) :: rest) st st'
  | sequence {s : Linked.Sequence} {rest : List Debris} {st st' : Store}
    (h : Releases (.sequence s :: rest) st st') : Releases (.value (.sequence s) :: rest) st st'
  | direct {source : Linked.Source} {hint : Hint} {finished : Bool} {hooks : List String}
    {rest : List Debris} {st st' : Store}
    (h : Releases (.source source :: rest) (st.record (hooks.map .closed)) st') :
    Releases (.sequence ⟨.direct source, hint, finished, hooks⟩ :: rest) st st'
  | branch {i slot : Nat} {hint : Hint} {finished : Bool} {hooks : List String} {shared : Shared}
    {rest : List Debris} {st st' : Store} (hi : st.fanouts[i]? = some (.held shared))
    (h : Releases (Debris.ofItems (shared.fanout.backlog slot) ++
      .fanout i { shared with fanout := shared.fanout.leave slot } :: rest)
      ((st.record (hooks.map .closed)).setFanout i .lent) st') :
    Releases (.sequence ⟨.branch ⟨i, slot⟩, hint, finished, hooks⟩ :: rest) st st'
  | source {s : Linked.Source} {rest : List Debris} {st st' : Store}
    (h : Releases (Debris.ofSource s ++ rest) st st') : Releases (.source s :: rest) st st'
  | fanoutLast {i : Nat} {shared : Shared} {rest : List Debris} {st st' : Store}
    (hd : shared.fanout.isDeserted = true) (h : Releases (.source shared.source :: rest)
      ((st.setFanout i .vacant).record (shared.hooks.map .closed)) st') :
    Releases (.fanout i shared :: rest) st st'
  | fanout {i : Nat} {shared : Shared} {rest : List Debris} {st st' : Store}
    (hd : ¬ shared.fanout.isDeserted = true)
    (h : Releases rest (st.setFanout i (.held shared)) st') :
    Releases (.fanout i shared :: rest) st st'
  | cellLast {i : Nat} {cell : Cell} {rest : List Debris} {st st' : Store}
    (hi : st.cells[i]? = some (.held cell)) (hlast : cell.holders ≤ 1)
    (h : Releases (.value cell.collection.toValue :: rest) (st.setCell i .vacant) st') :
    Releases (.cell i :: rest) st st'
  | cell {i : Nat} {cell : Cell} {rest : List Debris} {st st' : Store}
    (hi : st.cells[i]? = some (.held cell)) (hmore : ¬ cell.holders ≤ 1)
    (h : Releases rest (st.setCell i (.held { cell with holders := cell.holders - 1 })) st') :
    Releases (.cell i :: rest) st st'

theorem Releases.of_release (ds : List Debris) (st : Store) :
    ∀ st', release ds st = .ok st' → Releases ds st st' := by
  -- along the recursion of `release`; a place that cannot be lent would have been a fault
  induction ds, st using release.induct with
  | case1 st =>
    intro st' h
    rw [release] at h
    obtain rfl := Except.ok.inj h
    exact .done st
  | case2 st value rest ih =>
    intro st' h
    rw [release] at h
    exact .scalar (ih st' h)
  | case3 st items rest ih =>
    intro st' h
    rw [release] at h
    exact .list (ih st' h)
  | case4 st s rest ih =>
    intro st' h
    rw [release] at h
    exact .sequence (ih st' h)
  | case5 st source hint finished hooks rest ih =>
    intro st' h
    rw [release] at h
    rw [map_closed_attach] at ih
    exact .direct (ih st' h)
  | case6 st i slot hint finished hooks rest fault hl =>
    intro st' h
    rw [release] at h
    split at h
    · cases h
    · next hl' => cases hl.symm.trans hl'
  | case7 st i slot hint finished hooks rest shared st₁ hl left ih =>
    intro st' h
    obtain ⟨hi, rfl⟩ := Store.of_lendFanout hl
    rw [Store.fanouts_record] at hi
    rw [release_branch hi] at h
    exact .branch hi (ih st' h)
  | case8 st s rest ih =>
    intro st' h
    rw [release] at h
    exact .source (ih st' h)
  | case9 st i shared rest hd ih =>
    intro st' h
    rw [release_fanout_last hd] at h
    rw [map_closed_attach] at ih
    exact .fanoutLast hd (ih st' h)
  | case10 st i shared rest hd ih =>
    intro st' h
    rw [release_fanout hd] at h
    exact .fanout hd (ih st' h)
  | case11 st i rest fault hl =>
    intro st' h
    rw [release] at h
    split at h
    · cases h
    · next hl' => cases hl.symm.trans hl'
  | case12 st i rest cell st₁ hl hlast ih =>
    intro st' h
    obtain ⟨hi, rfl⟩ := Store.of_lendCell hl
    rw [release_cell_last hi hlast] at h
    have hrest := ih st' h
    rw [Store.setCell_setCell] at hrest
    exact .cellLast hi hlast hrest
  | case13 st i rest cell st₁ hl hmore ih =>
    intro st' h
    obtain ⟨hi, rfl⟩ := Store.of_lendCell hl
    rw [release_cell hi hmore] at h
    have hrest := ih st' h
    rw [Store.setCell_setCell] at hrest
    exact .cell hi hmore hrest

theorem release_append (ds es : List Debris) (st : Store) :
    release (ds ++ es) st = (release ds st).bind (release es) := by
  induction ds, st using release.induct with
  | case1 st => rw [release, List.nil_append, Except.bind]
  | case2 st value rest ih => rw [List.cons_append, release, release, ih]
  | case3 st items rest ih => rw [List.cons_append, release, release, ← ih, List.append_assoc]
  | case4 st s rest ih => rw [List.cons_append, release, release, ← ih, List.cons_append]
  | case5 st source hint finished hooks rest ih =>
    rw [map_closed_attach] at ih
    rw [List.cons_append, release, release, ← ih, List.cons_append]
  | case6 st i slot hint finished hooks rest fault hl =>
    rw [List.cons_append, release, release]
    split <;> rename_i hl' <;> cases hl.symm.trans hl'
    rfl
  | case7 st i slot hint finished hooks rest shared st₁ hl left ih =>
    rw [List.cons_append, release, release]
    split <;> rename_i hl' <;> cases hl.symm.trans hl'
    rw [← ih, List.append_assoc, List.cons_append]
  | case8 st s rest ih => rw [List.cons_append, release, release, ← ih, List.append_assoc]
  | case9 st i shared rest hd ih =>
    rw [map_closed_attach] at ih
    rw [List.cons_append, release_fanout_last hd, release_fanout_last hd, ← ih, List.cons_append]
  | case10 st i shared rest hd ih =>
    rw [List.cons_append, release_fanout hd, release_fanout hd, ← ih]
  | case11 st i rest fault hl =>
    rw [List.cons_append, release, release]
    split <;> rename_i hl' <;> cases hl.symm.trans hl'
    rfl
  | case12 st i rest cell st₁ hl hlast ih =>
    rw [List.cons_append, release, release]
    split <;> rename_i hl' <;> cases hl.symm.trans hl'
    rw [if_pos hlast, if_pos hlast, ← ih, List.cons_append]
  | case13 st i rest cell st₁ hl hmore ih =>
    rw [List.cons_append, release, release]
    split <;> rename_i hl' <;> cases hl.symm.trans hl'
    rw [if_neg hmore, if_neg hmore, ← ih]

namespace Releases

variable {ds es : List Debris}

theorem release_eq (h : Releases ds st st') : release ds st = .ok st' := by
  induction h with
  | done st => exact release_nil st
  | scalar _ ih => rw [release, ih]
  | list _ ih => rw [release, ih]
  | sequence _ ih => rw [release, ih]
  | direct _ ih => rw [release_direct, ih]
  | branch hi _ ih => rw [release_branch hi, ih]
  | source _ ih => rw [release, ih]
  | fanoutLast hd _ ih => rw [release_fanout_last hd, ih]
  | fanout hd _ ih => rw [release_fanout hd, ih]
  | cellLast hi hlast _ ih => rw [release_cell_last hi hlast, Store.setCell_setCell, ih]
  | cell hi hmore _ ih => rw [release_cell hi hmore, Store.setCell_setCell, ih]

theorem of_append (h : Releases (ds ++ es) st st') :
    ∃ st₁, Releases ds st st₁ ∧ Releases es st₁ st' := by
  have hrun := h.release_eq
  rw [release_append] at hrun
  cases hds : release ds st with
  | error fault =>
    rw [hds] at hrun
    cases hrun
  | ok st₁ =>
    rw [hds] at hrun
    exact ⟨st₁, of_release ds st st₁ hds, of_release es st₁ st' hrun⟩

theorem of_drop {u : Unit} (h : Engine.drop ds st = .ok (u, st')) : Releases ds st st' := by
  simp only [Engine.drop] at h
  split at h
  · next hrelease =>
    cases h
    exact of_release ds st _ hrelease
  · cases h

end Releases

theorem Engine.drop_eq {ds : List Debris} (h : release ds st = .ok st') :
    Engine.drop ds st = .ok ((), st') := by
  simp [Engine.drop, h]

theorem Engine.dropValues_sequence {s : Linked.Sequence} (h : release [.sequence s] st = .ok st') :
    Engine.dropValues [.sequence s] st = .ok ((), st') := by
  refine Engine.drop_eq ?_
  rw [← h]
  conv => lhs; rw [Debris.ofValues, List.map, List.map, release]

namespace Engine

theorem dropValues_nil : dropValues [] = pure () := by
  funext st
  exact drop_eq (release_nil st)

theorem dropValues_append (vs ws : List Linked.Value) :
    dropValues (vs ++ ws) = (do dropValues vs; dropValues ws) := by
  funext st
  show drop (Debris.ofValues (vs ++ ws)) st = _
  rw [Debris.ofValues, List.map_append, drop, release_append]
  cases h : release (vs.map .value) st with
  | error fault =>
    exact (bind_error (f := dropValues vs) (by rw [dropValues, drop, Debris.ofValues, h])).symm
  | ok st' =>
    have hvs : dropValues vs st = .ok ((), st') := drop_eq h
    rw [bind_eq hvs]
    rfl

theorem dropValues_list (vs ws : List Linked.Value) :
    dropValues (.list vs :: ws) = dropValues (vs ++ ws) := by
  funext st
  simp only [dropValues, drop, Debris.ofValues, List.map_cons, List.map_append, release]

end Engine

end LazyCalc
