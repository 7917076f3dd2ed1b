import LazyCalc.Proofs.Desk.Keeping
import LazyCalc.Proofs.Engine.Dropping
/-!
What is kept of a store while fan-outs are taken out of it and put back. A fan-out that is lent, or
gone, is left alone by everything that is done meanwhile.
-/

namespace LazyCalc

open Engine (Keeps)

/-- Something about stores that is kept by what a drop does to them, where `D` holds of a fan-out
that is on its way back. -/
structure Store.Guard (I : Store → Prop) (D : Nat → Shared → Prop) : Prop where
  record : ∀ {st : Store} (events : List Event), I st → I (st.record events)
  lend : ∀ {st : Store} {i : Nat} {shared : Shared}, I st →
    st.fanouts[i]? = some (.held shared) → I (st.setFanout i .lent) ∧ D i shared
  leave : ∀ {i : Nat} {shared : Shared} (slot : Nat), D i shared →
    D i { shared with fanout := shared.fanout.leave slot }
  put : ∀ {st : Store} {i : Nat} {shared : Shared}, I st → D i shared →
    I (st.setFanout i (.held shared))
  vacate : ∀ {st : Store} {i : Nat} {shared : Shared}, I st → D i shared →
    I ((st.setFanout i .vacant).record (shared.hooks.map .closed))
  lendCell : ∀ {st : Store} {i : Nat} {cell : Cell}, I st → st.cells[i]? = some (.held cell) →
    I (st.setCell i .lent) ∧ I (st.setCell i .vacant) ∧
      ∀ holders, I (st.setCell i (.held { cell with holders }))

def Debris.Guarded (D : Nat → Shared → Prop) : Debris → Prop
  | .fanout i shared => D i shared
  | .value _ | .sequence _ | .source _ | .cell _ => True

namespace Debris

variable (D : Nat → Shared → Prop)

theorem guarded_ofValues (vs : List Linked.Value) : ∀ d ∈ ofValues vs, d.Guarded D := by
  intro d hd
  obtain ⟨v, -, rfl⟩ := List.mem_map.mp hd
  trivial

theorem guarded_ofItems (items : List Linked.Item) : ∀ d ∈ ofItems items, d.Guarded D := by
  intro d hd
  obtain ⟨item, -, h⟩ := List.mem_filterMap.mp hd
  cases item <;> cases h
  trivial

theorem guarded_cells (cell : Option Nat) : ∀ d ∈ cell.toList.map Debris.cell, d.Guarded D := by
  intro d hd
  obtain ⟨i, -, rfl⟩ := List.mem_map.mp hd
  trivial

theorem guarded_ofSource (s : Linked.Source) : ∀ d ∈ ofSource s, d.Guarded D := by
  cases s with
  | generated g => exact List.forall_mem_nil _
  | items remaining => exact guarded_ofItems D remaining
  | mapped inner mapping => exact List.forall_mem_cons.mpr ⟨trivial, guarded_cells D _⟩
  | filtered inner test held invert =>
    exact List.forall_mem_cons.mpr ⟨trivial, guarded_ofValues D held⟩
  | zipped left right pairing =>
    exact List.forall_mem_cons.mpr ⟨trivial, List.forall_mem_cons.mpr ⟨trivial, guarded_cells D _⟩⟩
  | window inner skip take => exact List.forall_mem_cons.mpr ⟨trivial, List.forall_mem_nil _⟩

end Debris

namespace Store.Guard

variable {I : Store → Prop} {D : Nat → Shared → Prop}

theorem of_releases (h : Guard I D) {ds : List Debris} {st st' : Store}
    (hrun : Releases ds st st') (hst : I st) (hds : ∀ d ∈ ds, d.Guarded D) : I st' := by
  -- what is guarded on the list goes along, since a fan-out waits there while it is lent
  induction hrun with
  | done st => exact hst
  | scalar _ ih => exact ih hst (List.forall_mem_cons.mp hds).2
  | list _ ih =>
    exact ih hst (List.forall_mem_append.mpr ⟨Debris.guarded_ofValues D _,
      (List.forall_mem_cons.mp hds).2⟩)
  | sequence _ ih =>
    exact ih hst (List.forall_mem_cons.mpr ⟨trivial, (List.forall_mem_cons.mp hds).2⟩)
  | direct _ ih =>
    exact ih (h.record _ hst)
      (List.forall_mem_cons.mpr ⟨trivial, (List.forall_mem_cons.mp hds).2⟩)
  | @branch i slot hint finished hooks shared rest st st' hi _ ih =>
    obtain ⟨hlent, hshared⟩ := h.lend (h.record (hooks.map .closed) hst) hi
    refine ih hlent (List.forall_mem_append.mpr ⟨Debris.guarded_ofItems D _,
      List.forall_mem_cons.mpr ⟨h.leave slot hshared, ?_⟩⟩)
    exact (List.forall_mem_cons.mp hds).2
  | source _ ih =>
    exact ih hst (List.forall_mem_append.mpr ⟨Debris.guarded_ofSource D _,
      (List.forall_mem_cons.mp hds).2⟩)
  | fanoutLast _ _ ih =>
    obtain ⟨hshared, hds⟩ := List.forall_mem_cons.mp hds
    exact ih (h.vacate hst hshared) (List.forall_mem_cons.mpr ⟨trivial, hds⟩)
  | fanout _ _ ih =>
    obtain ⟨hshared, hds⟩ := List.forall_mem_cons.mp hds
    exact ih (h.put hst hshared) hds
  | cellLast hi _ _ ih =>
    exact ih (h.lendCell hst hi).2.1
      (List.forall_mem_cons.mpr ⟨trivial, (List.forall_mem_cons.mp hds).2⟩)
  | cell hi _ _ ih => exact ih ((h.lendCell hst hi).2.2 _) (List.forall_mem_cons.mp hds).2

theorem keeps_drop (h : Guard I D) {ds : List Debris} (hds : ∀ d ∈ ds, d.Guarded D) :
    Keeps I (Engine.drop ds) :=
  fun _ _ _ hst hdrop => h.of_releases (.of_drop hdrop) hst hds

theorem keeps_dropValues (h : Guard I D) (vs : List Linked.Value) :
    Keeps I (Engine.dropValues vs) :=
  h.keeps_drop (Debris.guarded_ofValues D vs)

end Store.Guard

namespace Tree

variable {I : Store → Prop} {fork : Linked.Sequence → Engine (Linked.Sequence × Linked.Sequence)}

mutual

theorem keeps_copyWith (hfork : ∀ s, Keeps I (fork s)) (v : Linked.Value) :
    Keeps I (v.copyWith fork) := by
  cases v with
  | scalar x => exact .pure _
  | list vs => exact (keeps_copyListWith hfork vs).bind fun _ => .pure _
  | sequence s => exact (hfork s).bind fun _ => .pure _

theorem keeps_copyListWith (hfork : ∀ s, Keeps I (fork s)) (vs : List Linked.Value) :
    Keeps I (copyListWith fork vs) := by
  cases vs with
  | nil => exact .pure _
  | cons v vs =>
    exact (keeps_copyWith hfork v).bind fun _ => (keeps_copyListWith hfork vs).bind fun _ => .pure _

end

end Tree

namespace Item

variable {I : Store → Prop} {fork : Linked.Sequence → Engine (Linked.Sequence × Linked.Sequence)}

theorem keeps_copyWith (hfork : ∀ s, Keeps I (fork s)) (x : Linked.Item) :
    Keeps I (copyWith fork x) := by
  cases x with
  | error e => exact .pure _
  | ok v => exact (Tree.keeps_copyWith hfork v).bind fun _ => .pure _

theorem keeps_copyListWith (hfork : ∀ s, Keeps I (fork s)) (xs : List Linked.Item) :
    Keeps I (copyListWith fork xs) := by
  refine Keeps.bind ?_ fun _ => .pure _
  induction xs with
  | nil => exact .pure _
  | cons x xs ih =>
    rw [List.mapM_cons]
    exact (keeps_copyWith hfork x).bind fun _ => ih.bind fun _ => .pure _

end Item

theorem Collection.keeps_copyWith {I : Store → Prop}
    {fork : Linked.Sequence → Engine (Linked.Sequence × Linked.Sequence)}
    (hfork : ∀ s, Keeps I (fork s)) (c : Linked.Collection) : Keeps I (c.copyWith fork) := by
  cases c with
  | list vs => exact (Tree.keeps_copyListWith hfork vs).bind fun _ => .pure _
  | sequence s => exact (hfork s).bind fun _ => .pure _

theorem Fanout.keeps_deliver {I : Store → Prop}
    {copy : Linked.Item → Engine (Linked.Item × Linked.Item)} (hcopy : ∀ x, Keeps I (copy x))
    (puller : Nat) (x : Linked.Item) (slot : Nat) (slots : List (Option (Slot Linked.Item))) :
    Keeps I (deliver copy puller x slot slots) := by
  induction slots generalizing slot x with
  | nil => exact .pure _
  | cons o slots ih =>
    cases o with
    | none => exact (ih x _).bind fun _ => .pure _
    | some s =>
      rw [deliver]
      split
      · exact (ih x _).bind fun _ => .pure _
      · exact (hcopy x).bind fun c => (ih c.1 _).bind fun _ => .pure _

namespace Engine

variable {I : Store → Prop}
  (hcells : ∀ {st : Store} (k : Nat) (place : Place Cell), I st → I (st.setCell k place))

include hcells

theorem keeps_lendCell (k : Nat) : Keeps I (lendCell k) := by
  intro st _ _ h hcell
  obtain ⟨-, rfl⟩ := Store.of_lendCell hcell
  exact hcells k .lent h

theorem keeps_returnCell (k : Nat) (cell : Cell) : Keeps I (returnCell k cell) := by
  rintro st _ _ h ⟨⟩
  exact hcells k (.held cell) h

theorem keeps_read (hfork : ∀ s : Linked.Sequence, Keeps I s.fork) (k : Nat) :
    Keeps I (read k) :=
  (keeps_lendCell hcells k).bind fun cell =>
    (Collection.keeps_copyWith hfork cell.collection).bind fun _ =>
      (keeps_returnCell hcells k _).bind fun _ => .pure _

theorem keeps_retain (k : Nat) : Keeps I (retain k) :=
  (keeps_lendCell hcells k).bind fun _ => keeps_returnCell hcells k _

end Engine

/-! What holds of a fan-out on its way is kept when it is changed, if only its place matters and what
comes first among its labels. -/

namespace Store.Guard

variable {I : Store → Prop} {D : Nat → Shared → Prop} (h : Guard I D)
  (hD : ∀ {i : Nat} {shared shared' : Shared}, D i shared → shared.hooks <+: shared'.hooks →
    D i shared')
  (hadd : ∀ {st : Store} (shared : Shared), I st → I (st.addFanout shared).2)

include h hD

theorem keeps_pullBranch (hfork : ∀ s : Linked.Sequence, Keeps I s.fork) (n : Nat)
    (hstep : ∀ source : Linked.Source, Keeps I (source.step (Drive.ofFuel n))) (b : Branch) :
    Keeps I (pullBranch (Drive.ofFuel n) b) := by
  obtain ⟨i, slot⟩ := b
  intro st r st' hst hr
  obtain ⟨⟨source, fanout, hooks⟩, st₁, hlend, hr⟩ := Engine.of_bind_ok hr
  obtain ⟨hi, rfl⟩ := of_lendFanout hlend
  obtain ⟨hlent, hshared⟩ := h.lend hst hi
  cases hpop : fanout.pop? slot with
  | some popped =>
    simp only [hpop] at hr
    cases hr
    exact h.put hlent (hD hshared (List.prefix_refl _))
  | none =>
    simp only [hpop] at hr
    by_cases hdone : fanout.done = true
    · rw [if_pos hdone] at hr
      cases hr
      exact h.put hlent hshared
    · rw [if_neg hdone] at hr
      obtain ⟨⟨_ | x, source'⟩, st₂, hs, hr⟩ := Engine.of_bind_ok hr
      · cases hr
        exact h.put (hstep source _ _ _ hlent hs) (hD hshared (List.prefix_refl _))
      · obtain ⟨⟨x', slots, lags⟩, st₃, hdeliver, hr⟩ := Engine.of_bind_ok hr
        have h₃ := Fanout.keeps_deliver (Item.keeps_copyWith hfork) slot x 0 fanout.slots _ _ _
          (hstep source _ _ _ hlent hs) hdeliver
        cases hr
        exact h.put (h.record (lags.map .lagging) h₃) (hD hshared (List.prefix_refl _))

include hadd

theorem keeps_forkWithin (depth : Nat) (s : Linked.Sequence) :
    Keeps I (Sequence.forkWithin depth s) := by
  induction depth generalizing s with
  | zero => exact .fault .outOfFuel
  | succ depth ih =>
    intro st r st' hst hr
    obtain ⟨origin, hint, finished, hooks⟩ := s
    cases origin with
    | direct source =>
      obtain ⟨_, st₁, hmade, hr⟩ := Engine.of_bind_ok hr
      obtain rfl : _ = st₁ := congrArg Prod.snd (Except.ok.inj hmade)
      cases hr
      exact hadd _ hst
    | branch place =>
      obtain ⟨i, slot⟩ := place
      obtain ⟨shared, st₁, hlend, hr⟩ := Engine.of_bind_ok hr
      obtain ⟨hi, rfl⟩ := of_lendFanout hlend
      obtain ⟨hlent, hshared⟩ := h.lend hst hi
      obtain ⟨⟨own, seed⟩, st₂, hcopy, hr⟩ := Engine.of_bind_ok hr
      have h₂ := Item.keeps_copyListWith ih _ _ _ _ hlent hcopy
      cases hr
      exact h.put h₂ (hD hshared (List.prefix_append _ _))

theorem keeps_fork (s : Linked.Sequence) : Keeps I s.fork :=
  fun st => h.keeps_forkWithin hD hadd _ s st

theorem kept (hkeep : ∀ c, Keeps I (Engine.keep c)) (hread : ∀ k, Keeps I (Engine.read k)) :
    Kept I where
  fork := h.keeps_fork hD hadd
  drop := h.keeps_dropValues
  note texts := by
    rintro st _ _ hst ⟨⟩
    exact h.record _ hst
  keep := hkeep
  read := hread
  retain k := by
    intro st r st' hst hr
    obtain ⟨cell, st₁, hlend, hr⟩ := Engine.of_bind_ok hr
    obtain ⟨hk, rfl⟩ := of_lendCell hlend
    cases hr
    rw [setCell_setCell]
    exact (h.lendCell hst hk).2.2 _
  dismiss k := h.keeps_drop (List.forall_mem_singleton.mpr trivial)
  branch := h.keeps_pullBranch hD (h.keeps_fork hD hadd)

end Store.Guard

namespace Store

variable {i : Nat} {place : Place Shared}

def Shows (i : Nat) (place : Place Shared) (st : Store) : Prop := st.fanouts[i]? = some place

theorem Shows.setFanout {st : Store} {j : Nat} {other : Place Shared} (h : st.Shows i place)
    (hj : j ≠ i) : (st.setFanout j other).Shows i place := by
  rw [Shows, getElem?_setFanout, if_neg hj]
  exact h

theorem Shows.of_set {st : Store} {other : Place Shared} (h : st.Shows i place) :
    (st.setFanout i other).Shows i other := by
  rw [Shows, getElem?_setFanout, if_pos rfl, if_pos (lt_of_getElem? h)]

theorem Shows.ne_of_held {st : Store} {j : Nat} {shared : Shared} (h : st.Shows i place)
    (hplace : ∀ shared, place ≠ .held shared) (hj : st.fanouts[j]? = some (.held shared)) :
    j ≠ i := by
  rintro rfl
  exact hplace shared (Option.some.inj (h.symm.trans hj))

theorem Shows.addFanout {st : Store} (h : st.Shows i place) (shared : Shared) :
    (st.addFanout shared).2.Shows i place := by
  rw [Shows, getElem?_addFanout, if_neg (lt_of_getElem? h).ne]
  exact h

theorem lent_ne_held (shared : Shared) : Place.lent ≠ .held shared := nofun

theorem vacant_ne_held (shared : Shared) : Place.vacant ≠ .held shared := nofun

variable (hplace : ∀ shared, place ≠ .held shared)

include hplace

theorem guard_shows : Guard (Shows i place) fun j _ => j ≠ i where
  record _ h := h
  lend h hj := ⟨h.setFanout (h.ne_of_held hplace hj), h.ne_of_held hplace hj⟩
  leave _ hj := hj
  put h hj := h.setFanout hj
  vacate h hj := h.setFanout hj
  lendCell h _ := ⟨h, h, fun _ => h⟩

theorem keeps_forkWithin_shows (depth : Nat) (s : Linked.Sequence) :
    Keeps (Shows i place) (Sequence.forkWithin depth s) :=
  (guard_shows hplace).keeps_forkWithin (fun hj _ => hj) (fun shared h => h.addFanout shared)
    depth s

theorem keeps_fork_shows (s : Linked.Sequence) : Keeps (Shows i place) s.fork :=
  fun st => keeps_forkWithin_shows hplace _ s st

theorem kept_shows : Kept (Shows i place) := by
  refine (guard_shows hplace).kept (fun hj _ => hj) (fun shared h => h.addFanout shared) ?_
    (Engine.keeps_read (fun _ _ h => h) (keeps_fork_shows hplace))
  rintro c st _ _ h ⟨⟩
  exact h

end Store

end LazyCalc
