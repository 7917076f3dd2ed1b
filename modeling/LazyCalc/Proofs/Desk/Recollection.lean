import LazyCalc.Proofs.Desk.Moments
/-!
Lone sequences that keep the labels of all that they come from, beside the same runs in a store: a
label that one of them has waits with the sequence that stands for it, or with the fan-out of that.
-/

namespace LazyCalc

/-- Runs that started with nothing, and the same runs of lone sequences that keep labels. -/
inductive Remembered : List String → Linked.Desk → Store → Lone.Desk → Prop
  | start : Remembered [] [] .empty []
  | run {labels : List String} {desk desk' : Linked.Desk} {st st' : Store} {lone lone' : Lone.Desk}
    {replies : List (Nat × Showing)} (n : Nat) (acts : List (Nat × Act))
    (h : Remembered labels desk st lone)
    (hrun : Desk.runLinked n acts [desk] st = .ok ((replies, [desk']), st'))
    (hlone : Settles (fun m => Desk.run (Drive.alone m) Sequence.onClose acts [lone])
      (replies, [lone'])) :
    Remembered (labels ++ Desk.registered acts replies) desk' st' lone'

structure Recollection where
  /-- What a branch still has to give, if it is not over. -/
  stream : Branch → Option Lone.Source
  source : Nat → Twins.Source
  collection : Nat → Twins.Collection

namespace Recollection

/-- All labels that a lone sequence has wait: those of the sequence that stands for it with that
itself, and if that is a branch, those that come before them with its fan-out. -/
inductive Recalls (R : Recollection) (b : Book) : Twins.Sequence → Prop
  | direct (source : Twins.Source) (hint : Hint) (finished : Bool) (hooks : List String)
    (hwait : (.direct, hooks) ∈ b.1)
    (hsequence : ∀ s, .sequence s ∈ (parts source : Twins.Parts) → Recalls R b s)
    (hcell : ∀ k, .cell k ∈ (parts source : Twins.Parts) →
      k.right.collection = right (R.collection k.left)) :
    Recalls R b ⟨⟨.direct (left source), hint, finished, hooks⟩,
      ⟨.direct (right source), hint, finished, hooks⟩⟩
  | branch (place : Branch) (stream : Lone.Source) (hint : Hint) (finished : Bool)
    (before hooks passed : List String) (hstream : finished = false → R.stream place = some stream)
    (hwait : (.branch place, hooks) ∈ b.1) (hpassed : (.fanout place.fanout, passed) ∈ b.1)
    (hbefore : before.Sublist passed) :
    Recalls R b ⟨⟨.branch place, hint, finished, hooks⟩,
      ⟨.direct stream, hint, finished, before ++ hooks⟩⟩

/-- The parts stand for each other, and all labels of the lone ones wait. -/
structure Covers (R : Recollection) (b : Book) (A : Twins.Parts) : Prop where
  sequence : ∀ s, .sequence s ∈ A → R.Recalls b s
  cell : ∀ k, .cell k ∈ A → k.right.collection = right (R.collection k.left)

/-- For all that lies on a desk and is in a store there are lone sequences, all labels of which
wait. -/
structure Tells (R : Recollection) (b : Book) (st : Store) (desk : Twins.Desk) : Prop where
  desk : R.Covers b (parts desk)
  source : ∀ (i : Nat) (shared : Shared), st.fanouts[i]? = some (.held shared) →
    left (R.source i) = shared.source ∧ R.Covers b (parts (R.source i))
  backlog : ∀ (i : Nat) (shared : Shared) (slot : Nat) (s : Slot Linked.Item),
    st.fanouts[i]? = some (.held shared) → shared.fanout.slot? slot = some s →
    ∃ xs : List Twins.Item, left xs = s.backlog.toList ∧ R.Covers b (parts xs) ∧
      ∀ S, R.stream ⟨i, slot⟩ = some S → Leads shared.fanout.done (right (R.source i)) S (right xs)
  collection : ∀ (i : Nat) (cell : Cell), st.cells[i]? = some (.held cell) →
    left (R.collection i) = cell.collection ∧ R.Covers b (parts (R.collection i))

variable {R : Recollection} {b : Book} {s : Twins.Sequence}

theorem Recalls.waits (h : R.Recalls b s) {label : String} (hlabel : label ∈ s.right.hooks) :
    ∃ w ∈ b.1, label ∈ w.2 ∧ (w.1 = s.left.origin.carrier ∨
      ∃ place, s.left.origin = .branch place ∧ w.1 = .fanout place.fanout) := by
  cases h with
  | direct source hint finished hooks hwait => exact ⟨_, hwait, hlabel, .inl rfl⟩
  | branch place stream hint finished before hooks passed hstream hwait hpassed hbefore =>
    obtain hlabel | hlabel := List.mem_append.mp hlabel
    · exact ⟨_, hpassed, hbefore.subset hlabel, .inr ⟨place, rfl, rfl⟩⟩
    · exact ⟨_, hwait, hlabel, .inl rfl⟩

end Recollection

section

variable {G : Ledger} {st : Store} {desk : Twins.Desk}

theorem mem_waitingIn {A : Assets} {carrier : Carrier} {labels : List String}
    (h : .hooks carrier labels ∈ A) : (carrier, labels) ∈ waitingIn A :=
  (Multiset.mem_filterMap _ _).mpr ⟨_, h, rfl⟩

theorem Quiet.passed {t : Bool} {A : Twins.Parts} (h : Quiet t G st A) {place : Branch}
    (hplace : .branch place ∈ st.assets + ownedBy A) :
    ∃ passed, .hooks (.fanout place.fanout) passed ∈ st.assets ∧
      (G.before place).Sublist passed := by
  obtain ⟨i, slot⟩ := place
  have hlive := h.sound.live_of_mem hplace
  obtain hlent | ⟨shared, hi⟩ := h.sound.present _ hlive
  · have := (h.sound.lentFanout i).mpr hlent
    rw [h.idle] at this
    cases this
  · have hshared := (h.sound.shared i shared hi).1
    rw [hshared.live] at hlive
    obtain ⟨s, hs⟩ := Option.isSome_iff_exists.mp hlive
    refine ⟨shared.hooks, Store.mem_assets.mpr (.inl ⟨i, shared, hi, ?_⟩), hshared.before slot s hs⟩
    exact Multiset.mem_add.mpr (.inr (Multiset.mem_singleton_self _))

variable {R : Recollection}

theorem Twins.Matches.recalls {A : Twins.Parts} (h : Quiet true G st A) {s : Twins.Sequence}
    (hs : Matches G s) (hstream : R.stream = G.stream)
    (hcollection : ∀ i, .cell i ∈ st.assets + ownedBy A →
      (G.snapshot i).collection = right (R.collection i))
    (hassets : ∀ a ∈ s.left.assets, a ∈ st.assets + ownedBy A) : R.Recalls G.book s := by
  rw [h.sound.book]
  induction hs with
  | direct source hint finished hooks hsequence hcell hhooks ih =>
    obtain ⟨labels, labels'⟩ := hooks
    obtain rfl : labels' = labels := hhooks h.tracked
    rw [assets_direct, ← ownedBy_source] at hassets
    have hsource (a : Asset) (ha : a ∈ ownedBy (parts source)) : a ∈ st.assets + ownedBy A :=
      hassets a (Multiset.mem_add.mpr (.inr ha))
    refine .direct source hint finished labels' (mem_waitingIn (hassets _ (by simp)))
      (fun t ht => ih t ht fun a ha => ?_) fun k hk => ?_
    · exact hsource a (Multiset.mem_of_le (assets_le_ownedBy ht) ha)
    · rw [← hcell k hk]
      exact hcollection _ (hsource _ (cell_mem_ownedBy hk))
  | branch place stream hint finished hooks hplace hhooks =>
    obtain ⟨labels, labels'⟩ := hooks
    obtain rfl : labels' = G.before place ++ labels := hhooks h.tracked
    rw [assets_branch] at hassets
    obtain ⟨passed, hpassed, hbefore⟩ := h.passed (hassets (.branch place) (by simp))
    exact .branch place stream hint finished _ labels passed (fun hf => hstream ▸ hplace hf)
      (mem_waitingIn (hassets _ (by simp))) (mem_waitingIn (Multiset.mem_add.mpr (.inl hpassed)))
      hbefore

theorem Twins.Fits.covers {A B : Twins.Parts} (h : Quiet true G st A) (hB : Fits G B)
    (hstream : R.stream = G.stream)
    (hcollection : ∀ i, .cell i ∈ st.assets + ownedBy A →
      (G.snapshot i).collection = right (R.collection i))
    (hassets : ∀ a ∈ ownedBy B, a ∈ st.assets + ownedBy A) : R.Covers G.book B where
  sequence s hs := (hB.sequence s hs).recalls h hstream hcollection
    fun a ha => hassets a (Multiset.mem_of_le (assets_le_ownedBy hs) ha)
  cell k hk := by
    rw [← hB.cell k hk]
    exact hcollection _ (hassets _ (cell_mem_ownedBy hk))

theorem Quiet.held_of_cell {t : Bool} {A : Twins.Parts} (h : Quiet t G st A) {i : Nat}
    (hi : .cell i ∈ st.assets + ownedBy A) : ∃ cell : Cell, st.cells[i]? = some (.held cell) :=
  h.sound.cell_held_of_mem hi (h.idle _)

theorem Quiet.recollection (h : Quiet true G st (parts desk)) :
    ∃ R : Recollection, R.Tells G.book st desk := by
  have hsources (i : Nat) : ∃ source : Twins.Source, ∀ shared : Shared,
      st.fanouts[i]? = some (.held shared) → left source = shared.source ∧
        Twins.Fits G (parts source) ∧ ∀ slot s, shared.fanout.slot? slot = some s →
          Backlogged G shared.fanout.done (right source) (G.stream ⟨i, slot⟩) s.backlog.toList := by
    by_cases hi : ∃ shared : Shared, st.fanouts[i]? = some (.held shared)
    · obtain ⟨shared, hi⟩ := hi
      obtain ⟨source, hstreams⟩ := (h.sound.shared i shared hi).1.streams
      refine ⟨source, fun shared' hi' => ?_⟩
      obtain rfl : shared = shared' := Place.held.inj (Option.some.inj (hi.symm.trans hi'))
      exact hstreams
    · exact ⟨.items [], fun shared hi' => absurd ⟨shared, hi'⟩ hi⟩
  have hcells (i : Nat) : ∃ c : Twins.Collection, ∀ cell : Cell,
      st.cells[i]? = some (.held cell) → left c = cell.collection ∧
        right c = (G.snapshot i).collection ∧ Twins.Fits G (parts c) := by
    by_cases hi : ∃ cell : Cell, st.cells[i]? = some (.held cell)
    · obtain ⟨cell, hi⟩ := hi
      obtain ⟨c, hc⟩ := (h.sound.cell i cell hi).snapshot
      refine ⟨c, fun cell' hi' => ?_⟩
      obtain rfl : cell = cell' := Place.held.inj (Option.some.inj (hi.symm.trans hi'))
      exact hc
    · exact ⟨.list [], fun cell hi' => absurd ⟨cell, hi'⟩ hi⟩
  choose source hsource using hsources
  choose collection hcollection using hcells
  let R : Recollection := ⟨G.stream, source, collection⟩
  have hsnapshot (i : Nat) (hi : .cell i ∈ st.assets + ownedBy (parts desk)) :
      (G.snapshot i).collection = right (R.collection i) := by
    obtain ⟨cell, hi⟩ := h.held_of_cell hi
    exact (hcollection i cell hi).2.1.symm
  have hcovers {B : Twins.Parts} (hB : Twins.Fits G B) (hassets : ∀ a ∈ ownedBy B, a ∈ st.assets) :
      R.Covers G.book B :=
    hB.covers h rfl hsnapshot fun a ha => Multiset.mem_add.mpr (.inl (hassets a ha))
  refine ⟨R, h.fits.covers h rfl hsnapshot fun a ha => Multiset.mem_add.mpr (.inr ha),
    fun i shared hi => ?_, fun i shared slot s hi hs => ?_, fun i cell hi => ?_⟩
  · obtain ⟨hleft, hfits, -⟩ := hsource i shared hi
    refine ⟨hleft, hcovers hfits fun a ha => ?_⟩
    rw [ownedBy_source, hleft] at ha
    exact Store.mem_assets.mpr
      (.inl ⟨i, shared, hi, Multiset.mem_of_le (shared.source_assets_le i) ha⟩)
  · obtain ⟨xs, hxs, hfits, hleads⟩ := (hsource i shared hi).2.2 slot s hs
    refine ⟨xs, hxs, hcovers hfits fun a ha => ?_, hleads⟩
    rw [ownedBy_items, hxs] at ha
    exact Store.mem_assets.mpr
      (.inl ⟨i, shared, hi, Multiset.mem_of_le (Shared.slot_assets_le hs) ha⟩)
  · obtain ⟨hleft, -, hfits⟩ := hcollection i cell hi
    refine ⟨hleft, hcovers hfits fun a ha => Store.mem_assets.mpr (.inr ⟨i, cell, hi, ?_⟩)⟩
    rw [parts_collection_assets, hleft] at ha
    exact ha

end

theorem Remembered.quiet {labels : List String} {desk : Linked.Desk} {st : Store} {lone : Lone.Desk}
    (h : Remembered labels desk st lone) : ∃ (twins : Twins.Desk) (G : Ledger),
      left twins = desk ∧ right twins = lone ∧ Quiet true G st (parts twins) := by
  induction h with
  | start => exact ⟨[], .empty true, rfl, rfl, .empty⟩
  | run n acts h hrun hlone ih =>
    obtain ⟨twins, G, rfl, rfl, hquiet⟩ := ih
    obtain hx | ⟨replies, twins', G', st', hx, hY, hquiet', -⟩ := hquiet.runOne n acts
    · cases hx.symm.trans hrun
    · obtain ⟨hc, rfl⟩ := Prod.mk.inj (Except.ok.inj (hx.symm.trans hrun))
      obtain ⟨-, hleft⟩ := Prod.mk.inj hc
      obtain ⟨-, hright⟩ := Prod.mk.inj (hY.unique hlone)
      exact ⟨twins', G', (List.cons.inj hleft).1, (List.cons.inj hright).1, hquiet'⟩

theorem Reached.remembered {labels : List String} {desk : Linked.Desk} {st : Store}
    (h : Reached labels desk st) : ∃ lone, Remembered labels desk st lone := by
  induction h with
  | start => exact ⟨[], .start⟩
  | run n acts h hrun ih =>
    obtain ⟨lone, hlone⟩ := ih
    obtain ⟨twins, G, rfl, rfl, hquiet⟩ := hlone.quiet
    obtain hx | ⟨replies, twins', G', st', hx, hY, -⟩ := hquiet.runOne n acts
    · cases hx.symm.trans hrun
    · obtain ⟨hc, rfl⟩ := Prod.mk.inj (Except.ok.inj (hx.symm.trans hrun))
      obtain ⟨rfl, hdesk⟩ := Prod.mk.inj hc
      obtain rfl := (List.cons.inj hdesk).1
      exact ⟨right twins', .run n acts hlone hrun hY⟩

end LazyCalc
