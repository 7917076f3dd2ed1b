import LazyCalc.Proofs.Sharing.Amending
import Mathlib.Data.Finset.Max
/-!
Who carries labels: every sequence that is there has its own, and so has every fan-out that is read.
When nobody is there to be dropped any more, nothing is left in a store.
-/

namespace LazyCalc

def carriersIn (A : Assets) : Multiset Carrier := (waitingIn A).map Prod.fst

theorem carriersIn_add (A B : Assets) : carriersIn (A + B) = carriersIn A + carriersIn B := by
  rw [carriersIn, waitingIn_add, Multiset.map_add]
  rfl

@[simp]
theorem carriersIn_hooks (carrier : Carrier) (labels : List String) :
    carriersIn {.hooks carrier labels} = {carrier} := rfl

@[simp]
theorem carriersIn_branch (p : Branch) : carriersIn {.branch p} = 0 := rfl

@[simp]
theorem carriersIn_cell (i : Nat) : carriersIn {.cell i} = 0 := rfl

/-- Each branch carries labels of its own, and there are no fan-outs. -/
structure Attended (A : Assets) : Prop where
  branch : ∀ p, (carriersIn A).count (.branch p) = A.count (.branch p)
  fanout : ∀ i, (carriersIn A).count (.fanout i) = 0

namespace Attended

variable {A B : Assets}

theorem zero : Attended 0 := ⟨fun _ => rfl, fun _ => rfl⟩

theorem add (hA : Attended A) (hB : Attended B) : Attended (A + B) where
  branch p := by rw [carriersIn_add, Multiset.count_add, hA.branch, hB.branch, ← Multiset.count_add]
  fanout i := by rw [carriersIn_add, Multiset.count_add, hA.fanout, hB.fanout]

theorem direct (labels : List String) : Attended {.hooks .direct labels} where
  branch p := by simp
  fanout i := by simp

theorem ofBranch (place : Branch) (labels : List String) :
    Attended ({.hooks (.branch place) labels} + {.branch place}) where
  branch p := by
    rw [carriersIn_add, carriersIn_hooks, carriersIn_branch, add_zero, Multiset.count_add]
    simp [Multiset.count_singleton]
  fanout i := by
    rw [carriersIn_add, carriersIn_hooks, carriersIn_branch, add_zero]
    simp

theorem ofCell? (cell : Option Nat) : Attended (Asset.ofCell? cell) := by
  cases cell with
  | none => exact zero
  | some i => exact ⟨fun p => by simp [Asset.ofCell?], fun j => rfl⟩

theorem sum {As : List Assets} (h : ∀ A ∈ As, Attended A) : Attended As.sum := by
  induction As with
  | nil => exact zero
  | cons A As ih =>
    rw [List.sum_cons]
    exact (h A List.mem_cons_self).add (ih fun B hB => h B (List.mem_cons_of_mem A hB))

end Attended

mutual

theorem Tree.attended (v : Linked.Value) : Attended v.assets := by
  cases v with
  | scalar x => exact .zero
  | list items => exact Tree.attendedList items
  | sequence s => exact s.attended

theorem Tree.attendedList (vs : List Linked.Value) : Attended (Tree.assetsList vs) := by
  cases vs with
  | nil => exact .zero
  | cons v vs => exact v.attended.add (Tree.attendedList vs)

theorem Sequence.attended (s : Linked.Sequence) : Attended s.assets := by
  obtain ⟨origin, hint, finished, hooks⟩ := s
  cases origin with
  | direct source => exact (Attended.direct hooks).add source.attended
  | branch place => exact .ofBranch place hooks

theorem Source.attended (s : Linked.Source) : Attended s.assets := by
  cases s with
  | generated g => exact .zero
  | items remaining => exact Source.attendedItems remaining
  | mapped inner mapping => exact inner.attended.add (.ofCell? _)
  | filtered inner test held invert => exact inner.attended.add (Tree.attendedList held)
  | zipped left right pairing => exact (left.attended.add right.attended).add (.ofCell? _)
  | window inner skip take => exact inner.attended

theorem Source.attendedItems (items : List Linked.Item) : Attended (Source.itemAssets items) := by
  cases items with
  | nil => exact .zero
  | cons item items =>
    cases item with
    | ok v => exact v.attended.add (Source.attendedItems items)
    | error e => exact Source.attendedItems items

end

theorem Fanout.attended (f : Fanout Linked.Item) : Attended f.assets := by
  refine .sum fun A hA => ?_
  obtain ⟨o, -, rfl⟩ := List.mem_map.mp hA
  cases o with
  | none => exact .zero
  | some s => exact Source.attendedItems s.backlog.toList

def Place.isHeld : Option (Place Shared) → Bool
  | some (.held _) => true
  | some .vacant | some .lent | none => false

/-- Each branch carries labels of its own, and so does each fan-out of those that `held` tells. -/
structure Staffed (held : Nat → Bool) (A : Assets) : Prop where
  branch : ∀ p, (carriersIn A).count (.branch p) = A.count (.branch p)
  fanout : ∀ i, (carriersIn A).count (.fanout i) = (held i).toNat

theorem Staffed.add {held : Nat → Bool} {A B : Assets} (hA : Staffed held A) (hB : Attended B) :
    Staffed held (A + B) where
  branch p := by rw [carriersIn_add, Multiset.count_add, hA.branch, hB.branch, ← Multiset.count_add]
  fanout i := by rw [carriersIn_add, Multiset.count_add, hA.fanout, hB.fanout, add_zero]

theorem Shared.attended (shared : Shared) :
    Attended (shared.source.assets + shared.fanout.assets) :=
  shared.source.attended.add shared.fanout.attended

theorem staffed_concat {l : List (Place Shared)} {A : Assets}
    (h : Staffed (fun i : Nat => Place.isHeld l[i]?) A) (place : Place Shared) :
    Staffed (fun i : Nat => Place.isHeld (l ++ [place])[i]?) (A + place.assets (Shared.assets l.length)) := by
  have hget (i : Nat) : Place.isHeld (l ++ [place])[i]? =
      if i = l.length then Place.isHeld (some place) else Place.isHeld l[i]? := by
    rcases Nat.lt_trichotomy i l.length with hi | rfl | hi
    · rw [List.getElem?_append_left hi, if_neg (Nat.ne_of_lt hi)]
    · rw [if_pos rfl, List.getElem?_concat_length]
    · rw [if_neg (Nat.ne_of_gt hi), List.getElem?_eq_none (by simp; omega),
        List.getElem?_eq_none (Nat.le_of_lt hi)]
  have hlast : Place.isHeld l[l.length]? = false := by simp [Place.isHeld]
  have hsame (hp : Place.isHeld (some place) = false) : (fun i : Nat => Place.isHeld (l ++ [place])[i]?) =
      fun i : Nat => Place.isHeld l[i]? := by
    funext i
    rw [hget, hp]
    split
    · next hi => rw [hi, hlast]
    · rfl
  cases place with
  | vacant =>
    rw [hsame rfl, Place.assets_vacant, add_zero]
    exact h
  | lent =>
    rw [hsame rfl, Place.assets_lent, add_zero]
    exact h
  | held shared =>
    have hshared := h.add shared.attended
    rw [Place.assets_held, Shared.assets, ← add_assoc]
    refine ⟨fun p => ?_, fun i => ?_⟩
    · rw [carriersIn_add, Multiset.count_add, hshared.branch, Multiset.count_add]
      simp
    · rw [carriersIn_add, Multiset.count_add, hshared.fanout, hget]
      by_cases hi : i = l.length
      · subst hi
        simp [Place.isHeld]
      · simp [hi]

theorem Store.staffed (st : Store) : Staffed (fun i : Nat => Place.isHeld st.fanouts[i]?) st.assets := by
  have hfanouts (l : List (Place Shared)) : Staffed (fun i : Nat => Place.isHeld l[i]?)
      (l.mapIdx fun i place => place.assets (Shared.assets i)).sum := by
    induction l using List.reverseRecOn with
    | nil => exact ⟨fun _ => rfl, fun _ => rfl⟩
    | append_singleton l place ih =>
      rw [List.mapIdx_concat, List.sum_append, List.sum_singleton]
      exact staffed_concat ih place
  have hcells : Attended (Store.assetsAt (fun _ => Cell.assets) st.cells) := by
    rw [Store.assetsAt, mapIdx_const]
    refine .sum fun A hA => ?_
    obtain ⟨place, -, rfl⟩ := List.mem_map.mp hA
    cases place with
    | vacant => exact .zero
    | lent => exact .zero
    | held cell => exact cell.collection.toValue.attended
  have := (hfanouts st.fanouts.toList).add hcells
  simp only [Array.getElem?_toList] at this
  exact this

theorem Fanout.exists_slot {α : Type} {f : Fanout α} (h : ¬ f.isDeserted = true) :
    ∃ slot, (f.slot? slot).isSome := by
  rw [isDeserted, List.all_eq_true, not_forall] at h
  obtain ⟨o, ho⟩ := h
  rw [Classical.not_imp] at ho
  obtain ⟨slot, hslot⟩ := List.mem_iff_getElem?.mp ho.1
  refine ⟨slot, ?_⟩
  rw [slot?, hslot]
  cases o with
  | none => exact absurd rfl ho.2
  | some s => rfl

def Store.Occupied (st : Store) : Spot → Prop
  | .fanout i => ∃ shared : Shared, st.fanouts[i]? = some (.held shared)
  | .cell i => ∃ cell : Cell, st.cells[i]? = some (.held cell)

namespace Sound

variable {G : Ledger} {st : Store}

theorem exists_above {own : Assets} (h : Sound G st own) {a : Asset} (ha : a ∈ st.assets)
    {x : Spot} (hx : a.spot? = some x) : ∃ y, st.Occupied y ∧ G.rank x < G.rank y := by
  obtain ⟨i, shared, hi, ha⟩ | ⟨i, cell, hi, ha⟩ := Store.mem_assets.mp ha
  · exact ⟨.fanout i, ⟨shared, hi⟩, (h.shared i shared hi).1.below a ha x hx⟩
  · exact ⟨.cell i, ⟨cell, hi⟩, (h.cell i cell hi).below a ha x hx⟩

theorem above_of_occupied (h : Sound G st 0) {x : Spot} (hx : st.Occupied x) :
    ∃ y, st.Occupied y ∧ G.rank x < G.rank y := by
  cases x with
  | fanout i =>
    obtain ⟨shared, hi⟩ := hx
    obtain ⟨hshared, hd⟩ := h.shared i shared hi
    obtain ⟨slot, hslot⟩ := Fanout.exists_slot hd
    have hcount := h.branches ⟨i, slot⟩
    rw [hshared.live, hslot, add_zero] at hcount
    exact h.exists_above (Multiset.count_pos.mp (by rw [hcount]; exact Nat.one_pos)) rfl
  | cell i =>
    obtain ⟨cell, hi⟩ := hx
    have hcell := h.cell i cell hi
    have hcount := h.holdings i
    rw [← hcell.holders, add_zero] at hcount
    exact h.exists_above (Multiset.count_pos.mp (by rw [hcount]; exact hcell.held)) rfl

/-- If those at work own nothing, a store is empty: there would be a highest place otherwise. -/
theorem not_occupied (h : Sound G st 0) (x : Spot) : ¬ st.Occupied x := by
  classical
  intro hx
  let places : Finset Spot := ((Finset.range st.fanouts.size).image .fanout ∪
    (Finset.range st.cells.size).image .cell).filter st.Occupied
  have hmem {y : Spot} (hy : st.Occupied y) : y ∈ places := by
    refine Finset.mem_filter.mpr ⟨Finset.mem_union.mpr ?_, hy⟩
    cases y with
    | fanout i =>
      obtain ⟨shared, hi⟩ := hy
      exact .inl (Finset.mem_image.mpr ⟨i, Finset.mem_range.mpr (Store.lt_of_getElem? hi), rfl⟩)
    | cell i =>
      obtain ⟨cell, hi⟩ := hy
      exact .inr (Finset.mem_image.mpr
        ⟨i, Finset.mem_range.mpr (Array.getElem?_eq_some_iff.mp hi).1, rfl⟩)
  obtain ⟨y, hy, hmax⟩ := places.exists_max_image G.rank ⟨x, hmem hx⟩
  obtain ⟨z, hz, hlt⟩ := h.above_of_occupied (Finset.mem_filter.mp hy).2
  exact absurd hlt (not_lt_of_ge (hmax z (hmem hz)))

theorem assets_eq_zero (h : Sound G st 0) : st.assets = 0 := by
  refine Multiset.eq_zero_of_forall_notMem fun a ha => ?_
  obtain ⟨i, shared, hi, -⟩ | ⟨i, cell, hi, -⟩ := Store.mem_assets.mp ha
  · exact h.not_occupied (.fanout i) ⟨shared, hi⟩
  · exact h.not_occupied (.cell i) ⟨cell, hi⟩

end Sound

end LazyCalc
