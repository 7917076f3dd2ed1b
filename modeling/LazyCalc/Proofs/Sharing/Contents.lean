import LazyCalc.Proofs.Fanout.Slots
import LazyCalc.Proofs.Sharing.Asset
namespace LazyCalc

section

variable {α : Type}

theorem mapIdx_const {β : Type} (f : α → β) (l : List α) : (l.mapIdx fun _ => f) = l.map f := by
  refine List.ext_getElem? fun i => ?_
  rw [List.getElem?_mapIdx, List.getElem?_map]

theorem sum_mapIdx_set {M : Type} [AddCommMonoid M] (w : Nat → α → M) (l : List α) {i : Nat}
    {a b : α} (h : l[i]? = some b) :
    ((l.set i a).mapIdx w).sum + w i b = (l.mapIdx w).sum + w i a := by
  induction l generalizing i w with
  | nil => simp at h
  | cons c l ih =>
    cases i with
    | zero =>
      obtain rfl : c = b := by simpa using h
      simp only [List.set_cons_zero, List.mapIdx_cons, List.sum_cons]
      abel
    | succ i =>
      have := ih (fun j => w (j + 1)) (i := i) (by simpa using h)
      simp only [List.set_cons_succ, List.mapIdx_cons, List.sum_cons, add_assoc, this]

theorem sum_map_set {M : Type} [AddCommMonoid M] (w : α → M) (l : List α) {i : Nat} {a b : α}
    (h : l[i]? = some b) : ((l.set i a).map w).sum + w b = (l.map w).sum + w a := by
  simpa only [mapIdx_const] using sum_mapIdx_set (fun _ => w) l h

variable (w : Nat → α → Assets)

theorem mem_sum_mapIdx {l : List α} {x : Asset} :
    x ∈ (l.mapIdx w).sum ↔ ∃ (i : Nat) (a : α), l[i]? = some a ∧ x ∈ w i a := by
  induction l generalizing w with
  | nil => simp
  | cons c l ih =>
    simp only [List.mapIdx_cons, List.sum_cons, Multiset.mem_add, ih]
    constructor
    · rintro (h | ⟨i, a, hi, h⟩)
      · exact ⟨0, c, rfl, h⟩
      · exact ⟨i + 1, a, hi, h⟩
    · rintro ⟨_ | i, a, hi, h⟩
      · obtain rfl : c = a := by simpa using hi
        exact .inl h
      · exact .inr ⟨i, a, hi, h⟩

theorem mem_sum_map (w : α → Assets) {l : List α} {x : Asset} :
    x ∈ (l.map w).sum ↔ ∃ (i : Nat) (a : α), l[i]? = some a ∧ x ∈ w a := by
  simpa only [mapIdx_const] using mem_sum_mapIdx (fun _ => w)

variable {places : Array (Place α)} {i : Nat} {p q : Place α}

theorem assetsAt_set (h : places[i]? = some q) :
    Store.assetsAt w (places.setIfInBounds i p) + q.assets (w i) =
      Store.assetsAt w places + p.assets (w i) := by
  simp only [Store.assetsAt, Array.toList_setIfInBounds]
  exact sum_mapIdx_set (fun j place => Place.assets (w j) place) _ (by simpa using h)

theorem assetsAt_push :
    Store.assetsAt w (places.push p) = Store.assetsAt w places + p.assets (w places.size) := by
  simp [Store.assetsAt, List.mapIdx_append]

theorem mem_assetsAt {x : Asset} :
    x ∈ Store.assetsAt w places ↔
      ∃ (i : Nat) (a : α), places[i]? = some (.held a) ∧ x ∈ w i a := by
  simp only [Store.assetsAt, mem_sum_mapIdx]
  constructor
  · rintro ⟨i, p, hi, h⟩
    cases p with
    | vacant => simp at h
    | lent => simp at h
    | held a => exact ⟨i, a, by simpa using hi, h⟩
  · rintro ⟨i, a, hi, h⟩
    exact ⟨i, .held a, by simpa using hi, h⟩

end

namespace Store

variable {st : Store} {i : Nat} {x : Asset}

theorem assets_lendFanout {shared : Shared} (h : st.fanouts[i]? = some (.held shared)) :
    st.assets = (st.setFanout i .lent).assets + shared.assets i := by
  have := assetsAt_set Shared.assets (p := .lent) h
  simp only [Place.assets_lent, Place.assets_held, add_zero] at this
  simp only [assets, setFanout, ← this]
  abel

theorem assets_setFanout (h : st.fanouts[i]? = some .lent) (p : Place Shared) :
    (st.setFanout i p).assets = st.assets + p.assets (Shared.assets i) := by
  have := assetsAt_set Shared.assets (p := p) h
  simp only [Place.assets_lent, add_zero] at this
  simp only [assets, setFanout, this]
  abel

theorem assets_lendCell {cell : Cell} (h : st.cells[i]? = some (.held cell)) :
    st.assets = (st.setCell i .lent).assets + cell.assets := by
  have := assetsAt_set (fun _ => Cell.assets) (p := .lent) h
  simp only [Place.assets_lent, Place.assets_held, add_zero] at this
  simp only [assets, setCell, ← this]
  abel

theorem assets_setCell (h : st.cells[i]? = some .lent) (p : Place Cell) :
    (st.setCell i p).assets = st.assets + p.assets Cell.assets := by
  have := assetsAt_set (fun _ => Cell.assets) (p := p) h
  simp only [Place.assets_lent, add_zero] at this
  simp only [assets, setCell, this]
  abel

@[simp]
theorem assets_record (st : Store) (events : List Event) : (st.record events).assets = st.assets :=
  rfl

theorem mem_assets : x ∈ st.assets ↔
    (∃ (i : Nat) (shared : Shared), st.fanouts[i]? = some (.held shared) ∧ x ∈ shared.assets i) ∨
      ∃ (i : Nat) (cell : Cell), st.cells[i]? = some (.held cell) ∧ x ∈ cell.assets := by
  simp only [assets, Multiset.mem_add, mem_assetsAt]

end Store

namespace Source

theorem itemAssets_append (xs ys : List Linked.Item) :
    itemAssets (xs ++ ys) = itemAssets xs + itemAssets ys := by
  induction xs with
  | nil => exact (zero_add _).symm
  | cons x xs ih =>
    cases x with
    | error e => exact ih
    | ok v => exact (congrArg (v.assets + ·) ih).trans (add_assoc _ _ _).symm

end Source

theorem itemAssets_left (y : Twins.Item) : Source.itemAssets [left y] = ownedBy (parts y) := by
  have h := ownedBy_items [y]
  rw [parts_items_cons, parts_items_nil, add_zero] at h
  exact h.symm

namespace Fanout

variable {f : Fanout Linked.Item} {slot : Nat} {s t : Slot Linked.Item}

theorem assets_setSlot (done : Bool) (h : f.slot? slot = some s) :
    (⟨f.slots.set slot (some t), done⟩ : Fanout Linked.Item).assets +
        Source.itemAssets s.backlog.toList =
      f.assets + Source.itemAssets t.backlog.toList :=
  sum_map_set slotAssets f.slots (slot?_eq_some_iff.mp h)

theorem mem_assets {x : Asset} :
    x ∈ f.assets ↔ ∃ j s, f.slot? j = some s ∧ x ∈ Source.itemAssets s.backlog.toList := by
  simp only [assets, mem_sum_map, slot?_eq_some_iff]
  constructor
  · rintro ⟨j, a, hj, h⟩
    cases a with
    | none => simp [slotAssets] at h
    | some s => exact ⟨j, s, hj, h⟩
  · rintro ⟨j, s, hj, h⟩
    exact ⟨j, some s, hj, h⟩

theorem assets_setBacklog (h : f.slot? slot = some s) (items : List Linked.Item) :
    (f.setBacklog slot items).assets + Source.itemAssets s.backlog.toList =
      f.assets + Source.itemAssets items := by
  have hslot := slot?_eq_some_iff.mp h
  have hmodify : (f.setBacklog slot items).slots =
      f.slots.set slot (some { s with backlog := .ofList items }) := by
    rw [setBacklog, List.modify_eq_set, hslot]
    rfl
  have := assets_setSlot f.done (t := { s with backlog := .ofList items }) h
  rw [Backlog.toList_ofList] at this
  rw [← this, assets, hmodify]
  rfl

theorem assets_join (f : Fanout Linked.Item) (items : List Linked.Item) :
    (f.join items).2.assets = f.assets + Source.itemAssets items := by
  have hinsert (s : Slot Linked.Item) (slots : List (Option (Slot Linked.Item))) :
      ((insert s slots).2.map slotAssets).sum =
        (slots.map slotAssets).sum + Source.itemAssets s.backlog.toList := by
    induction slots with
    | nil => simp [insert, slotAssets]
    | cons t slots ih =>
      cases t with
      | none =>
        simp only [insert, List.map_cons, List.sum_cons, slotAssets]
        abel
      | some t =>
        simp only [insert, List.map_cons, List.sum_cons, ih]
        abel
  have := hinsert (.ofList items) f.slots
  rw [toList_ofList_backlog] at this
  exact this

theorem assets_leave (f : Fanout Linked.Item) (slot : Nat) :
    f.assets = (f.leave slot).assets + Source.itemAssets (f.backlog slot) := by
  cases hs : f.slots[slot]? with
  | none =>
    have hb : f.backlog slot = [] := by simp [backlog, slot?, hs]
    rw [hb, assets, assets, leave, List.set_eq_of_length_le (List.getElem?_eq_none_iff.mp hs)]
    exact (add_zero _).symm
  | some s =>
    have := sum_map_set slotAssets f.slots (a := none) hs
    simp only [slotAssets, add_zero] at this
    have hb : Source.itemAssets (f.backlog slot) = slotAssets s := by
      cases s with
      | none => simp [backlog, slot?, hs, slotAssets, Source.itemAssets]
      | some s => simp [backlog, slot?, hs, slotAssets]
    rw [hb]
    exact this.symm

theorem assets_pop {f' : Fanout Linked.Item} {item : Linked.Item}
    (h : f.pop? slot = some (item, f')) : f.assets = Source.itemAssets [item] + f'.assets := by
  unfold pop? at h
  cases hs : f.slot? slot with
  | none => simp [hs] at h
  | some s =>
    cases hp : s.backlog.pop? with
    | none => simp [hs, hp] at h
    | some r =>
      simp only [hs, hp, Option.some.injEq, Prod.mk.injEq] at h
      obtain ⟨rfl, rfl⟩ := h
      have hset := assets_setSlot f.done (t := { s with backlog := r.2 }) hs
      rw [Backlog.toList_of_pop? hp, ← List.singleton_append, Source.itemAssets_append,
        ← add_assoc] at hset
      rw [add_comm]
      exact (add_right_cancel hset).symm

end Fanout

theorem Store.shared_assets_le {st : Store} {i : Nat} {shared : Shared}
    (h : st.fanouts[i]? = some (.held shared)) : shared.assets i ≤ st.assets := by
  rw [assets_lendFanout h]
  exact Multiset.le_add_left _ _

end LazyCalc
