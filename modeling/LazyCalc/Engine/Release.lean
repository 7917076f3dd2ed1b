import LazyCalc.Engine.Store
/-!
Dropping values. A dropped sequence notes its own labels and then drops its source; a dropped
branch leaves its slot, and the last branch of a fan-out notes the labels of the fan-out and drops
what they all read. Everything reached is dropped once, in order, and the work ends because every
step takes something out of the value at hand or out of the store.
-/

namespace LazyCalc

namespace Leaf

def cell? {κ α : Type} : Leaf κ α → Option κ
  | .kernel _ => none
  | .reading cell _ => some cell

end Leaf

namespace Mapping

def cell? {κ : Type} : Mapping κ → Option κ
  | .broadcast leaf .. => leaf.cell?
  | .against _ _ leaf .. => leaf.cell?
  | .note _ | .invoke .. | .enlist | .stream => none

end Mapping

namespace Pairing

def cell? {κ : Type} : Pairing κ → Option κ
  | .broadcast leaf .. => leaf.cell?
  | .invoke .. | .enlist => none

end Pairing

mutual

/-- How many steps it takes to drop a value, what it shares with others apart. -/
def Tree.weight : Linked.Value → Nat
  | .scalar _ => 1
  | .list items => 1 + Tree.weights items
  | .sequence s => 1 + s.weight

def Tree.weights : List Linked.Value → Nat
  | [] => 0
  | v :: vs => v.weight + Tree.weights vs

def Sequence.weight : Linked.Sequence → Nat
  | ⟨origin, _, _, _⟩ => 1 + origin.weight

def Origin.weight : Linked.Origin → Nat
  | .direct source => 1 + source.weight
  | .branch _ => 1

def Source.weight : Linked.Source → Nat
  | .generated _ => 1
  | .items remaining => 1 + Source.itemWeights remaining
  | .mapped inner _ => 2 + inner.weight
  | .filtered inner _ held _ => 1 + inner.weight + Tree.weights held
  | .zipped left right _ => 2 + left.weight + right.weight
  | .window inner _ _ => 1 + inner.weight

def Source.itemWeights : List Linked.Item → Nat
  | [] => 0
  | .ok v :: items => v.weight + Source.itemWeights items
  | .error _ :: items => Source.itemWeights items

end

def weightOf {α : Type} (w : α → Nat) : List α → Nat
  | [] => 0
  | a :: as => w a + weightOf w as

namespace Fanout

def slotWeight : Option (Slot Linked.Item) → Nat
  | none => 0
  | some s => Source.itemWeights s.backlog.toList

def weight (f : Fanout Linked.Item) : Nat := weightOf slotWeight f.slots

end Fanout

def Shared.weight (shared : Shared) : Nat :=
  shared.source.weight + shared.fanout.weight

def Cell.weight (cell : Cell) : Nat := cell.collection.toValue.weight

namespace Place

def weight {α : Type} (w : α → Nat) : Place α → Nat
  | .vacant | .lent => 0
  | .held a => w a

end Place

def Store.weight (st : Store) : Nat :=
  weightOf (Place.weight Shared.weight) st.fanouts.toList +
    weightOf (Place.weight Cell.weight) st.cells.toList

/-- Something still to be dropped. -/
inductive Debris where
  | value (v : Linked.Value)
  | sequence (s : Linked.Sequence)
  | source (s : Linked.Source)
  /-- A fan-out that a branch has left. -/
  | fanout (i : Nat) (shared : Shared)
  | cell (i : Nat)

namespace Debris

def weight : Debris → Nat
  | .value v => v.weight
  | .sequence s => s.weight
  | .source s => s.weight
  | .fanout _ shared => 1 + shared.weight
  | .cell _ => 1

def weights : List Debris → Nat := weightOf weight

def ofValues (vs : List Linked.Value) : List Debris := vs.map .value

def ofItem? : Linked.Item → Option Debris
  | .ok v => some (.value v)
  | .error _ => none

def ofItems (items : List Linked.Item) : List Debris := items.filterMap ofItem?

def ofSource : Linked.Source → List Debris
  | .generated _ => []
  | .items remaining => ofItems remaining
  | .mapped inner mapping => .sequence inner :: mapping.cell?.toList.map .cell
  | .filtered inner _ held _ => .sequence inner :: ofValues held
  | .zipped left right pairing =>
    .sequence left :: .sequence right :: pairing.cell?.toList.map .cell
  | .window inner _ _ => [.sequence inner]

theorem weights_append (ds es : List Debris) : weights (ds ++ es) = weights ds + weights es := by
  induction ds with
  | nil => simp [weights, weightOf]
  | cons d ds ih => simp only [weights] at ih; simp [weights, weightOf, ih, Nat.add_assoc]

theorem weights_cons (d : Debris) (ds : List Debris) : weights (d :: ds) = d.weight + weights ds :=
  rfl

theorem weights_ofValues (vs : List Linked.Value) : weights (ofValues vs) = Tree.weights vs := by
  unfold ofValues
  induction vs with
  | nil => simp [weights, weightOf, Tree.weights]
  | cons v vs ih => rw [List.map_cons, weights_cons, ih, weight, Tree.weights]

theorem weights_ofItems (items : List Linked.Item) :
    weights (ofItems items) = Source.itemWeights items := by
  induction items with
  | nil => simp [weights, weightOf, ofItems, Source.itemWeights]
  | cons item items ih =>
    unfold ofItems at ih ⊢
    cases item with
    | ok v => simp only [List.filterMap_cons, ofItem?, weights_cons, ih, weight, Source.itemWeights]
    | error e => simp only [List.filterMap_cons, ofItem?, ih, Source.itemWeights]

theorem weights_cells (cell : Option Nat) : weights (cell.toList.map .cell) ≤ 1 := by
  cases cell <;> simp [weights, weightOf, weight]

theorem weights_ofSource (s : Linked.Source) : weights (ofSource s) < s.weight := by
  cases s with
  | generated g => simp [ofSource, weights, weightOf, Source.weight]
  | items remaining => rw [ofSource, weights_ofItems, Source.weight]; omega
  | mapped inner mapping =>
    have := weights_cells mapping.cell?
    rw [ofSource, weights_cons, weight, Source.weight]; omega
  | filtered inner test held invert =>
    rw [ofSource, weights_cons, weights_ofValues, weight, Source.weight]; omega
  | zipped left right pairing =>
    have := weights_cells pairing.cell?
    rw [ofSource, weights_cons, weights_cons, weight, weight, Source.weight]; omega
  | window inner skip take => simp [ofSource, weights, weightOf, weight, Source.weight]

end Debris

theorem weightOf_set {α : Type} (w : α → Nat) (l : List α) (i : Nat) (a : α) (h : i < l.length) :
    weightOf w (l.set i a) + w l[i] = weightOf w l + w a := by
  induction l generalizing i with
  | nil => simp at h
  | cons b l ih =>
    cases i with
    | zero => simp [weightOf]; omega
    | succ i =>
      have := ih i (by simpa using h)
      simp only [List.set_cons_succ, weightOf, List.getElem_cons_succ]
      omega

theorem weightOf_set_le {α : Type} (w : α → Nat) (l : List α) (i : Nat) (a : α) :
    weightOf w (l.set i a) ≤ weightOf w l + w a := by
  by_cases h : i < l.length
  · have := weightOf_set w l i a h; omega
  · rw [List.set_eq_of_length_le (by omega)]; omega

namespace Fanout

theorem weight_leave (f : Fanout Linked.Item) (slot : Nat) :
    (f.leave slot).weight + Source.itemWeights (f.backlog slot) = f.weight := by
  by_cases h : slot < f.slots.length
  · have hset := weightOf_set slotWeight f.slots slot none h
    have hback : Source.itemWeights (f.backlog slot) = slotWeight f.slots[slot] := by
      cases hs : f.slots[slot] with
      | none => simp [backlog, slot?, h, hs, slotWeight, Source.itemWeights]
      | some s => simp [backlog, slot?, h, hs, slotWeight]
    simp only [weight, leave, hback]
    simpa [slotWeight] using hset
  · have hback : f.backlog slot = [] := by
      simp [backlog, slot?, List.getElem?_eq_none (Nat.le_of_not_lt h)]
    simp [weight, leave, hback, Source.itemWeights,
      List.set_eq_of_length_le (Nat.le_of_not_lt h)]

end Fanout

namespace Store

theorem weight_record (events : List Event) (st : Store) :
    (st.record events).weight = st.weight := by
  simp [record, weight]

theorem weightOf_lend {α : Type} (w : α → Nat) {places places' : Array (Place α)} {i : Nat} {a : α}
    (h : lend places i = .ok (a, places')) :
    weightOf (Place.weight w) places'.toList + w a = weightOf (Place.weight w) places.toList := by
  unfold lend at h
  split at h
  · rename_i hi
    have hset := weightOf_set (Place.weight w) places.toList i .lent (by simpa using hi)
    cases hp : places[i] with
    | vacant => simp [hp] at h
    | lent => simp [hp] at h
    | held b =>
      simp only [hp, Except.ok.injEq, Prod.mk.injEq] at h
      obtain ⟨rfl, rfl⟩ := h
      simpa [hp, Place.weight] using hset
  · simp at h

theorem weight_lendFanout {st st' : Store} {i : Nat} {shared : Shared}
    (h : st.lendFanout i = .ok (shared, st')) : st'.weight + shared.weight = st.weight := by
  obtain ⟨fanouts, cells, log⟩ := st
  unfold lendFanout at h
  cases hl : lend fanouts i with
  | error fault => simp [hl] at h
  | ok pair =>
    simp only [hl, Except.ok.injEq, Prod.mk.injEq] at h
    obtain ⟨rfl, rfl⟩ := h
    have := weightOf_lend Shared.weight hl
    simp only [weight]; omega

theorem weight_lendCell {st st' : Store} {i : Nat} {cell : Cell}
    (h : st.lendCell i = .ok (cell, st')) : st'.weight + cell.weight = st.weight := by
  obtain ⟨fanouts, cells, log⟩ := st
  unfold lendCell at h
  cases hl : lend cells i with
  | error fault => simp [hl] at h
  | ok pair =>
    simp only [hl, Except.ok.injEq, Prod.mk.injEq] at h
    obtain ⟨rfl, rfl⟩ := h
    have := weightOf_lend Cell.weight hl
    simp only [weight]; omega

theorem weight_setFanout_le (i : Nat) (place : Place Shared) (st : Store) :
    (st.setFanout i place).weight ≤ st.weight + place.weight Shared.weight := by
  have := weightOf_set_le (Place.weight Shared.weight) st.fanouts.toList i place
  simp only [weight, setFanout, Array.toList_setIfInBounds]; omega

theorem weight_setCell_le (i : Nat) (place : Place Cell) (st : Store) :
    (st.setCell i place).weight ≤ st.weight + place.weight Cell.weight := by
  have := weightOf_set_le (Place.weight Cell.weight) st.cells.toList i place
  simp only [weight, setCell, Array.toList_setIfInBounds]; omega

end Store

def release (ds : List Debris) (st : Store) : Except Fault Store :=
  match ds with
  | [] => .ok st
  | .value (.scalar _) :: rest => release rest st
  | .value (.list items) :: rest => release (Debris.ofValues items ++ rest) st
  | .value (.sequence s) :: rest => release (.sequence s :: rest) st
  | .sequence ⟨.direct source, _, _, hooks⟩ :: rest =>
    release (.source source :: rest) (st.record (hooks.map .closed))
  | .sequence ⟨.branch ⟨i, slot⟩, _, _, hooks⟩ :: rest =>
    match _h : (st.record (hooks.map .closed)).lendFanout i with
    | .error fault => .error fault
    | .ok (shared, st) =>
      let left := { shared with fanout := shared.fanout.leave slot }
      release (Debris.ofItems (shared.fanout.backlog slot) ++ .fanout i left :: rest) st
  | .source s :: rest => release (Debris.ofSource s ++ rest) st
  | .fanout i shared :: rest =>
    if shared.fanout.isDeserted then
      release (.source shared.source :: rest)
        ((st.setFanout i .vacant).record (shared.hooks.map .closed))
    else release rest (st.setFanout i (.held shared))
  | .cell i :: rest =>
    match _h : st.lendCell i with
    | .error fault => .error fault
    | .ok (cell, st) =>
      if cell.holders ≤ 1 then
        release (.value cell.collection.toValue :: rest) (st.setCell i .vacant)
      else release rest (st.setCell i (.held { cell with holders := cell.holders - 1 }))
termination_by Debris.weights ds + st.weight
decreasing_by
  · simp only [Debris.weights_cons, Debris.weight, Tree.weight]; omega
  · simp only [Debris.weights_cons, Debris.weights_append, Debris.weights_ofValues, Debris.weight,
      Tree.weight]
    omega
  · simp only [Debris.weights_cons, Debris.weight, Tree.weight]; omega
  · simp only [Debris.weights_cons, Debris.weight, Sequence.weight, Origin.weight,
      Store.weight_record]
    omega
  · have hl := Store.weight_lendFanout _h
    have hf := shared.fanout.weight_leave slot
    rw [Store.weight_record] at hl
    simp only [Debris.weights_cons, Debris.weights_append, Debris.weights_ofItems, Debris.weight,
      Sequence.weight, Origin.weight, Shared.weight] at hl ⊢
    omega
  · have := Debris.weights_ofSource s
    simp only [Debris.weights_cons, Debris.weights_append, Debris.weight]; omega
  · have := Store.weight_setFanout_le i .vacant st
    simp only [Debris.weights_cons, Debris.weight, Shared.weight, Store.weight_record,
      Place.weight] at this ⊢
    omega
  · have := Store.weight_setFanout_le i (.held shared) st
    simp only [Debris.weights_cons, Debris.weight, Place.weight] at this ⊢
    omega
  · have hl := Store.weight_lendCell _h
    have := Store.weight_setCell_le i .vacant st
    simp only [Debris.weights_cons, Debris.weight, Cell.weight, Place.weight] at hl this ⊢
    omega
  · have hl := Store.weight_lendCell _h
    have := Store.weight_setCell_le i (.held { cell with holders := cell.holders - 1 }) st
    simp only [Debris.weights_cons, Debris.weight, Cell.weight, Place.weight] at hl this ⊢
    omega

namespace Engine

def drop (ds : List Debris) : Engine Unit := fun st =>
  match release ds st with
  | .ok st => .ok ((), st)
  | .error fault => .error fault

def dropValues (vs : List Linked.Value) : Engine Unit := drop (Debris.ofValues vs)
end Engine

end LazyCalc
