import LazyCalc.Engine.Release
import LazyCalc.Proofs.Engine.Places
import LazyCalc.Proofs.Lone.Basic
import Mathlib.Algebra.BigOperators.Group.Multiset.Basic
/-!
What a value owns of a store: branches, holdings of cells, and the lists of labels that it carries.
Linked values with the lone values that they stand for are twins, and own what their linked side
owns.
-/

namespace LazyCalc

inductive Spot where
  | fanout (i : Nat)
  | cell (i : Nat)
  deriving DecidableEq

/-- What labels are carried by: a sequence that owns its source, a branch, or a fan-out. -/
inductive Carrier where
  | direct
  | branch (place : Branch)
  | fanout (i : Nat)
  deriving DecidableEq

inductive Asset where
  | branch (place : Branch)
  | cell (i : Nat)
  /-- The labels of one sequence or of one fan-out. -/
  | hooks (carrier : Carrier) (labels : List String)
  deriving DecidableEq

abbrev Assets := Multiset Asset

namespace Asset

def spot? : Asset → Option Spot
  | .branch place => some (.fanout place.fanout)
  | .cell i => some (.cell i)
  | .hooks .. => none

def ofCell? : Option Nat → Assets
  | none => 0
  | some i => {.cell i}

end Asset

def Origin.carrier : Linked.Origin → Carrier
  | .direct _ => .direct
  | .branch place => .branch place

mutual

def Tree.assets : Linked.Value → Assets
  | .scalar _ => 0
  | .list items => Tree.assetsList items
  | .sequence s => s.assets

def Tree.assetsList : List Linked.Value → Assets
  | [] => 0
  | v :: vs => v.assets + Tree.assetsList vs

def Sequence.assets : Linked.Sequence → Assets
  | ⟨origin, _, _, hooks⟩ => {.hooks origin.carrier hooks} + origin.assets

def Origin.assets : Linked.Origin → Assets
  | .direct source => source.assets
  | .branch place => {.branch place}

def Source.assets : Linked.Source → Assets
  | .generated _ => 0
  | .items remaining => Source.itemAssets remaining
  | .mapped inner mapping => inner.assets + Asset.ofCell? mapping.cell?
  | .filtered inner _ held _ => inner.assets + Tree.assetsList held
  | .zipped left right pairing => left.assets + right.assets + Asset.ofCell? pairing.cell?
  | .window inner _ _ => inner.assets

def Source.itemAssets : List Linked.Item → Assets
  | [] => 0
  | .ok v :: items => v.assets + Source.itemAssets items
  | .error _ :: items => Source.itemAssets items

end

namespace Twins

abbrev Sequence := Twin Linked.Sequence Lone.Sequence

abbrev Cell := Twin Nat Snapshot

abbrev Source := LazyCalc.Source Sequence Cell

abbrev Value := Tree Sequence

abbrev Item := Except Failure Value

abbrev Collection := LazyCalc.Collection Sequence

abbrev Parts := LazyCalc.Parts Sequence Cell

end Twins

namespace Part

def assets : Part Twins.Sequence Twins.Cell → Assets
  | .sequence s => s.left.assets
  | .cell k => {.cell k.left}

end Part

def ownedBy (A : Twins.Parts) : Assets := (A.map Part.assets).sum

@[simp]
theorem ownedBy_zero : ownedBy 0 = 0 := rfl

@[simp]
theorem ownedBy_add (A B : Twins.Parts) : ownedBy (A + B) = ownedBy A + ownedBy B := by
  simp [ownedBy]

@[simp]
theorem ownedBy_twin (s : Twins.Sequence) : ownedBy (parts s) = s.left.assets := by
  simp [ownedBy, parts, Part.assets]

@[simp]
theorem ownedBy_cell (k : Twins.Cell) : ownedBy (parts k) = {.cell k.left} := by
  simp [ownedBy, parts, Part.assets]

mutual

@[simp]
theorem ownedBy_value (v : Twins.Value) : ownedBy (parts v) = Tree.assets (left v) := by
  cases v with
  | scalar x => rfl
  | list vs => exact ownedBy_values vs
  | sequence s => exact ownedBy_twin s

theorem ownedBy_values (vs : List Twins.Value) :
    ownedBy (parts vs) = Tree.assetsList (left vs) := by
  cases vs with
  | nil => rfl
  | cons v vs => rw [parts_cons, ownedBy_add, ownedBy_value v, ownedBy_values vs]; rfl

end

theorem ownedBy_items (xs : List Twins.Item) :
    ownedBy (parts xs) = Source.itemAssets (left xs) := by
  induction xs with
  | nil => rfl
  | cons x xs ih =>
    rw [parts_items_cons, ownedBy_add, ih]
    cases x with
    | error e => exact zero_add _
    | ok v => rw [parts_ok, ownedBy_value]; rfl

theorem ownedBy_leaf {α : Type} (leaf : Leaf Twins.Cell α) :
    ownedBy (parts leaf) = Asset.ofCell? (leaf.map Twin.left).cell? := by
  cases leaf with
  | kernel f => rfl
  | reading k plan => exact ownedBy_cell k

theorem ownedBy_source (s : Twins.Source) : ownedBy (parts s) = Source.assets (left s) := by
  cases s with
  | generated g => rfl
  | items xs => exact ownedBy_items xs
  | mapped inner mapping =>
    rw [parts_mapped, ownedBy_add, ownedBy_twin]
    cases mapping with
    | broadcast leaf limit depth => exact congrArg (_ + ·) (ownedBy_leaf leaf)
    | against fixed side leaf limit depth => exact congrArg (_ + ·) (ownedBy_leaf leaf)
    | note text => rfl
    | invoke table name extra => rfl
    | enlist => rfl
    | stream => rfl
  | filtered inner test held invert =>
    rw [parts_filtered, ownedBy_add, ownedBy_twin, ownedBy_values]
    rfl
  | zipped inner other pairing =>
    rw [parts_zipped, ownedBy_add, ownedBy_add, ownedBy_twin, ownedBy_twin]
    cases pairing with
    | broadcast leaf limit depth => exact congrArg (_ + ·) (ownedBy_leaf leaf)
    | invoke table name => rfl
    | enlist => rfl
  | window inner skip take => exact ownedBy_twin inner

namespace Fanout

def slotAssets : Option (Slot Linked.Item) → Assets
  | none => 0
  | some s => Source.itemAssets s.backlog.toList

def assets (f : Fanout Linked.Item) : Assets := (f.slots.map slotAssets).sum

end Fanout

def Shared.assets (i : Nat) (shared : Shared) : Assets :=
  shared.source.assets + shared.fanout.assets + {.hooks (.fanout i) shared.hooks}

def Cell.assets (cell : Cell) : Assets := cell.collection.toValue.assets

namespace Place

def assets {α : Type} (w : α → Assets) : Place α → Assets
  | .vacant | .lent => 0
  | .held a => w a

variable {α : Type} (w : α → Assets)

@[simp]
theorem assets_vacant : (vacant : Place α).assets w = 0 := rfl

@[simp]
theorem assets_lent : (lent : Place α).assets w = 0 := rfl

@[simp]
theorem assets_held (a : α) : (held a).assets w = w a := rfl

end Place

namespace Store

def assetsAt {α : Type} (w : Nat → α → Assets) (places : Array (Place α)) : Assets :=
  (places.toList.mapIdx fun i place => place.assets (w i)).sum

def assets (st : Store) : Assets :=
  assetsAt Shared.assets st.fanouts + assetsAt (fun _ => Cell.assets) st.cells

end Store

end LazyCalc
