import LazyCalc.Engine.Step
import Mathlib.Algebra.Order.Group.Multiset
/-!
Twins: two things of the same shape, held together. A value of twins stands for a value on the left
and one on the right that differ only in the sequences at their leaves, and whatever is made of
twins has for its parts the sequences and the cells that both sides hold.
-/

namespace LazyCalc

structure Twin (α β : Type) where
  left : α
  right : β

/-- A part that both sides hold: a sequence each, or a cell each. -/
inductive Part (σ κ : Type) where
  | sequence (s : σ)
  | cell (k : κ)

abbrev Parts (σ κ : Type) := Multiset (Part σ κ)

variable {σ τ κ ι α : Type}

namespace Leaf

def map (g : κ → ι) : Leaf κ α → Leaf ι α
  | .kernel run => .kernel run
  | .reading cell plan => .reading (g cell) plan

def parts : Leaf κ α → Parts σ κ
  | .kernel _ => 0
  | .reading cell _ => {.cell cell}

end Leaf

namespace Mapping

def map (g : κ → ι) : Mapping κ → Mapping ι
  | .broadcast leaf limit depth => .broadcast (leaf.map g) limit depth
  | .against fixed side leaf limit depth => .against fixed side (leaf.map g) limit depth
  | .note text => .note text
  | .invoke table name extra => .invoke table name extra
  | .enlist => .enlist
  | .stream => .stream

def parts : Mapping κ → Parts σ κ
  | .broadcast leaf _ _ => leaf.parts
  | .against _ _ leaf _ _ => leaf.parts
  | .note _ | .invoke .. | .enlist | .stream => 0

end Mapping

namespace Pairing

def map (g : κ → ι) : Pairing κ → Pairing ι
  | .broadcast leaf limit depth => .broadcast (leaf.map g) limit depth
  | .invoke table name => .invoke table name
  | .enlist => .enlist

def parts : Pairing κ → Parts σ κ
  | .broadcast leaf _ _ => leaf.parts
  | .invoke .. | .enlist => 0

end Pairing

namespace Tree

mutual

def parts : Tree σ → Parts σ κ
  | .scalar _ => 0
  | .list items => partsList items
  | .sequence s => {.sequence s}

def partsList : List (Tree σ) → Parts σ κ
  | [] => 0
  | t :: ts => t.parts + partsList ts

end

end Tree

namespace Collection

def map (f : σ → τ) : Collection σ → Collection τ
  | .list items => .list (Tree.mapList f items)
  | .sequence s => .sequence (f s)

def parts (c : Collection σ) : Parts σ κ := c.toValue.parts

end Collection

def itemParts : List (Except Failure (Tree σ)) → Parts σ κ
  | [] => 0
  | .ok t :: items => t.parts + itemParts items
  | .error _ :: items => itemParts items

namespace Source

def map (f : σ → τ) (g : κ → ι) : Source σ κ → Source τ ι
  | .generated generator => .generated generator
  | .items remaining => .items (remaining.map (Except.map (Tree.map f)))
  | .mapped inner mapping => .mapped (f inner) (mapping.map g)
  | .filtered inner test held invert => .filtered (f inner) test (Tree.mapList f held) invert
  | .zipped left right pairing => .zipped (f left) (f right) (pairing.map g)
  | .window inner skip take => .window (f inner) skip take

def parts : Source σ κ → Parts σ κ
  | .generated _ => 0
  | .items remaining => itemParts remaining
  | .mapped inner mapping => {.sequence inner} + mapping.parts
  | .filtered inner _ held _ => {.sequence inner} + Tree.partsList held
  | .zipped left right pairing => {.sequence left} + {.sequence right} + pairing.parts
  | .window inner _ _ => {.sequence inner}

end Source

/-- Something that stands for one thing on the left and one on the right. -/
class Paired (γ : Type) (α β : outParam Type) where
  left : γ → α
  right : γ → β

/-- Something made of sequences and cells. -/
class Parted (σ κ γ : Type) where
  parts : γ → Parts σ κ

export Paired (left right)
export Parted (parts)

instance : Parted σ κ σ := ⟨fun s => {.sequence s}⟩

instance : Parted σ κ κ := ⟨fun k => {.cell k}⟩

section

instance : Paired Unit Unit Unit := ⟨id, id⟩

instance : Paired Nat Nat Nat := ⟨id, id⟩

instance : Paired Scalar Scalar Scalar := ⟨id, id⟩

instance : Paired Failure Failure Failure := ⟨id, id⟩

instance : Parted σ κ Unit := ⟨fun _ => 0⟩

instance : Parted σ κ Nat := ⟨fun _ => 0⟩

instance : Parted σ κ Scalar := ⟨fun _ => 0⟩

instance : Parted σ κ Failure := ⟨fun _ => 0⟩

end

section

variable {γ γ' α β α' β' : Type} [Paired γ α β] [Paired γ' α' β']

instance : Paired (Twin α β) α β := ⟨Twin.left, Twin.right⟩

instance : Paired (γ × γ') (α × α') (β × β') :=
  ⟨fun c => (left c.1, left c.2), fun c => (right c.1, right c.2)⟩

instance : Paired (Option γ) (Option α) (Option β) := ⟨Option.map left, Option.map right⟩

instance : Paired (Except Failure γ) (Except Failure α) (Except Failure β) :=
  ⟨Except.map left, Except.map right⟩

instance : Paired (Tree γ) (Tree α) (Tree β) := ⟨Tree.map left, Tree.map right⟩

instance : Paired (List (Tree γ)) (List (Tree α)) (List (Tree β)) :=
  ⟨Tree.mapList left, Tree.mapList right⟩

instance : Paired (List (Except Failure (Tree γ))) (List (Except Failure (Tree α)))
    (List (Except Failure (Tree β))) :=
  ⟨List.map (Except.map (Tree.map left)), List.map (Except.map (Tree.map right))⟩

instance : Paired (Collection γ) (Collection α) (Collection β) :=
  ⟨Collection.map left, Collection.map right⟩

instance {δ : Type} : Paired (Leaf γ δ) (Leaf α δ) (Leaf β δ) := ⟨Leaf.map left, Leaf.map right⟩

instance : Paired (Mapping γ) (Mapping α) (Mapping β) := ⟨Mapping.map left, Mapping.map right⟩

instance : Paired (Pairing γ) (Pairing α) (Pairing β) := ⟨Pairing.map left, Pairing.map right⟩

instance : Paired (Source γ γ') (Source α α') (Source β β') :=
  ⟨Source.map left left, Source.map right right⟩

instance : Paired (Flow γ γ') (Flow α α') (Flow β β') where
  left
    | .onward c => .onward (left c)
    | .halt c => .halt (left c)
  right
    | .onward c => .onward (right c)
    | .halt c => .halt (right c)

instance : Paired (Gathered γ) (Gathered α) (Gathered β) :=
  ⟨fun g => ⟨left g.items, g.failure⟩, fun g => ⟨right g.items, g.failure⟩⟩

theorem left_list (ts : List (Tree γ)) : left ts = ts.map left := Tree.mapList_eq_map left ts

theorem right_list (ts : List (Tree γ)) : right ts = ts.map right := Tree.mapList_eq_map right ts

theorem left_items_ok (ts : List (Tree γ)) :
    left (ts.map Except.ok : List (Except Failure (Tree γ))) = (left ts).map Except.ok := by
  rw [left_list]
  simp only [left, List.map_map]
  rfl

theorem right_items_ok (ts : List (Tree γ)) :
    right (ts.map Except.ok : List (Except Failure (Tree γ))) = (right ts).map Except.ok := by
  rw [right_list]
  simp only [right, List.map_map]
  rfl

theorem left_reverse (ts : List (Tree γ)) : left ts.reverse = (left ts).reverse := by
  rw [left_list, left_list, List.map_reverse]

theorem right_reverse (ts : List (Tree γ)) : right ts.reverse = (right ts).reverse := by
  rw [right_list, right_list, List.map_reverse]

end

section

variable {γ γ' : Type} [Parted σ κ γ] [Parted σ κ γ']

instance : Parted σ κ (γ × γ') := ⟨fun c => parts c.1 + parts c.2⟩

instance : Parted σ κ (Option γ) where
  parts
    | none => 0
    | some c => parts c

instance : Parted σ κ (Except Failure γ) where
  parts
    | .error _ => 0
    | .ok c => parts c

instance : Parted σ κ (Flow γ γ') where
  parts
    | .onward c => parts c
    | .halt c => parts c

instance : Parted σ κ (Tree σ) := ⟨Tree.parts⟩

instance : Parted σ κ (List (Tree σ)) := ⟨Tree.partsList⟩

instance : Parted σ κ (List (Except Failure (Tree σ))) := ⟨itemParts⟩

instance : Parted σ κ (Collection σ) := ⟨Collection.parts⟩

instance : Parted σ κ (Gathered σ) := ⟨fun g => Tree.partsList g.items⟩

instance : Parted σ κ (Leaf κ α) := ⟨Leaf.parts⟩

instance : Parted σ κ (Mapping κ) := ⟨Mapping.parts⟩

instance : Parted σ κ (Pairing κ) := ⟨Pairing.parts⟩

instance : Parted σ κ (Source σ κ) := ⟨Source.parts⟩

end

section

variable {γ γ' : Type} [Parted σ κ γ] [Parted σ κ γ']

@[simp]
theorem parts_unit (c : Unit) : (parts c : Parts σ κ) = 0 := rfl

@[simp]
theorem parts_nat (n : Nat) : (parts n : Parts σ κ) = 0 := rfl

@[simp]
theorem parts_ofScalar (s : Scalar) : (parts s : Parts σ κ) = 0 := rfl

@[simp]
theorem parts_failure (e : Failure) : (parts e : Parts σ κ) = 0 := rfl

@[simp]
theorem parts_pair (c : γ) (c' : γ') : (parts (c, c') : Parts σ κ) = parts c + parts c' := rfl

@[simp]
theorem parts_none : (parts (none : Option γ) : Parts σ κ) = 0 := rfl

@[simp]
theorem parts_some (c : γ) : (parts (some c) : Parts σ κ) = parts c := rfl

@[simp]
theorem parts_option_nat (n : Option Nat) : (parts n : Parts σ κ) = 0 := by cases n <;> rfl

@[simp]
theorem parts_error (e : Failure) : (parts (Except.error e : Except Failure γ) : Parts σ κ) = 0 :=
  rfl

@[simp]
theorem parts_ok (c : γ) : (parts (Except.ok c : Except Failure γ) : Parts σ κ) = parts c := rfl

@[simp]
theorem parts_onward (c : γ) : (parts (Flow.onward c : Flow γ γ') : Parts σ κ) = parts c := rfl

@[simp]
theorem parts_halt (c : γ') : (parts (Flow.halt c : Flow γ γ') : Parts σ κ) = parts c := rfl

@[simp]
theorem parts_scalar (s : Scalar) : (parts (Tree.scalar s : Tree σ) : Parts σ κ) = 0 := rfl

@[simp]
theorem parts_list (ts : List (Tree σ)) : (parts (Tree.list ts) : Parts σ κ) = parts ts := rfl

@[simp]
theorem parts_sequence (s : σ) : (parts (Tree.sequence s) : Parts σ κ) = parts s := rfl

@[simp]
theorem parts_nil : (parts ([] : List (Tree σ)) : Parts σ κ) = 0 := rfl

@[simp]
theorem parts_cons (t : Tree σ) (ts : List (Tree σ)) :
    (parts (t :: ts) : Parts σ κ) = parts t + parts ts := rfl

@[simp]
theorem parts_append (ts us : List (Tree σ)) :
    (parts (ts ++ us) : Parts σ κ) = parts ts + parts us := by
  induction ts with
  | nil => simp
  | cons t ts ih => simp [ih, add_assoc]

@[simp]
theorem parts_reverse (ts : List (Tree σ)) : (parts ts.reverse : Parts σ κ) = parts ts := by
  induction ts with
  | nil => rfl
  | cons t ts ih => simp [ih, add_comm]

mutual

@[simp]
theorem parts_ofPlain (t : Plain) : (parts (Tree.ofPlain t : Tree σ) : Parts σ κ) = 0 := by
  cases t with
  | scalar x => rfl
  | list ts => exact parts_ofPlains ts
  | sequence e => exact e.elim

theorem parts_ofPlains (ts : List Plain) :
    (parts (Tree.mapList Empty.elim ts : List (Tree σ)) : Parts σ κ) = 0 := by
  cases ts with
  | nil => rfl
  | cons t ts =>
    have ht : (parts (Tree.map Empty.elim t : Tree σ) : Parts σ κ) = 0 := parts_ofPlain t
    rw [Tree.mapList, parts_cons, ht, parts_ofPlains ts, add_zero]

end

@[simp]
theorem parts_scalars (xs : List Scalar) :
    (parts (xs.map Tree.scalar : List (Tree σ)) : Parts σ κ) = 0 := by
  induction xs with
  | nil => rfl
  | cons x xs ih => rw [List.map_cons, parts_cons, ih, parts_scalar, add_zero]

@[simp]
theorem parts_items_nil : (parts ([] : List (Except Failure (Tree σ))) : Parts σ κ) = 0 := rfl

@[simp]
theorem parts_items_cons (x : Except Failure (Tree σ)) (xs : List (Except Failure (Tree σ))) :
    (parts (x :: xs) : Parts σ κ) = parts x + parts xs := by
  cases x with
  | error e => exact (zero_add _).symm
  | ok t => rfl

@[simp]
theorem parts_items_append (xs ys : List (Except Failure (Tree σ))) :
    (parts (xs ++ ys) : Parts σ κ) = parts xs + parts ys := by
  induction xs with
  | nil => simp
  | cons x xs ih => simp [ih, add_assoc]

@[simp]
theorem parts_items_ok (ts : List (Tree σ)) :
    (parts (ts.map Except.ok : List (Except Failure (Tree σ))) : Parts σ κ) = parts ts := by
  induction ts with
  | nil => rfl
  | cons t ts ih => simp [ih]

@[simp]
theorem parts_gathered (ts : List (Tree σ)) (e : Option Failure) :
    (parts (Gathered.mk ts e) : Parts σ κ) = parts ts := rfl

@[simp]
theorem parts_collection (c : Collection σ) : (parts c : Parts σ κ) = parts c.toValue := rfl

@[simp]
theorem parts_generated (g : Generator) :
    (parts (Source.generated g : Source σ κ) : Parts σ κ) = 0 := rfl

@[simp]
theorem parts_items (items : List (Except Failure (Tree σ))) :
    (parts (Source.items items : Source σ κ) : Parts σ κ) = parts items := rfl

@[simp]
theorem parts_mapped (s : σ) (mapping : Mapping κ) :
    (parts (Source.mapped s mapping) : Parts σ κ) = parts s + parts mapping := rfl

@[simp]
theorem parts_filtered (s : σ) (test : Outline → Except Failure Bool) (held : List (Tree σ))
    (invert : Bool) : (parts (Source.filtered s test held invert : Source σ κ) : Parts σ κ) =
      parts s + parts held := rfl

@[simp]
theorem parts_zipped (s t : σ) (pairing : Pairing κ) :
    (parts (Source.zipped s t pairing) : Parts σ κ) = parts s + parts t + parts pairing := rfl

@[simp]
theorem parts_window (s : σ) (skip take : Nat) :
    (parts (Source.window s skip take : Source σ κ) : Parts σ κ) = parts s := rfl

@[simp]
theorem parts_note (text : Outline → String) :
    (parts (Mapping.note text : Mapping κ) : Parts σ κ) = 0 := rfl

@[simp]
theorem parts_invoke (table : Table) (name : String) (extra : List Scalar) :
    (parts (Mapping.invoke table name extra : Mapping κ) : Parts σ κ) = 0 := rfl

@[simp]
theorem parts_enlist : (parts (Mapping.enlist : Mapping κ) : Parts σ κ) = 0 := rfl

@[simp]
theorem parts_stream : (parts (Mapping.stream : Mapping κ) : Parts σ κ) = 0 := rfl

@[simp]
theorem parts_invokePair (table : Table) (name : String) :
    (parts (Pairing.invoke table name : Pairing κ) : Parts σ κ) = 0 := rfl

@[simp]
theorem parts_enlistPair : (parts (Pairing.enlist : Pairing κ) : Parts σ κ) = 0 := rfl

@[simp]
theorem parts_kernel (run : α → Outcome) : (parts (Leaf.kernel run : Leaf κ α) : Parts σ κ) = 0 :=
  rfl

@[simp]
theorem parts_reading (k : κ) (plan : α → Extent → Except Failure Plan) :
    (parts (Leaf.reading k plan) : Parts σ κ) = parts k := rfl

end

end LazyCalc
