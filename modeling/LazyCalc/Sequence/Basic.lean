import LazyCalc.Operator.Table
/-!
Sequences: sources of elements that are computed when they are pulled. A sequence either owns its
source or is a branch of a fan-out, a source that several sequences read. Fan-outs, and the
collections that delayed calls read, are held elsewhere: here `ρ` is what a branch is known by and
`κ` what such a collection is known by.
-/

namespace LazyCalc

/-- A kernel that is called once per element: on the scalars alone, or on a copy of the collection
in a cell. -/
inductive Leaf (κ α : Type) where
  | kernel (run : α → Outcome)
  | reading (cell : κ) (plan : α → Extent → Except Failure Plan)

inductive Side where
  | left
  | right
  deriving DecidableEq, Repr

/-- What is done with each element of a mapped sequence. -/
inductive Mapping (κ : Type) where
  /-- A broadcast that has come to a sequence at depth `depth - 1`. -/
  | broadcast (leaf : Leaf κ Scalar) (limit depth : Nat)
  /-- The same with a fixed operand on one side. -/
  | against (fixed : Scalar) (side : Side) (leaf : Leaf κ (Scalar × Scalar)) (limit depth : Nat)
  | note (text : Outline → String)
  | invoke (table : Table) (name : String) (extra : List Scalar)
  | enlist
  | stream

/-- What is done with each pair of elements of two zipped sequences. -/
inductive Pairing (κ : Type) where
  | broadcast (leaf : Leaf κ (Scalar × Scalar)) (limit depth : Nat)
  | invoke (table : Table) (name : String)
  | enlist

/-- Where elements come from, with `σ` for the sequences that are read on the way. -/
inductive Source (σ κ : Type) where
  | generated (generator : Generator)
  | items (remaining : List (Except Failure (Tree σ)))
  | mapped (inner : σ) (mapping : Mapping κ)
  /-- Keeps the elements that pass the test, or those that do not. `held` is what the test holds
  on to. -/
  | filtered (inner : σ) (test : Outline → Except Failure Bool) (held : List (Tree σ))
      (invert : Bool)
  | zipped (left right : σ) (pairing : Pairing κ)
  /-- Passes over `skip` elements, then gives `take`. -/
  | window (inner : σ) (skip take : Nat)

inductive Origin (σ ρ κ : Type) where
  | direct (source : Source σ κ)
  | branch (place : ρ)

structure Sequence (ρ κ : Type) where
  origin : Origin (Sequence ρ κ) ρ κ
  hint : Hint
  finished : Bool
  hooks : List String

abbrev Value (ρ κ : Type) := Tree (Sequence ρ κ)

abbrev Item (ρ κ : Type) := Except Failure (Value ρ κ)

variable {ρ κ : Type}

namespace Sequence

def ofSource (source : Source (Sequence ρ κ) κ) (hint : Hint) : Sequence ρ κ :=
  { origin := .direct source, hint, finished := false, hooks := [] }

def ofItems (items : List (Item ρ κ)) (hint : Hint) : Sequence ρ κ :=
  ofSource (.items items) hint

def ofValues (values : List (Value ρ κ)) (hint : Hint) : Sequence ρ κ :=
  ofItems (values.map .ok) hint

def ofDraft (d : Draft) : Sequence ρ κ :=
  ofSource (.generated d.generator) d.hint

def empty : Sequence ρ κ := ofItems [] (.exact 0)

def wrap : Value ρ κ → Sequence ρ κ
  | .scalar s => ofValues [.scalar s] (.exact 1)
  | .list items => ofValues items (.exact items.length)
  | .sequence s => s

def mapped (inner : Sequence ρ κ) (mapping : Mapping κ) : Sequence ρ κ :=
  ofSource (.mapped inner mapping) inner.hint

def filtered (inner : Sequence ρ κ) (test : Outline → Except Failure Bool)
    (held : List (Value ρ κ)) (invert : Bool) : Sequence ρ κ :=
  ofSource (.filtered inner test held invert) .unknown

def zipped (left right : Sequence ρ κ) (pairing : Pairing κ) : Sequence ρ κ :=
  ofSource (.zipped left right pairing) (left.hint.min right.hint)

def window (inner : Sequence ρ κ) (start count : Nat) : Sequence ρ κ :=
  ofSource (.window inner start count) ((inner.hint.skip start).min (.exact count))

/-- Notes `label` when the sequence is dropped, after the labels it has already. -/
def onClose (s : Sequence ρ κ) (label : String) : Sequence ρ κ :=
  { s with hooks := s.hooks ++ [label] }

end Sequence

namespace Value

def outline (v : Value ρ κ) : Outline := v.map Sequence.hint

def ofTemplate (t : Template) : Value ρ κ := t.map Sequence.ofDraft

end Value

/-- What an operator on a collection is given: a list, or a sequence that it pulls itself. -/
inductive Collection (σ : Type) where
  | list (items : List (Tree σ))
  | sequence (s : σ)

namespace Collection

/-- A scalar is a list of one; a lone element of a list stays in its list. -/
def ofValue {σ : Type} : Tree σ → Collection σ
  | .scalar s => .list [.scalar s]
  | .list items => .list items
  | .sequence s => .sequence s

def toValue {σ : Type} : Collection σ → Tree σ
  | .list items => .list items
  | .sequence s => .sequence s

def toSequence (c : Collection (Sequence ρ κ)) : Sequence ρ κ := .wrap c.toValue

def extent : Collection (Sequence ρ κ) → Extent
  | .list items => .list items.length
  | .sequence s => .sequence s.hint

end Collection

end LazyCalc
