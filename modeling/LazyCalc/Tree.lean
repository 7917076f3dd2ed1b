import LazyCalc.Hint
import LazyCalc.Scalar.Debug
/-!
Values as trees: scalars, lists of values, and at some leaves a sequence, of which the tree only
says what it is made of. With `Hint` for it a tree is an outline, all that can be seen of a value
without pulling a sequence; with no type for it at all a tree is plain, free of sequences.
-/

namespace LazyCalc

inductive Tree (σ : Type) where
  | scalar (value : Scalar)
  | list (items : List (Tree σ))
  | sequence (value : σ)

abbrev Outline := Tree Hint

abbrev Plain := Tree Empty

namespace Tree

variable {σ τ : Type}

def typeName : Tree σ → String
  | .scalar s => s.typeName
  | .list _ => "list"
  | .sequence _ => "sequence"

def scalar? : Tree σ → Option Scalar
  | .scalar s => some s
  | .list _ | .sequence _ => none

mutual

def map (f : σ → τ) : Tree σ → Tree τ
  | .scalar s => .scalar s
  | .list items => .list (mapList f items)
  | .sequence s => .sequence (f s)

def mapList (f : σ → τ) : List (Tree σ) → List (Tree τ)
  | [] => []
  | t :: ts => map f t :: mapList f ts

end

theorem mapList_eq_map (f : σ → τ) (ts : List (Tree σ)) : mapList f ts = ts.map (map f) := by
  induction ts with
  | nil => rfl
  | cons t ts ih => rw [mapList, ih, List.map_cons]

mutual

theorem map_id (t : Tree σ) : t.map id = t := by
  cases t with
  | scalar s => rfl
  | list ts => rw [map, mapList_id ts]
  | sequence s => rfl

theorem mapList_id (ts : List (Tree σ)) : mapList id ts = ts := by
  cases ts with
  | nil => rfl
  | cons t ts => rw [mapList, map_id t, mapList_id ts]

end

mutual

theorem map_map {υ : Type} (f : σ → τ) (g : τ → υ) (t : Tree σ) :
    (t.map f).map g = t.map (g ∘ f) := by
  cases t with
  | scalar s => rfl
  | list ts => rw [map, map, map, mapList_mapList f g ts]
  | sequence s => rfl

theorem mapList_mapList {υ : Type} (f : σ → τ) (g : τ → υ) (ts : List (Tree σ)) :
    mapList g (mapList f ts) = mapList (g ∘ f) ts := by
  cases ts with
  | nil => rfl
  | cons t ts => rw [mapList, mapList, mapList, map_map f g t, mapList_mapList f g ts]

end

def ofPlain (t : Plain) : Tree σ := t.map Empty.elim

theorem map_ofPlain (f : σ → τ) (t : Plain) : (ofPlain t).map f = ofPlain t := by
  rw [ofPlain, map_map]
  congr 1
  funext e
  exact e.elim

/-- Strips every layer of list around a lone element. -/
def unwrap : Tree σ → Tree σ
  | .list [t] => t.unwrap
  | t => t

def isBatch : Tree σ → Bool
  | .list (.list _ :: _) => true
  | _ => false

mutual

/-- Sequences are never equal, not even to themselves: to compare them would drain them. -/
def same : Tree σ → Tree σ → Bool
  | .scalar s, .scalar t => s.same t
  | .list ts, .list us => sameList ts us
  | _, _ => false

def sameList : List (Tree σ) → List (Tree σ) → Bool
  | [], [] => true
  | t :: ts, u :: us => same t u && sameList ts us
  | _, _ => false

end

def sequenceText (h : Hint) : String :=
  match h.value? with
  | some n => "<sequence:" ++ toString n ++ ">"
  | none => "<sequence>"

mutual

def text : Outline → String
  | .scalar s => s.text
  | .list items => "[" ++ " ".intercalate (texts items) ++ "]"
  | .sequence h => sequenceText h

def texts : List Outline → List String
  | [] => []
  | t :: ts => text t :: texts ts

end

mutual

def debugText : Outline → String
  | .scalar s => s.debugText
  | .list items => "[" ++ ", ".intercalate (debugTexts items) ++ "]"
  | .sequence h => "Sequence(" ++ h.debugText ++ ")"

def debugTexts : List Outline → List String
  | [] => []
  | t :: ts => debugText t :: debugTexts ts

end

end Tree

end LazyCalc
