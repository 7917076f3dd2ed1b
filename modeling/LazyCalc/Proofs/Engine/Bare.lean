import LazyCalc.Proofs.Engine.Dropping
/-!
Bare values: their sequences own all that they read, and there are no labels on them. Nothing comes
of it when one is dropped.
-/

namespace LazyCalc

mutual

def Tree.Bare : Linked.Value → Prop
  | .scalar _ => True
  | .list items => Tree.BareList items
  | .sequence s => s.Bare

def Tree.BareList : List Linked.Value → Prop
  | [] => True
  | v :: vs => v.Bare ∧ Tree.BareList vs

def Sequence.Bare : Linked.Sequence → Prop
  | ⟨origin, _, _, hooks⟩ => hooks = [] ∧ origin.Bare

def Origin.Bare : Linked.Origin → Prop
  | .direct source => source.Bare
  | .branch _ => False

def Source.Bare : Linked.Source → Prop
  | .generated _ => True
  | .items remaining => Source.BareItems remaining
  | .mapped inner mapping => inner.Bare ∧ mapping.cell? = none
  | .filtered inner _ held _ => inner.Bare ∧ Tree.BareList held
  | .zipped left right pairing => left.Bare ∧ right.Bare ∧ pairing.cell? = none
  | .window inner _ _ => inner.Bare

def Source.BareItems : List Linked.Item → Prop
  | [] => True
  | .ok v :: items => v.Bare ∧ Source.BareItems items
  | .error _ :: items => Source.BareItems items

end

theorem Tree.BareList.nil : Tree.BareList [] := trivial

def Item.Bare : Linked.Item → Prop
  | .ok v => v.Bare
  | .error _ => True

mutual

theorem release_bare {v : Linked.Value} (h : v.Bare) (rest : List Debris) (st : Store) :
    release (.value v :: rest) st = release rest st := by
  cases v with
  | scalar x => rw [release]
  | list vs => rw [release, release_bareList h]
  | sequence s => rw [release, release_bareSequence h]

theorem release_bareList {vs : List Linked.Value} (h : Tree.BareList vs) (rest : List Debris)
    (st : Store) : release (Debris.ofValues vs ++ rest) st = release rest st := by
  cases vs with
  | nil => rfl
  | cons v vs => exact (release_bare h.1 _ st).trans (release_bareList h.2 rest st)

theorem release_bareSequence {s : Linked.Sequence} (h : s.Bare) (rest : List Debris) (st : Store) :
    release (.sequence s :: rest) st = release rest st := by
  cases s with
  | mk origin hint finished hooks =>
    obtain ⟨rfl, h⟩ := h
    cases origin with
    | branch place => exact h.elim
    | direct source =>
      rw [release_direct]
      exact release_bareSource h rest st

theorem release_bareSource {s : Linked.Source} (h : s.Bare) (rest : List Debris) (st : Store) :
    release (.source s :: rest) st = release rest st := by
  rw [release]
  cases s with
  | generated g => rfl
  | items remaining => exact release_bareItems h rest st
  | mapped inner mapping =>
    rw [Debris.ofSource, h.2]
    exact release_bareSequence h.1 rest st
  | filtered inner test held invert =>
    exact (release_bareSequence h.1 _ st).trans (release_bareList h.2 rest st)
  | zipped left right pairing =>
    rw [Debris.ofSource, h.2.2]
    exact (release_bareSequence h.1 _ st).trans (release_bareSequence h.2.1 rest st)
  | window inner skip take => exact release_bareSequence h rest st

theorem release_bareItems {items : List Linked.Item} (h : Source.BareItems items)
    (rest : List Debris) (st : Store) :
    release (Debris.ofItems items ++ rest) st = release rest st := by
  cases items with
  | nil => rfl
  | cons item items =>
    cases item with
    | error e => exact release_bareItems (show Source.BareItems items from h) rest st
    | ok v => exact (release_bare h.1 _ st).trans (release_bareItems h.2 rest st)

end

theorem Engine.dropValues_bare (vs : List Linked.Value) (h : Tree.BareList vs) :
    dropValues vs = pure () := by
  funext st
  refine drop_eq ?_
  have hrelease := release_bareList h [] st
  rwa [List.append_nil, release_nil] at hrelease

mutual

theorem Tree.bare_ofPlain (t : Plain) : (Tree.ofPlain t : Linked.Value).Bare := by
  cases t with
  | scalar x => trivial
  | list ts => exact Tree.bareList_ofPlain ts
  | sequence e => exact e.elim

theorem Tree.bareList_ofPlain (ts : List Plain) :
    Tree.BareList (Tree.mapList Empty.elim ts : List Linked.Value) := by
  cases ts with
  | nil => trivial
  | cons t ts => exact ⟨Tree.bare_ofPlain t, Tree.bareList_ofPlain ts⟩

end

theorem Tree.bareList_append {vs ws : List Linked.Value} :
    Tree.BareList (vs ++ ws) ↔ Tree.BareList vs ∧ Tree.BareList ws := by
  induction vs with
  | nil => rw [List.nil_append, BareList, true_and]
  | cons v vs ih => rw [List.cons_append, BareList, BareList, ih, and_assoc]

theorem Tree.bareList_reverse {vs : List Linked.Value} :
    Tree.BareList vs.reverse ↔ Tree.BareList vs := by
  induction vs with
  | nil => exact Iff.rfl
  | cons v vs ih =>
    rw [List.reverse_cons, bareList_append, ih, BareList, BareList, BareList, and_true, and_comm]

theorem Source.bareItems_ofValues {vs : List Linked.Value} :
    Source.BareItems (vs.map .ok) ↔ Tree.BareList vs := by
  induction vs with
  | nil => exact Iff.rfl
  | cons v vs ih => rw [List.map_cons, BareItems, ih, Tree.BareList]

end LazyCalc
