import LazyCalc.Engine.Total
/-!
Totals of finite trees. What a value comes to when its sequences are pulled is a pile: scalars, and
nodes that are lists or sequences. The total of a pile is one recursion over it, in which only an
error tells a list from a sequence.
-/

namespace LazyCalc

inductive Kind where
  | list
  | sequence

namespace Kind

def typeName : Kind → String
  | .list => "list"
  | .sequence => "sequence"

def misplaced (kind : Kind) : Failure := .type s!"Cannot add a {kind.typeName} to a running total"

end Kind

mutual

inductive Pile where
  | scalar (value : Scalar)
  | node (kind : Kind) (pulls : Pulls)

/-- What pulls give one after another, and what each of them tells. -/
inductive Pulls where
  | ended (texts : List String)
  | failed (texts : List String) (e : Failure)
  | given (texts : List String) (first : Pile) (rest : Pulls)

end

def Pile.scalar? : Pile → Option Scalar
  | .scalar x => some x
  | .node _ _ => none

/-- What comes of a reading, and what it tells. -/
structure Spoken (α : Type) where
  texts : List String
  result : Except Failure α

namespace Spoken

variable {α β : Type}

def refused (e : Failure) : Spoken α := ⟨[], .error e⟩

def tell (texts : List String) (x : Spoken α) : Spoken α := ⟨texts ++ x.texts, x.result⟩

def map (f : α → β) (x : Spoken α) : Spoken β := ⟨x.texts, x.result.map f⟩

def bind (x : Spoken α) (f : α → Spoken β) : Spoken β :=
  match x.result with
  | .ok a => (f a).tell x.texts
  | .error e => ⟨x.texts, .error e⟩

def cons (x : Spoken α) (xs : Spoken (List α)) : Spoken (List α) := x.bind fun a => xs.map (a :: ·)

def ofScalar (result : Except Failure Scalar) : Spoken Plain := ⟨[], result.map .scalar⟩

end Spoken

section

variable (finish : Scalar → Nat → Except Failure Scalar)

def Pulls.addUp (total : Scalar) (count : Nat) : Pulls → Spoken Plain
  | .ended texts => (Spoken.ofScalar (finish total count)).tell texts
  | .failed texts e => (Spoken.refused e).tell texts
  | .given texts (.node kind _) _ => (Spoken.refused kind.misplaced).tell texts
  | .given texts (.scalar x) rest =>
    match total.add x with
    | .ok total => (rest.addUp total (count + 1)).tell texts
    | .error e => (Spoken.refused e).tell texts

mutual

/-- The total of a pile that lies so deep. A scalar is a row of one. -/
def Pile.total (depth : Nat) : Pile → Spoken Plain
  | .scalar x =>
    if defaultLimit < depth then .refused (.nestingTooDeep defaultLimit)
    else .ofScalar (finish x 1)
  | .node _ pulls =>
    if defaultLimit < depth then .refused (.nestingTooDeep defaultLimit) else pulls.total depth

/-- The first element says whether all of them are added up or each has a total of its own. -/
def Pulls.total (depth : Nat) : Pulls → Spoken Plain
  | .ended texts => (Spoken.ofScalar (finish (.integer 0) 0)).tell texts
  | .failed texts e => (Spoken.refused e).tell texts
  | .given texts first rest =>
    match first.scalar? with
    | some x => (rest.addUp finish x 1).tell texts
    | none => (((first.total (depth + 1)).cons (rest.totals depth)).map .list).tell texts

def Pulls.totals (depth : Nat) : Pulls → Spoken (List Plain)
  | .ended texts => (⟨[], .ok []⟩ : Spoken (List Plain)).tell texts
  | .failed texts e => (Spoken.refused e).tell texts
  | .given texts first rest =>
    ((first.total (depth + 1)).cons (rest.totals depth)).tell texts

end

end

mutual

/-- The same but for the kinds of nodes. -/
inductive Pile.Recast : Pile → Pile → Prop where
  | scalar (x : Scalar) : Pile.Recast (.scalar x) (.scalar x)
  | node {kind kind' : Kind} {pulls pulls' : Pulls} (h : Pulls.Recast pulls pulls') :
    Pile.Recast (.node kind pulls) (.node kind' pulls')

inductive Pulls.Recast : Pulls → Pulls → Prop where
  | ended (texts : List String) : Pulls.Recast (.ended texts) (.ended texts)
  | failed (texts : List String) (e : Failure) : Pulls.Recast (.failed texts e) (.failed texts e)
  | given {texts : List String} {first first' : Pile} {rest rest' : Pulls}
    (hfirst : Pile.Recast first first') (hrest : Pulls.Recast rest rest') :
    Pulls.Recast (.given texts first rest) (.given texts first' rest')

end

mutual

theorem Pile.Recast.refl (t : Pile) : t.Recast t := by
  cases t with
  | scalar x => exact .scalar x
  | node kind pulls => exact .node (Pulls.Recast.refl pulls)

theorem Pulls.Recast.refl (pulls : Pulls) : pulls.Recast pulls := by
  cases pulls with
  | ended texts => exact .ended texts
  | failed texts e => exact .failed texts e
  | given texts first rest => exact .given (Pile.Recast.refl first) (Pulls.Recast.refl rest)

end

namespace Spoken

variable {α β : Type} {x y : Spoken α}

structure Alike (x y : Spoken α) : Prop where
  texts : x.texts = y.texts
  result : x.result = y.result ∨ ∃ kind kind' : Kind,
    x.result = .error kind.misplaced ∧ y.result = .error kind'.misplaced

namespace Alike

theorem refl (x : Spoken α) : Alike x x := ⟨rfl, .inl rfl⟩

theorem misplaced (kind kind' : Kind) :
    Alike (refused kind.misplaced : Spoken α) (refused kind'.misplaced) :=
  ⟨rfl, .inr ⟨kind, kind', rfl, rfl⟩⟩

theorem tell (h : Alike x y) (texts : List String) : Alike (x.tell texts) (y.tell texts) :=
  ⟨congrArg (texts ++ ·) h.texts, h.result⟩

theorem map (h : Alike x y) (f : α → β) : Alike (x.map f) (y.map f) := by
  refine ⟨h.texts, h.result.imp (congrArg (Except.map f)) ?_⟩
  rintro ⟨kind, kind', hx, hy⟩
  exact ⟨kind, kind', congrArg (Except.map f) hx, congrArg (Except.map f) hy⟩

theorem bind (h : Alike x y) {f g : α → Spoken β} (hf : ∀ a, Alike (f a) (g a)) :
    Alike (x.bind f) (y.bind g) := by
  obtain ⟨texts, result⟩ := x
  obtain ⟨_, result'⟩ := y
  obtain ⟨rfl, hresult⟩ := h
  obtain rfl | ⟨kind, kind', rfl, rfl⟩ := hresult
  · cases result with
    | error e => exact refl _
    | ok a => exact (hf a).tell texts
  · exact ⟨rfl, .inr ⟨kind, kind', rfl, rfl⟩⟩

theorem cons (h : Alike x y) {xs ys : Spoken (List α)} (hs : Alike xs ys) :
    Alike (x.cons xs) (y.cons ys) := h.bind fun a => hs.map (a :: ·)

end Alike

end Spoken

section

variable (finish : Scalar → Nat → Except Failure Scalar)

theorem Pile.Recast.scalar? {t t' : Pile} (h : t.Recast t') : t.scalar? = t'.scalar? := by
  cases h <;> rfl

theorem Pulls.Recast.addUp {pulls pulls' : Pulls} (h : pulls.Recast pulls') (total : Scalar)
    (count : Nat) : (pulls.addUp finish total count).Alike (pulls'.addUp finish total count) := by
  cases h with
  | ended texts => exact .refl _
  | failed texts e => exact .refl _
  | @given texts _ _ rest rest' hfirst hrest =>
    cases hfirst with
    | node _ => exact (Spoken.Alike.misplaced _ _).tell texts
    | scalar x =>
      rw [Pulls.addUp, Pulls.addUp]
      cases total.add x with
      | error e => exact .refl _
      | ok sum => exact (hrest.addUp sum (count + 1)).tell texts

mutual

theorem Pile.Recast.total {t t' : Pile} (h : t.Recast t') (depth : Nat) :
    (t.total finish depth).Alike (t'.total finish depth) := by
  cases h with
  | scalar x => exact .refl _
  | node h =>
    rw [Pile.total, Pile.total]
    split
    · exact .refl _
    · exact h.total depth

theorem Pulls.Recast.total {pulls pulls' : Pulls} (h : pulls.Recast pulls') (depth : Nat) :
    (pulls.total finish depth).Alike (pulls'.total finish depth) := by
  cases h with
  | ended texts => exact .refl _
  | failed texts e => exact .refl _
  | @given texts _ first' _ _ hfirst hrest =>
    rw [Pulls.total, Pulls.total, hfirst.scalar?]
    cases first'.scalar? with
    | some x => exact (hrest.addUp finish x 1).tell texts
    | none => exact (((hfirst.total (depth + 1)).cons (hrest.totals depth)).map _).tell texts

theorem Pulls.Recast.totals {pulls pulls' : Pulls} (h : pulls.Recast pulls') (depth : Nat) :
    (pulls.totals finish depth).Alike (pulls'.totals finish depth) := by
  cases h with
  | ended texts => exact .refl _
  | failed texts e => exact .refl _
  | given hfirst hrest =>
    exact ((hfirst.total (depth + 1)).cons (hrest.totals depth)).tell _

end

end

end LazyCalc
