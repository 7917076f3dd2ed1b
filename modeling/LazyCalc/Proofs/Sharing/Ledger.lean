import LazyCalc.Proofs.Sharing.Contents
import Mathlib.Algebra.Order.Field.Basic
import Mathlib.Algebra.Order.Field.Rat
import Mathlib.Logic.Relation
/-!
A ledger of a store: what every branch still has to give and what every cell holds, told in lone
sequences; who is there to be dropped; and a rank for every place, above the ranks of all that is
reached from there.
-/

namespace LazyCalc

open Filter

/-- The labels that wait, each list with what carries it, and the labels that were noted. -/
abbrev Book := Multiset (Carrier × List String) × List String

/-- What can happen to labels: a sequence without any comes up; those of a sequence go over to the
fan-out that its source moves into, or, if it is a branch, are put behind those of its fan-out; or
all that one carrier has are noted, and it is gone. -/
inductive Book.Turn : Book → Book → Prop
  | made (W : Multiset (Carrier × List String)) (noted : List String) :
    Turn (W, noted) ((.direct, []) ::ₘ W, noted)
  | joined (place : Branch) (W : Multiset (Carrier × List String)) (noted : List String) :
    Turn (W, noted) ((.branch place, []) ::ₘ W, noted)
  | moved (i : Nat) (a : List String) (W : Multiset (Carrier × List String)) (noted : List String) :
    Turn ((.direct, a) ::ₘ W, noted) ((.fanout i, a) ::ₘ W, noted)
  | merged (place : Branch) (a b : List String) (W : Multiset (Carrier × List String))
    (noted : List String) :
    Turn ((.fanout place.fanout, a) ::ₘ (.branch place, b) ::ₘ W, noted)
      ((.fanout place.fanout, a ++ b) ::ₘ (.branch place, []) ::ₘ W, noted)
  | closed (carrier : Carrier) (a : List String) (W : Multiset (Carrier × List String))
    (noted : List String) : Turn ((carrier, a) ::ₘ W, noted) (W, noted ++ a)

abbrev Book.Turns : Book → Book → Prop := Relation.ReflTransGen Book.Turn

structure Ledger where
  stream : Branch → Option Lone.Source
  /-- The labels of a branch, and of those that it comes from, that are with its fan-out. -/
  before : Branch → List String
  /-- The lone sequences keep the labels of all that they come from. -/
  tracked : Bool
  snapshot : Nat → Snapshot
  live : Branch → Bool
  holders : Nat → Nat
  rank : Spot → ℚ
  lent : Spot → Bool
  fanouts : Nat
  cells : Nat
  book : Book

namespace Ledger

variable (G : Ledger)

def Knows : Spot → Prop
  | .fanout i => i < G.fanouts
  | .cell i => i < G.cells

/-- Everything that is owned has its place below a rank. -/
def Below (r : ℚ) (A : Assets) : Prop := ∀ a ∈ A, ∀ x, a.spot? = some x → G.rank x < r

def Guards (r : ℚ) : Prop := ∀ x, G.lent x = true → r ≤ G.rank x

variable {G} {r r' : ℚ} {A B : Assets}

theorem Below.mono (h : G.Below r A) (hr : r ≤ r') : G.Below r' A :=
  fun a ha x hx => lt_of_lt_of_le (h a ha x hx) hr

theorem Below.sub (h : G.Below r A) (hB : B ≤ A) : G.Below r B :=
  fun a ha => h a (Multiset.mem_of_le hB ha)

theorem below_add : G.Below r (A + B) ↔ G.Below r A ∧ G.Below r B := by
  simp only [Below, Multiset.mem_add]
  constructor
  · exact fun h => ⟨fun a ha => h a (.inl ha), fun a ha => h a (.inr ha)⟩
  · rintro ⟨hA, hB⟩ a (ha | ha)
    · exact hA a ha
    · exact hB a ha

theorem below_zero : G.Below r 0 := fun a ha => absurd ha (Multiset.notMem_zero a)

theorem below_hooks {carrier : Carrier} {labels : List String} :
    G.Below r {.hooks carrier labels} := by
  intro a ha x hx
  obtain rfl := Multiset.mem_singleton.mp ha
  cases hx

theorem Below.between (h : G.Below r A) : ∃ q < r, G.Below q A := by
  induction A using Multiset.induction with
  | empty => exact ⟨r - 1, sub_one_lt r, below_zero⟩
  | cons a A ih =>
    rw [← Multiset.singleton_add, below_add] at h
    obtain ⟨q, hq, hA⟩ := ih h.2
    cases hx : a.spot? with
    | none =>
      refine ⟨q, hq, ?_⟩
      rw [← Multiset.singleton_add, below_add]
      refine ⟨fun b hb x hb' => ?_, hA⟩
      rw [Multiset.mem_singleton.mp hb, hx] at hb'
      cases hb'
    | some x =>
      have hax := h.1 a (Multiset.mem_singleton_self a) x hx
      obtain ⟨p, hp, hpr⟩ := exists_between hax
      refine ⟨max p q, max_lt hpr hq, ?_⟩
      rw [← Multiset.singleton_add, below_add]
      refine ⟨fun b hb y hb' => ?_, hA.mono (le_max_right p q)⟩
      rw [Multiset.mem_singleton.mp hb, hx] at hb'
      obtain rfl := Option.some.inj hb'
      exact lt_of_lt_of_le hp (le_max_left p q)

end Ledger

/-- How a ledger goes on while something with the frame `F` around it is at work: what is known of
the frame and of what is lent stays. -/
structure Evolves (F : Assets) (G G' : Ledger) : Prop where
  stream : ∀ p, .branch p ∈ F ∨ G.lent (.fanout p.fanout) = true → G'.stream p = G.stream p
  before : ∀ p, .branch p ∈ F ∨ G.lent (.fanout p.fanout) = true → G'.before p = G.before p
  tracked : G'.tracked = G.tracked
  snapshot : ∀ i, .cell i ∈ F ∨ G.lent (.cell i) = true → G'.snapshot i = G.snapshot i
  live : ∀ p, G.lent (.fanout p.fanout) = true → G'.live p = G.live p
  holders : ∀ i, G.lent (.cell i) = true → G'.holders i = G.holders i
  rank : ∀ x, G.Knows x → G'.rank x = G.rank x
  lent : G'.lent = G.lent
  fanouts : G.fanouts ≤ G'.fanouts
  cells : G.cells ≤ G'.cells
  book : Book.Turns G.book G'.book

namespace Evolves

variable {F F' : Assets} {G G' G'' : Ledger}

theorem refl (F : Assets) (G : Ledger) : Evolves F G G :=
  ⟨fun _ _ => rfl, fun _ _ => rfl, rfl, fun _ _ => rfl, fun _ _ => rfl, fun _ _ => rfl,
    fun _ _ => rfl, rfl, le_refl _, le_refl _, .refl⟩

theorem knows (h : Evolves F G G') {x : Spot} (hx : G.Knows x) : G'.Knows x := by
  cases x with
  | fanout i => exact lt_of_lt_of_le hx h.fanouts
  | cell i => exact lt_of_lt_of_le hx h.cells

theorem trans (h : Evolves F G G') (h' : Evolves F G' G'') : Evolves F G G'' where
  stream p hp := (h'.stream p (by rwa [h.lent])).trans (h.stream p hp)
  before p hp := (h'.before p (by rwa [h.lent])).trans (h.before p hp)
  tracked := h'.tracked.trans h.tracked
  snapshot i hi := (h'.snapshot i (by rwa [h.lent])).trans (h.snapshot i hi)
  live p hp := (h'.live p (by rwa [h.lent])).trans (h.live p hp)
  holders i hi := (h'.holders i (by rwa [h.lent])).trans (h.holders i hi)
  rank x hx := (h'.rank x (h.knows hx)).trans (h.rank x hx)
  lent := h'.lent.trans h.lent
  fanouts := le_trans h.fanouts h'.fanouts
  cells := le_trans h.cells h'.cells
  book := h.book.trans h'.book

theorem sub (h : Evolves F G G') (hF : F' ≤ F) : Evolves F' G G' where
  stream p hp := h.stream p (hp.imp (Multiset.mem_of_le hF) id)
  before p hp := h.before p (hp.imp (Multiset.mem_of_le hF) id)
  tracked := h.tracked
  snapshot i hi := h.snapshot i (hi.imp (Multiset.mem_of_le hF) id)
  live := h.live
  holders := h.holders
  rank := h.rank
  lent := h.lent
  fanouts := h.fanouts
  cells := h.cells
  book := h.book

theorem below (h : Evolves F G G') {r : ℚ} {A : Assets}
    (hA : ∀ a ∈ A, ∀ x, a.spot? = some x → G.Knows x) (hr : G.Below r A) : G'.Below r A := by
  intro a ha x hx
  rw [h.rank x (hA a ha x hx)]
  exact hr a ha x hx

theorem guards (h : Evolves F G G') {r : ℚ} (hG : ∀ x, G.lent x = true → G.Knows x)
    (hr : G.Guards r) : G'.Guards r := by
  intro x hx
  rw [h.lent] at hx
  rw [h.rank x (hG x hx)]
  exact hr x hx

end Evolves

namespace Twins

abbrev Hooks := Twin (List String) (List String)

/-- A linked sequence stands for a lone one: each gives, from where it is, what the other gives. The
lone one has its labels and those that have gone over to its fan-out. -/
inductive Matches (G : Ledger) : Sequence → Prop
  | direct (source : Source) (hint : Hint) (finished : Bool) (hooks : Hooks)
    (hsequence : ∀ s, .sequence s ∈ (parts source : Parts) → Matches G s)
    (hcell : ∀ k, .cell k ∈ (parts source : Parts) → G.snapshot k.left = k.right)
    (hhooks : G.tracked = true → hooks.right = hooks.left) :
    Matches G ⟨⟨.direct (left source), hint, finished, hooks.left⟩,
      ⟨.direct (right source), hint, finished, hooks.right⟩⟩
  | branch (place : Branch) (stream : Lone.Source) (hint : Hint) (finished : Bool) (hooks : Hooks)
    (hstream : finished = false → G.stream place = some stream)
    (hhooks : G.tracked = true → hooks.right = G.before place ++ hooks.left) :
    Matches G ⟨⟨.branch place, hint, finished, hooks.left⟩,
      ⟨.direct stream, hint, finished, hooks.right⟩⟩

structure Fits (G : Ledger) (A : Parts) : Prop where
  sequence : ∀ s, .sequence s ∈ A → Matches G s
  cell : ∀ k, .cell k ∈ A → G.snapshot k.left = k.right

end Twins

structure Ledger.Agrees (G G' : Ledger) (A : Assets) : Prop where
  stream : ∀ p, .branch p ∈ A → G'.stream p = G.stream p
  before : ∀ p, .branch p ∈ A → G'.before p = G.before p
  tracked : G'.tracked = G.tracked
  snapshot : ∀ i, .cell i ∈ A → G'.snapshot i = G.snapshot i

namespace Ledger.Agrees

variable {G G' G'' : Ledger} {A B : Assets}

theorem subset (h : G.Agrees G' A) (hB : ∀ a ∈ B, a ∈ A) : G.Agrees G' B :=
  ⟨fun p hp => h.stream p (hB _ hp), fun p hp => h.before p (hB _ hp), h.tracked,
    fun i hi => h.snapshot i (hB _ hi)⟩

theorem sub (h : G.Agrees G' A) (hB : B ≤ A) : G.Agrees G' B :=
  h.subset fun _ => Multiset.mem_of_le hB

theorem trans (h : G.Agrees G' A) (h' : G'.Agrees G'' A) : G.Agrees G'' A where
  stream p hp := (h'.stream p hp).trans (h.stream p hp)
  before p hp := (h'.before p hp).trans (h.before p hp)
  tracked := h'.tracked.trans h.tracked
  snapshot i hi := (h'.snapshot i hi).trans (h.snapshot i hi)

end Ledger.Agrees

theorem Evolves.agrees {F : Assets} {G G' : Ledger} (h : Evolves F G G') : G.Agrees G' F :=
  ⟨fun p hp => h.stream p (.inl hp), fun p hp => h.before p (.inl hp), h.tracked,
    fun i hi => h.snapshot i (.inl hi)⟩

theorem assets_le_ownedBy {A : Twins.Parts} {s : Twins.Sequence} (h : .sequence s ∈ A) :
    s.left.assets ≤ ownedBy A := by
  obtain ⟨B, rfl⟩ := Multiset.exists_cons_of_mem h
  rw [← Multiset.singleton_add, ownedBy_add, show ownedBy {.sequence s} = _ from ownedBy_twin s]
  exact Multiset.le_add_right _ _

theorem cell_mem_ownedBy {A : Twins.Parts} {k : Twins.Cell} (h : .cell k ∈ A) :
    .cell k.left ∈ ownedBy A := by
  obtain ⟨B, rfl⟩ := Multiset.exists_cons_of_mem h
  rw [← Multiset.singleton_add, ownedBy_add, show ownedBy {.cell k} = _ from ownedBy_cell k]
  exact Multiset.mem_add.mpr (.inl (Multiset.mem_singleton_self _))

namespace Twins

variable {G G' : Ledger} {A B : Parts}

theorem assets_direct (source : Linked.Source) (hint : Hint) (finished : Bool)
    (hooks : List String) :
    (⟨.direct source, hint, finished, hooks⟩ : Linked.Sequence).assets =
      {.hooks .direct hooks} + source.assets := rfl

theorem assets_branch (place : Branch) (hint : Hint) (finished : Bool) (hooks : List String) :
    (⟨.branch place, hint, finished, hooks⟩ : Linked.Sequence).assets =
      {.hooks (.branch place) hooks} + {.branch place} := rfl

theorem Matches.mono {s : Sequence} (h : Matches G s) (hA : G.Agrees G' s.left.assets) :
    Matches G' s := by
  induction h with
  | direct source hint finished hooks hsequence hcell hhooks ih =>
    rw [assets_direct, ← ownedBy_source] at hA
    have hsource := hA.sub (Multiset.le_add_left _ _)
    refine .direct source hint finished hooks (fun s hs => ?_) (fun k hk => ?_)
      fun ht => hhooks (hA.tracked.symm.trans ht)
    · exact ih s hs (hsource.sub (assets_le_ownedBy hs))
    · exact (hsource.snapshot _ (cell_mem_ownedBy hk)).trans (hcell k hk)
  | branch place stream hint finished hooks hstream hhooks =>
    rw [assets_branch] at hA
    refine .branch place stream hint finished hooks (fun hf => ?_) fun ht => ?_
    · exact (hA.stream place (by simp)).trans (hstream hf)
    · rw [hA.before place (by simp)]
      exact hhooks (hA.tracked.symm.trans ht)

theorem Matches.hint {s : Sequence} (h : Matches G s) : s.left.hint = s.right.hint := by
  cases h <;> rfl

theorem Matches.hooks_branch {s : Sequence} (h : Matches G s) {place : Branch}
    (hs : s.left.origin = .branch place) (ht : G.tracked = true) :
    s.right.hooks = G.before place ++ s.left.hooks := by
  cases h with
  | direct => cases hs
  | branch place stream hint finished hooks hstream hhooks =>
    cases hs
    exact hhooks ht

theorem Fits.mono (h : Fits G A) (hA : G.Agrees G' (ownedBy A)) : Fits G' A where
  sequence s hs := (h.sequence s hs).mono (hA.sub (assets_le_ownedBy hs))
  cell k hk := (hA.snapshot _ (cell_mem_ownedBy hk)).trans (h.cell k hk)

theorem fits_zero : Fits G 0 :=
  ⟨fun _ h => absurd h (Multiset.notMem_zero _), fun _ h => absurd h (Multiset.notMem_zero _)⟩

theorem fits_add : Fits G (A + B) ↔ Fits G A ∧ Fits G B := by
  constructor
  · intro h
    refine ⟨⟨fun s hs => ?_, fun k hk => ?_⟩, ⟨fun s hs => ?_, fun k hk => ?_⟩⟩
    · exact h.sequence s (Multiset.mem_add.mpr (.inl hs))
    · exact h.cell k (Multiset.mem_add.mpr (.inl hk))
    · exact h.sequence s (Multiset.mem_add.mpr (.inr hs))
    · exact h.cell k (Multiset.mem_add.mpr (.inr hk))
  · rintro ⟨hA, hB⟩
    refine ⟨fun s hs => ?_, fun k hk => ?_⟩
    · exact (Multiset.mem_add.mp hs).elim (hA.sequence s) (hB.sequence s)
    · exact (Multiset.mem_add.mp hk).elim (hA.cell k) (hB.cell k)

theorem fits_twin {s : Sequence} : Fits G (parts s) ↔ Matches G s := by
  constructor
  · exact fun h => h.sequence s (Multiset.mem_singleton_self _)
  · intro h
    refine ⟨fun t ht => ?_, fun k hk => ?_⟩
    · cases Multiset.mem_singleton.mp ht
      exact h
    · cases Multiset.mem_singleton.mp hk

theorem fits_cell {k : Cell} : Fits G (parts k) ↔ G.snapshot k.left = k.right := by
  constructor
  · exact fun h => h.cell k (Multiset.mem_singleton_self _)
  · intro h
    refine ⟨fun s hs => ?_, fun k' hk => ?_⟩
    · cases Multiset.mem_singleton.mp hs
    · cases Multiset.mem_singleton.mp hk
      exact h

end Twins

/-- From the stream `S` come the items, and then the stream `Z` of a source if that is not done. -/
inductive Leads : Bool → Lone.Source → Lone.Source → List Lone.Item → Prop
  | caught (Z : Lone.Source) : Leads false Z Z []
  | ended {S S' Z : Lone.Source} (h : Settles (fun n => S.step (Drive.alone n)) (none, S')) :
    Leads true Z S []
  | failed {S S' Z : Lone.Source} {e : Failure}
    (h : Settles (fun n => S.step (Drive.alone n)) (some (.error e), S')) :
    Leads true Z S [.error e]
  | next {done : Bool} {S S' Z : Lone.Source} {X : Lone.Value} {Xs : List Lone.Item}
    (h : Settles (fun n => S.step (Drive.alone n)) (some (.ok X), S')) (hXs : Leads done Z S' Xs) :
    Leads done Z S (.ok X :: Xs)

namespace Leads

variable {S Z Z' : Lone.Source} {Xs : List Lone.Item} {done : Bool}

theorem of_error {e : Failure} (h : Leads done Z S (.error e :: Xs)) :
    ∃ S', Settles (fun n => S.step (Drive.alone n)) (some (.error e), S') := by
  cases h with
  | failed h => exact ⟨_, h⟩

theorem of_ok {X : Lone.Value} (h : Leads done Z S (.ok X :: Xs)) :
    ∃ S', Settles (fun n => S.step (Drive.alone n)) (some (.ok X), S') ∧ Leads done Z S' Xs := by
  cases h with
  | next h hXs => exact ⟨_, h, hXs⟩

theorem of_ended (h : Leads true Z S []) :
    ∃ S', Settles (fun n => S.step (Drive.alone n)) (none, S') := by
  cases h with
  | ended h => exact ⟨_, h⟩

theorem of_caught (h : Leads false Z S []) : S = Z := by
  cases h with
  | caught => rfl

theorem push (h : Leads false Z S Xs) {X : Lone.Value}
    (hZ : Settles (fun n => Z.step (Drive.alone n)) (some (.ok X), Z')) :
    Leads false Z' S (Xs ++ [.ok X]) := by
  generalize hd : false = done at h
  induction h with
  | caught Z => exact .next hZ (.caught Z')
  | ended h => cases hd
  | failed h => cases hd
  | next h hXs ih => exact .next h (ih hZ hd)

theorem fail (h : Leads false Z S Xs) {e : Failure}
    (hZ : Settles (fun n => Z.step (Drive.alone n)) (some (.error e), Z')) :
    Leads true Z' S (Xs ++ [.error e]) := by
  generalize hd : false = done at h
  induction h with
  | caught Z => exact .failed hZ
  | ended h => cases hd
  | failed h => cases hd
  | next h hXs ih => exact .next h (ih hZ hd)

theorem finish (h : Leads false Z S Xs)
    (hZ : Settles (fun n => Z.step (Drive.alone n)) (none, Z')) : Leads true Z' S Xs := by
  generalize hd : false = done at h
  induction h with
  | caught Z => exact .ended hZ
  | ended h => cases hd
  | failed h => cases hd
  | next h hXs ih => exact .next h (ih hZ hd)

end Leads

end LazyCalc
