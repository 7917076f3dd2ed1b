import LazyCalc.Engine.Pull
import LazyCalc.Proofs.Engine.Places
import LazyCalc.Proofs.Fanout.Cursor
import Mathlib.Data.List.Basic
/-!
What is given when something is asked again and again: by a state that is stepped, by a generator up
to its first failure, and by the sequence of a draft, pulled in a store that it leaves alone.
-/

namespace LazyCalc

section

variable {σ α : Type}

def nexts (next : σ → Option α × σ) : (n : Nat) → σ → List (Option α)
  | 0, _ => []
  | n + 1, s => (next s).1 :: nexts next n (next s).2

/-- Gives the elements of a list one after another, and stays as it is at the end. -/
inductive Lists (next : σ → Option α × σ) : σ → List α → Prop
  | nil {s : σ} (h : next s = (none, s)) : Lists next s []
  | cons {s s' : σ} {a : α} {as : List α} (h : next s = (some a, s')) (hrest : Lists next s' as) :
    Lists next s (a :: as)

theorem map_range_succ (f : Nat → α) (n : Nat) :
    (List.range (n + 1)).map f = f 0 :: (List.range n).map fun k => f (k + 1) := by
  rw [List.range_succ_eq_map, List.map_cons, List.map_map]
  rfl

theorem Lists.nexts_eq {next : σ → Option α × σ} {s : σ} {as : List α} (h : Lists next s as)
    (n : Nat) : nexts next n s = (List.range n).map (as[·]?) := by
  induction n generalizing s as with
  | zero => rfl
  | succ n ih =>
    cases h with
    | nil h => rw [nexts, h, ih (.nil h), map_range_succ]; rfl
    | cons h hrest => rw [nexts, h, ih hrest, map_range_succ]; rfl

/-- Where the states with `r` elements to come each give one that is `r` from the end, and these are
ordered against `r`, all of them are listed, in strictly increasing order. -/
theorem exists_listing [LT α] {next : σ → Option α × σ} (State : Nat → σ → Prop)
    (FromEnd : Nat → α → Prop) (hend : ∀ s, State 0 s → next s = (none, s))
    (hstep : ∀ r s, State (r + 1) s → ∃ a s', next s = (some a, s') ∧ FromEnd r a ∧ State r s')
    (horder : ∀ r r' a b, FromEnd r a → FromEnd r' b →
      r' < r ∧ a < b ∨ r = r' ∧ a = b ∨ r < r' ∧ b < a) {count : Nat} {s : σ}
    (h : State count s) :
    ∃ as, Lists next s as ∧ as.length = count ∧ as.Pairwise (· < ·) ∧
      ∀ a, a ∈ as ↔ ∃ r < count, FromEnd r a := by
  -- the head is the one that is furthest from the end, so it is below the others and none of them
  induction count generalizing s with
  | zero => exact ⟨[], .nil (hend s h), rfl, .nil, by simp⟩
  | succ count ih =>
    obtain ⟨a, s', hnext, ha, hs'⟩ := hstep count s h
    obtain ⟨as, hlists, hlength, hpairwise, hmem⟩ := ih hs'
    refine ⟨a :: as, .cons hnext hlists, by rw [List.length_cons, hlength], ?_, ?_⟩
    · refine List.pairwise_cons.mpr ⟨fun b hb => ?_, hpairwise⟩
      rcases (hmem b).mp hb with ⟨r, hr, hb⟩
      rcases horder count r a b ha hb with ⟨-, hlt⟩ | ⟨rfl, -⟩ | ⟨hgt, -⟩
      · exact hlt
      · exact absurd hr (Nat.lt_irrefl _)
      · exact absurd hr (Nat.lt_asymm hgt)
    · intro b
      rw [List.mem_cons, hmem]
      constructor
      · rintro (rfl | ⟨r, hr, hb⟩)
        · exact ⟨count, Nat.lt_succ_self count, ha⟩
        · exact ⟨r, Nat.lt_succ_of_lt hr, hb⟩
      · rintro ⟨r, hr, hb⟩
        rcases Nat.lt_succ_iff_lt_or_eq.mp hr with hr | rfl
        · exact .inr ⟨r, hr, hb⟩
        · rcases horder r r b a hb ha with ⟨hlt, -⟩ | ⟨-, heq⟩ | ⟨hgt, -⟩
          · exact absurd hlt (Nat.lt_irrefl _)
          · exact .inl heq
          · exact absurd hgt (Nat.lt_irrefl _)

end

/-- Items up to the first failure, which is still one of them. -/
def untilFailure : List PlainItem → List PlainItem
  | [] => []
  | .error e :: _ => [.error e]
  | .ok t :: items => .ok t :: untilFailure items

namespace Generator

/-- The items of a generator up to its end or its first failure. -/
inductive Gives : Generator → List PlainItem → Prop
  | ended {g g' : Generator} (h : g.next = (none, g')) : Gives g []
  | failed {g g' : Generator} {e : Failure} (h : g.next = (some (.error e), g')) :
    Gives g [.error e]
  | given {g g' : Generator} {t : Plain} {items : List PlainItem}
    (h : g.next = (some (.ok t), g')) (hrest : Gives g' items) : Gives g (.ok t :: items)

theorem gives_of_lists {σ α : Type} {next : σ → Option α × σ} (generator : σ → Generator)
    (make : α → PlainItem)
    (hnext : ∀ s, (generator s).next = ((next s).1.map make, generator (next s).2))
    {s : σ} {as : List α} (h : Lists next s as) : (generator s).Gives (untilFailure (as.map make)) := by
  induction h with
  | @nil s h =>
    have hnext := hnext s
    rw [h] at hnext
    exact .ended hnext
  | @cons s s' a as h hrest ih =>
    have hnext := hnext s
    rw [h] at hnext
    rw [List.map_cons]
    cases hmake : make a with
    | error e => exact .failed (hnext.trans (by rw [Option.map_some, hmake]))
    | ok t => exact .given (hnext.trans (by rw [Option.map_some, hmake])) ih

end Generator

namespace Sequence

def pulls (fuel : Nat) : (n : Nat) → Linked.Sequence → Engine (List (Option Linked.Item) × Linked.Sequence)
  | 0, s => pure ([], s)
  | n + 1, s => do
    let (item, s) ← s.pull fuel
    let (items, s) ← pulls fuel n s
    pure (item :: items, s)

/-- However often it is pulled, in any store and with any fuel, it gives the items one after another
and then nothing, and the store stays as it is. -/
def Gives (s : Linked.Sequence) (items : List PlainItem) : Prop :=
  ∀ fuel n st, ∃ s', s.pulls (fuel + 1) n st =
    .ok (((List.range n).map fun k => items[k]?.map (.map Tree.ofPlain), s'), st)

theorem Gives.getElem?_eq {s : Linked.Sequence} {items items' : List PlainItem} (h : s.Gives items)
    (h' : s.Gives items') (k : Nat) : items[k]?.map (.map Tree.ofPlain : PlainItem → Linked.Item) =
      items'[k]?.map (.map Tree.ofPlain) := by
  obtain ⟨_, hpulls⟩ := h 0 (k + 1) Store.empty
  obtain ⟨_, hpulls'⟩ := h' 0 (k + 1) Store.empty
  have heq := congrArg (fun r => r.map fun o => o.1.1[k]?) (hpulls.symm.trans hpulls')
  simpa only [Except.map, List.getElem?_map, List.getElem?_range k.lt_succ_self, Option.map_some,
    Except.ok.injEq, Option.some.injEq] using heq

theorem gives_of_pull {s s' : Linked.Sequence} {items : List PlainItem}
    (h : ∀ fuel st, s.pull (fuel + 1) st = .ok ((items.head?.map (.map Tree.ofPlain), s'), st))
    (hrest : s'.Gives items.tail) : s.Gives items := by
  intro fuel n st
  cases n with
  | zero => exact ⟨s, rfl⟩
  | succ n =>
    obtain ⟨s₁, hpulls⟩ := hrest fuel n st
    refine ⟨s₁, ?_⟩
    rw [pulls, Engine.bind_eq (h fuel st), map_range_succ]
    refine (Engine.bind_eq hpulls).trans ?_
    cases items <;> rfl

theorem gives_of_finished {s : Linked.Sequence} (h : s.finished = true) : s.Gives [] := by
  obtain ⟨origin, hint, finished, hooks⟩ := s
  obtain rfl : finished = true := h
  intro fuel n st
  refine ⟨⟨origin, hint, true, hooks⟩, ?_⟩
  induction n with
  | zero => rfl
  | succ n ih =>
    have hpull : pull (fuel + 1) ⟨origin, hint, true, hooks⟩ st =
        .ok ((none, ⟨origin, hint, true, hooks⟩), st) := rfl
    rw [pulls, Engine.bind_eq hpull, map_range_succ]
    exact Engine.bind_eq ih

theorem gives_generated {g : Generator} {items : List PlainItem} (h : g.Gives items) (hint : Hint)
    (hooks : List String) : Gives ⟨.direct (.generated g), hint, false, hooks⟩ items := by
  have hpull (g : Generator) (fuel : Nat) (st : Store) :
      pull (fuel + 1) ⟨.direct (.generated g), hint, false, hooks⟩ st =
        .ok ((g.next.1.map (.map Tree.ofPlain), ⟨.direct (.generated g.next.2), hint,
          closes (g.next.1.map (.map Tree.ofPlain : PlainItem → Linked.Item)), hooks⟩), st) := rfl
  induction h with
  | ended h =>
    refine gives_of_pull (fun fuel st => (hpull _ fuel st).trans (by rw [h]; rfl)) ?_
    exact gives_of_finished rfl
  | failed h =>
    refine gives_of_pull (fun fuel st => (hpull _ fuel st).trans (by rw [h]; rfl)) ?_
    exact gives_of_finished rfl
  | given h hrest ih =>
    exact gives_of_pull (fun fuel st => (hpull _ fuel st).trans (by rw [h]; rfl)) ih

end Sequence

def Draft.Gives (d : Draft) (items : List PlainItem) : Prop :=
  Sequence.Gives (.ofDraft d) items

theorem Draft.gives_of_generator {d : Draft} {items : List PlainItem}
    (h : d.generator.Gives items) : d.Gives items := Sequence.gives_generated h d.hint []

end LazyCalc
