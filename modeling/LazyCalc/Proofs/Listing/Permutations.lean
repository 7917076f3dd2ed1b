import LazyCalc.Proofs.Counts.Tuples
import LazyCalc.Proofs.Listing.Giving
import Mathlib.Data.List.Induction
import Mathlib.Data.List.Perm.Basic
/-!
The orderings that are given one after another are all of them, in lexicographic order. A counter
says how many numbers of what is left, counted from its end, the place has picked its own from; so
the counters determine the ordering, and a step of the counters is the step to its successor.
-/

namespace LazyCalc

open Nat (factorial factorial_succ)

namespace Arrangement

/-- Takes one number after another out of a pool. A counter is the number that is taken with those
after it in the pool. -/
inductive Picks : (pool cycles picked rest : List Nat) → Prop
  | nil (pool : List Nat) : Picks pool [] [] pool
  | cons {pool before after cycles picked rest : List Nat} {x : Nat}
    (hpool : pool = before ++ x :: after) (h : Picks (before ++ after) cycles picked rest) :
    Picks pool ((after.length + 1) :: cycles) (x :: picked) rest

theorem picks_starts (pool : List Nat) : Picks pool (starts pool.length) pool [] := by
  induction pool with
  | nil => exact .nil []
  | cons x pool ih =>
    rw [List.length_cons, starts_succ]
    exact .cons (List.nil_append _).symm ih

namespace Picks

variable {pool mid rest cycles cs ds xs ys : List Nat} {c x : Nat}

theorem append (h : Picks pool cs xs mid) (h' : Picks mid ds ys rest) :
    Picks pool (cs ++ ds) (xs ++ ys) rest := by
  induction h with
  | nil => exact h'
  | cons hpool _ ih => exact .cons hpool (ih h')

theorem length_eq (h : Picks pool cs xs rest) : cs.length = xs.length := by
  induction h with
  | nil => rfl
  | cons _ _ ih => rw [List.length_cons, List.length_cons, ih]

theorem perm (h : Picks pool cs xs rest) : (xs ++ rest).Perm pool := by
  induction h with
  | nil => exact .refl _
  | @cons pool before after _ _ _ x hpool _ ih =>
    rw [hpool]
    exact (ih.cons x).trans List.perm_middle.symm

theorem last (h : Picks pool (cs ++ [c]) (xs ++ [x]) rest) (hlength : cs.length = xs.length) :
    ∃ before after, Picks pool cs xs (before ++ x :: after) ∧ c = after.length + 1 ∧
      rest = before ++ after := by
  induction cs generalizing pool xs with
  | nil =>
    obtain rfl := List.eq_nil_of_length_eq_zero hlength.symm
    obtain _ | ⟨rfl, h⟩ := h
    cases h
    exact ⟨_, _, .nil _, rfl, rfl⟩
  | cons d cs ih =>
    cases xs with
    | nil => cases hlength
    | cons y xs =>
      obtain _ | ⟨hpool, h⟩ := h
      rcases ih h (Nat.succ.inj hlength) with ⟨before, after, h, hc, hrest⟩
      exact ⟨before, after, .cons hpool h, hc, hrest⟩

theorem exists_of_perm (h : xs.Perm pool) : ∃ cs, Picks pool cs xs [] := by
  induction xs generalizing pool with
  | nil =>
    obtain rfl := h.symm.eq_nil
    exact ⟨[], .nil []⟩
  | cons x xs ih =>
    rcases List.append_of_mem (h.subset List.mem_cons_self) with ⟨before, after, rfl⟩
    rcases ih (h.trans List.perm_middle).cons_inv with ⟨cs, hcs⟩
    exact ⟨_, .cons rfl hcs⟩

theorem length_pool (h : Picks pool cs xs []) : pool.length = cs.length := by
  rw [h.length_eq, ← h.perm.length_eq, List.append_nil]

theorem worth_lt (h : Picks pool cs xs []) : worth cs < factorial cs.length := by
  induction cs generalizing pool xs with
  | nil => exact Nat.one_pos
  | cons c cs ih =>
    have hlength := h.length_pool
    obtain _ | @⟨_, before, after, _, _, _, x, rfl, h⟩ := h
    have hlt := ih h
    rw [List.length_append, List.length_cons, List.length_cons] at hlength
    rw [worth, Nat.add_sub_cancel, List.length_cons, factorial_succ]
    calc after.length * factorial cs.length + worth cs
      _ < (after.length + 1) * factorial cs.length := by rw [Nat.succ_mul]; omega
      _ ≤ (cs.length + 1) * factorial cs.length := Nat.mul_le_mul_right _ (by omega)

theorem worth_cons_lt {c d : Nat} (h : Picks pool cs xs []) (hlength : cs.length = ds.length)
    (hcd : c < d) : worth ((c + 1) :: cs) < worth ((d + 1) :: ds) := by
  have hlt := h.worth_lt
  rw [worth, worth, Nat.add_sub_cancel, Nat.add_sub_cancel, ← hlength]
  calc c * factorial cs.length + worth cs
    _ < (c + 1) * factorial cs.length := by rw [Nat.succ_mul]; omega
    _ ≤ d * factorial cs.length := Nat.mul_le_mul_right _ hcd
    _ ≤ d * factorial cs.length + worth ds := Nat.le_add_right _ _

theorem head_lt {before after before' after' : List Nat} {y : Nat}
    (hsorted : (before ++ x :: after).Pairwise (· < ·))
    (heq : before ++ x :: after = before' ++ y :: after') (hlt : after'.length < after.length) :
    x < y := by
  have hx : ∀ z ∈ after, x < z :=
    (List.pairwise_cons.mp (List.pairwise_append.mp hsorted).2.1).1
  apply hx
  rcases List.append_eq_append_iff.mp heq with ⟨between, -, hafter⟩ | ⟨between, -, hafter⟩
  · cases between with
    | nil =>
      obtain ⟨-, rfl⟩ := List.cons.inj hafter
      exact absurd hlt (Nat.lt_irrefl _)
    | cons z between =>
      obtain ⟨-, rfl⟩ := List.cons.inj hafter
      exact List.mem_append_right between List.mem_cons_self
  · cases between with
    | nil =>
      obtain ⟨-, rfl⟩ := List.cons.inj hafter
      exact absurd hlt (Nat.lt_irrefl _)
    | cons z between =>
      obtain ⟨-, rfl⟩ := List.cons.inj hafter
      change (between ++ x :: after).length < after.length at hlt
      rw [List.length_append, List.length_cons] at hlt
      omega

theorem pairwise_without {before after : List Nat}
    (h : (before ++ x :: after).Pairwise (· < ·)) : (before ++ after).Pairwise (· < ·) :=
  h.sublist (List.Sublist.append_left (List.sublist_cons_self x after) before)

theorem trichotomy (hsorted : pool.Pairwise (· < ·)) (h : Picks pool cs xs [])
    (h' : Picks pool ds ys []) :
    worth ds < worth cs ∧ xs < ys ∨ worth cs = worth ds ∧ xs = ys ∨
      worth cs < worth ds ∧ ys < xs := by
  -- the first counters decide, unless they are equal: then the same number has been picked
  induction cs generalizing pool ds xs ys with
  | nil =>
    have hlengths := h.length_pool.symm.trans h'.length_pool
    obtain rfl := List.eq_nil_of_length_eq_zero hlengths.symm
    obtain rfl := List.eq_nil_of_length_eq_zero h.length_eq.symm
    obtain rfl := List.eq_nil_of_length_eq_zero h'.length_eq.symm
    exact .inr (.inl ⟨rfl, rfl⟩)
  | cons c cs ih =>
    have hlengths := h.length_pool.symm.trans h'.length_pool
    obtain _ | @⟨_, before, after, _, xs, _, x, hpool, h⟩ := h
    cases h' with
    | nil => cases hlengths
    | @cons _ before' after' ds ys _ y hpool' h' =>
      have hsame := Nat.succ.inj hlengths
      subst hpool
      rcases Nat.lt_trichotomy after.length after'.length with hless | heven | hmore
      · have hhead := head_lt (hpool' ▸ hsorted) hpool'.symm hless
        exact .inr (.inr ⟨h.worth_cons_lt hsame hless, List.cons_lt_cons_iff.mpr (.inl hhead)⟩)
      · obtain ⟨rfl, hafter⟩ := List.append_inj' hpool' (congrArg (· + 1) heven)
        obtain ⟨rfl, rfl⟩ := List.cons.inj hafter
        rw [worth, worth, ← hsame, List.cons_lt_cons_iff, List.cons_lt_cons_iff]
        rcases ih (pairwise_without hsorted) h h' with ⟨hlt, hxs⟩ | ⟨heq, rfl⟩ | ⟨hgt, hys⟩
        · exact .inl ⟨Nat.add_lt_add_left hlt _, .inr ⟨rfl, hxs⟩⟩
        · exact .inr (.inl ⟨congrArg _ heq, rfl⟩)
        · exact .inr (.inr ⟨Nat.add_lt_add_left hgt _, .inr ⟨rfl, hys⟩⟩)
      · have hhead := head_lt hsorted hpool' hmore
        exact .inl ⟨h'.worth_cons_lt hsame.symm hmore, List.cons_lt_cons_iff.mpr (.inl hhead)⟩

end Picks

theorem rotateFrom_append (pre ys : List Nat) (x : Nat) :
    rotateFrom pre.length (pre ++ x :: ys) = pre ++ (ys ++ [x]) := by
  rw [rotateFrom, List.drop_left]
  dsimp only
  rw [List.take_left, List.append_assoc]

theorem exchange_append (pre before after : List Nat) (x y : Nat) :
    exchange pre.length (pre.length + (before.length + 1)) (pre ++ x :: (before ++ y :: after)) =
      pre ++ y :: (before ++ x :: after) := by
  have hx : (pre ++ x :: (before ++ y :: after))[pre.length]? = some x := by simp
  have hy : (pre ++ x :: (before ++ y :: after))[pre.length + (before.length + 1)]? = some y := by
    rw [List.getElem?_append_right (Nat.le_add_right _ _), Nat.add_sub_cancel_left,
      List.getElem?_cons_succ, List.getElem?_append_right (Nat.le_refl _), Nat.sub_self]
    rfl
  simp only [exchange, hx, hy]
  rw [List.set_append_right _ _ (Nat.le_refl _), Nat.sub_self, List.set_cons_zero,
    List.set_append_right _ _ (Nat.le_add_right _ _), Nat.add_sub_cancel_left, List.set_cons_succ,
    List.set_append_right _ _ (Nat.le_refl _), Nat.sub_self, List.set_cons_zero]

/-- The step that looks first: it comes to nothing if a counter is missing or stands at zero, or if a
place that is rotated from or exchanged is not there. -/
def advanceChecked : (places : Nat) → Arrangement → Option (Option Arrangement)
  | 0, _ => some none
  | place + 1, ⟨indices, cycles⟩ =>
    match cycles[place]? with
    | some (left + 1) =>
      if left = 0 then
        if place < indices.length then
          advanceChecked place ⟨rotateFrom place indices, cycles.set place (indices.length - place)⟩
        else none
      else if place < indices.length ∧ left ≤ indices.length ∧ indices.length - left < indices.length
      then some (some ⟨exchange place (indices.length - left) indices, cycles.set place left⟩)
      else none
    | _ => none

section

variable {pre cpre : List Nat} (hlength : cpre.length = pre.length) (x : Nat) (cs : List Nat)

include hlength

theorem advance_of_spent (mid : List Nat) :
    advance (pre.length + 1) ⟨pre ++ x :: mid, cpre ++ 1 :: cs⟩ =
        advance pre.length ⟨pre ++ (mid ++ [x]), cpre ++ (mid.length + 1) :: cs⟩ ∧
      advanceChecked (pre.length + 1) ⟨pre ++ x :: mid, cpre ++ 1 :: cs⟩ =
        advanceChecked pre.length ⟨pre ++ (mid ++ [x]), cpre ++ (mid.length + 1) :: cs⟩ := by
  have hat : (cpre ++ 1 :: cs)[pre.length]? = some 1 := by simp [← hlength]
  have hset (d : Nat) : (cpre ++ 1 :: cs).set pre.length d = cpre ++ d :: cs := by
    rw [← hlength, List.set_append_right _ _ (Nat.le_refl _), Nat.sub_self, List.set_cons_zero]
  have hn : (pre ++ x :: mid).length - pre.length = mid.length + 1 := by simp
  constructor
  · rw [advance, List.getD_eq_getElem?_getD, hat, Option.getD_some, hset, hn, rotateFrom_append]
    rfl
  · rw [advanceChecked, hat]
    dsimp only
    rw [if_pos rfl, if_pos (by omega), hset, hn, rotateFrom_append]

theorem advance_of_left (before after : List Nat) (y : Nat) :
    advance (pre.length + 1)
        ⟨pre ++ x :: (before ++ y :: after), cpre ++ (after.length + 2) :: cs⟩ =
        some ⟨pre ++ y :: (before ++ x :: after), cpre ++ (after.length + 1) :: cs⟩ ∧
      advanceChecked (pre.length + 1)
        ⟨pre ++ x :: (before ++ y :: after), cpre ++ (after.length + 2) :: cs⟩ =
        some (some ⟨pre ++ y :: (before ++ x :: after), cpre ++ (after.length + 1) :: cs⟩) := by
  have hat : (cpre ++ (after.length + 2) :: cs)[pre.length]? = some (after.length + 2) := by
    simp [← hlength]
  have hset : (cpre ++ (after.length + 2) :: cs).set pre.length (after.length + 1) =
      cpre ++ (after.length + 1) :: cs := by
    rw [← hlength, List.set_append_right _ _ (Nat.le_refl _), Nat.sub_self, List.set_cons_zero]
  have hn : (pre ++ x :: (before ++ y :: after)).length - (after.length + 1) =
      pre.length + (before.length + 1) := by
    simp only [List.length_append, List.length_cons]
    omega
  constructor
  · rw [advance, List.getD_eq_getElem?_getD, hat, Option.getD_some,
      show after.length + 2 - 1 = after.length + 1 from rfl, if_neg (Nat.succ_ne_zero _), hset, hn,
      exchange_append]
  · rw [advanceChecked, hat]
    dsimp only
    rw [if_neg (Nat.succ_ne_zero _), if_pos (by omega), hset, hn, exchange_append]

end

/-- From a place on the numbers stand in the order of what is left of the pool. Then the check finds
nothing, and what comes of the step is picked from the pool as well. -/
theorem advance_picks {pool pre cpre mid : List Nat} (h : Picks pool cpre pre mid) :
    advanceChecked pre.length ⟨pre ++ mid, cpre ++ starts mid.length⟩ =
        some (advance pre.length ⟨pre ++ mid, cpre ++ starts mid.length⟩) ∧
      ∀ a, advance pre.length ⟨pre ++ mid, cpre ++ starts mid.length⟩ = some a →
        Picks pool a.cycles a.indices [] := by
  -- from the last place back, as `advance` goes
  induction pre using List.reverseRecOn generalizing cpre mid with
  | nil => exact ⟨rfl, nofun⟩
  | append_singleton pre x ih =>
    rcases List.eq_nil_or_concat' cpre with rfl | ⟨cpre, c, rfl⟩
    · cases h.length_eq.trans List.length_append
    have hlength : cpre.length = pre.length := by simpa using h.length_eq
    obtain ⟨before, after, hpre, rfl, rfl⟩ := h.last hlength
    rw [List.length_append, List.length_singleton, List.append_assoc, List.append_assoc]
    cases after with
    | nil =>
      obtain ⟨hadvance, hchecked⟩ := advance_of_spent hlength x (starts before.length) before
      have hstarts : (before.length + 1) :: starts before.length = starts (before ++ [x]).length := by
        rw [← starts_succ, List.length_append, List.length_singleton]
      rw [hstarts] at hadvance hchecked
      rw [List.append_nil]
      change advanceChecked (pre.length + 1) ⟨pre ++ x :: before, cpre ++ 1 :: starts before.length⟩ =
          some (advance (pre.length + 1) ⟨pre ++ x :: before, cpre ++ 1 :: starts before.length⟩) ∧
        ∀ a, advance (pre.length + 1) ⟨pre ++ x :: before, cpre ++ 1 :: starts before.length⟩ =
          some a → _
      rw [hadvance, hchecked]
      exact ih hpre
    | cons y after =>
      obtain ⟨hadvance, hchecked⟩ :=
        advance_of_left hlength x (starts (before ++ y :: after).length) before after y
      refine ⟨hchecked.trans (congrArg some hadvance.symm), fun a ha => ?_⟩
      obtain rfl := Option.some.inj (hadvance.symm.trans ha)
      have hrest := picks_starts (before ++ x :: after)
      rw [show (before ++ x :: after).length = (before ++ y :: after).length by simp] at hrest
      have hpool : before ++ x :: y :: after = (before ++ [x]) ++ y :: after := by simp
      exact hpre.append (.cons hpool (by simpa using hrest))

theorem picks_first (n : Nat) : Picks (List.range n) (first n).cycles (first n).indices [] := by
  have h := picks_starts (List.range n)
  rwa [List.length_range] at h

end Arrangement

namespace Permutations

open Arrangement (Picks worth)

def nextChecked : Permutations → Option (Option (List Nat) × Permutations)
  | ⟨none⟩ => some (none, ⟨none⟩)
  | ⟨some a⟩ => (a.advanceChecked a.indices.length).map fun a' => (some a.indices, ⟨a'⟩)

def nextsChecked : (k : Nat) → Permutations → Option (List (Option (List Nat)))
  | 0, _ => some []
  | k + 1, p => do
    let (item, p) ← p.nextChecked
    let items ← nextsChecked k p
    pure (item :: items)

/-- The numbers below `n`, picked one after another as the counters say. -/
def Picked (n : Nat) (p : Permutations) : Prop :=
  ∀ a, p.upcoming = some a → Picks (List.range n) a.cycles a.indices []

variable {n : Nat} {p : Permutations}

theorem picked_ofLength (n : Nat) : (ofLength n).Picked n :=
  fun _ h => Option.some.inj h ▸ Arrangement.picks_first n

theorem picked_next (h : p.Picked n) : p.next.2.Picked n ∧ p.nextChecked = some p.next := by
  obtain ⟨upcoming⟩ := p
  cases upcoming with
  | none => exact ⟨h, rfl⟩
  | some a =>
    have hadvance := Arrangement.advance_picks (h a rfl)
    simp only [List.append_nil, List.length_nil, Arrangement.starts, List.range_zero,
      List.map_nil] at hadvance
    refine ⟨hadvance.2, ?_⟩
    rw [nextChecked, hadvance.1]
    rfl

/-- No counter goes below zero, and no place is out of bounds, however often it is asked. -/
theorem nextsChecked_eq (h : p.Picked n) (k : Nat) :
    p.nextsChecked k = some (nexts next k p) := by
  induction k generalizing p with
  | zero => rfl
  | succ k ih =>
    obtain ⟨hpicked, hchecked⟩ := picked_next h
    rw [nextsChecked, hchecked]
    change (p.next.2.nextsChecked k).bind (fun items => some (p.next.1 :: items)) = _
    rw [ih hpicked]
    rfl

theorem exists_next {r : Nat} (hvalid : p.Valid) (hpicked : p.Picked n) (hleft : p.left = r + 1) :
    ∃ is p', p.next = (some is, p') ∧ (∃ cs, Picks (List.range n) cs is [] ∧ worth cs = r) ∧
      p'.Valid ∧ p'.Picked n ∧ p'.left = r := by
  have hnext := left_next hvalid
  have hpicked' := (picked_next hpicked).1
  obtain ⟨upcoming⟩ := p
  cases upcoming with
  | none => cases hleft
  | some a =>
    rw [hleft] at hnext
    exact ⟨a.indices, _, rfl, ⟨a.cycles, hpicked a rfl, Nat.succ.inj hleft⟩, hnext.1, hpicked',
      Nat.succ.inj hnext.2⟩

theorem next_of_left_eq_zero (h : p.left = 0) : p.next = (none, p) := by
  obtain ⟨upcoming⟩ := p
  cases upcoming with
  | none => rfl
  | some a => cases h

theorem exists_orderings (n : Nat) :
    ∃ orderings, Lists next (ofLength n) orderings ∧ orderings.length = factorial n ∧
      orderings.Pairwise (· < ·) ∧ ∀ is, is ∈ orderings ↔ is.Perm (List.range n) := by
  let State (r : Nat) (p : Permutations) : Prop := p.Valid ∧ p.Picked n ∧ p.left = r
  let FromEnd (r : Nat) (is : List Nat) : Prop := ∃ cs, Picks (List.range n) cs is [] ∧ worth cs = r
  have hend (p : Permutations) (h : State 0 p) : p.next = (none, p) := next_of_left_eq_zero h.2.2
  have hstep (r : Nat) (p : Permutations) (h : State (r + 1) p) :
      ∃ is p', p.next = (some is, p') ∧ FromEnd r is ∧ State r p' := exists_next h.1 h.2.1 h.2.2
  have horder (r r' : Nat) (is js : List Nat) (h : FromEnd r is) (h' : FromEnd r' js) :
      r' < r ∧ is < js ∨ r = r' ∧ is = js ∨ r < r' ∧ js < is := by
    rcases h with ⟨cs, hcs, rfl⟩
    rcases h' with ⟨ds, hds, rfl⟩
    exact hcs.trichotomy List.pairwise_lt_range hds
  rcases exists_listing State FromEnd hend hstep horder
    ⟨valid_ofLength n, picked_ofLength n, left_ofLength n⟩ with
    ⟨orderings, hlists, hlength, hpairwise, hmem⟩
  refine ⟨orderings, hlists, hlength, hpairwise, fun is => (hmem is).trans ?_⟩
  constructor
  · rintro ⟨r, -, cs, hcs, -⟩
    have h := hcs.perm
    rwa [List.append_nil] at h
  · intro h
    obtain ⟨cs, hcs⟩ := Picks.exists_of_perm h
    have hlength := hcs.length_pool
    rw [List.length_range] at hlength
    exact ⟨worth cs, hlength ▸ hcs.worth_lt, cs, hcs, rfl⟩

theorem choose_perm {items : List Scalar} {is : List Nat} (h : is.Perm (List.range items.length)) :
    is.map (items[·]?) = (Generator.choose items is).map some := by
  have hlt : ∀ i ∈ is, i < items.length := fun i hi => List.mem_range.mp (h.subset hi)
  clear h
  induction is with
  | nil => rfl
  | cons i is ih =>
    obtain ⟨hi, his⟩ := List.forall_mem_cons.mp hlt
    have hget := List.getElem?_eq_getElem hi
    rw [Generator.choose, List.filterMap_cons_some hget, List.map_cons, List.map_cons, hget, ih his]
    rfl

/-- For any length all orderings are given, each once, in strictly increasing lexicographic order,
and then nothing, with no counter below zero and no place out of bounds; something is made of the
items in each of these orders, up to the first failure. -/
theorem permutations_give_orderings :
    ∃ orderings : Nat → List (List Nat),
      (∀ n, (∀ is, is ∈ orderings n ↔ is.Perm (List.range n)) ∧ (orderings n).Pairwise (· < ·) ∧
        (orderings n).length = factorial n ∧
        ∀ k, nexts next k (ofLength n) = (List.range k).map ((orderings n)[·]?) ∧
          (ofLength n).nextsChecked k = some (nexts next k (ofLength n))) ∧
      ∀ (items : List Scalar) (assemble : Assembly),
        (Draft.permutations items assemble).Gives (untilFailure ((orderings items.length).map
          fun is => assemble (Generator.choose items is))) ∧
        ∀ is ∈ orderings items.length, is.map (items[·]?) = (Generator.choose items is).map some := by
  choose orderings hlists hlength hpairwise hmem using exists_orderings
  refine ⟨orderings, fun n => ?_, fun items assemble => ?_⟩
  · refine ⟨hmem n, hpairwise n, hlength n, fun k => ⟨(hlists n).nexts_eq k, ?_⟩⟩
    exact nextsChecked_eq (picked_ofLength n) k
  · constructor
    · apply Draft.gives_of_generator
      exact Generator.gives_of_lists (.permutations · items assemble) _ (fun _ => rfl) (hlists _)
    · intro is his
      exact choose_perm ((hmem _ is).mp his)

end Permutations

end LazyCalc
