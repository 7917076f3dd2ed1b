import LazyCalc.Proofs.Engine.Related
import LazyCalc.Proofs.Fanout.Copies
namespace LazyCalc

open Engine (Keeps)

def Store.Sources (i : Nat) (source : Linked.Source) (st : Store) : Prop :=
  ∃ shared, st.Shows i (.held shared) ∧ shared.source = source

/-- Copying leaves a sequence as it is, or makes it a branch, with its labels in the fan-out. A
source that it had to itself is then at a place that `P` says. -/
inductive Sequence.Becomes (P : Nat → Linked.Source → Prop) :
    Linked.Sequence → Linked.Sequence → Prop
  | same (s : Linked.Sequence) : Becomes P s s
  | branch (place : Branch) (hint : Hint) (finished : Bool) (hooks : List String) :
    Becomes P ⟨.branch place, hint, finished, hooks⟩ ⟨.branch place, hint, finished, []⟩
  | direct {source : Linked.Source} {i : Nat} (h : P i source) (slot : Nat) (hint : Hint)
    (finished : Bool) (hooks : List String) :
    Becomes P ⟨.direct source, hint, finished, hooks⟩ ⟨.branch ⟨i, slot⟩, hint, finished, []⟩

namespace Tree

def Becomes (P : Nat → Linked.Source → Prop) : Linked.Value → Linked.Value → Prop :=
  Rel (Sequence.Becomes P)

def BecomesList (P : Nat → Linked.Source → Prop) : List Linked.Value → List Linked.Value → Prop :=
  RelList (Sequence.Becomes P)

end Tree

def Item.Becomes (P : Nat → Linked.Source → Prop) : Linked.Item → Linked.Item → Prop
  | .error e, .error e' => e = e'
  | .ok v, .ok w => v.Becomes P w
  | _, _ => False

section

variable {P Q : Nat → Linked.Source → Prop}

theorem Sequence.Becomes.mono (hPQ : ∀ i source, P i source → Q i source) {s t : Linked.Sequence}
    (h : s.Becomes P t) : s.Becomes Q t := by
  cases h with
  | same => exact .same s
  | branch place hint finished hooks => exact .branch place hint finished hooks
  | direct h slot hint finished hooks => exact .direct (hPQ _ _ h) slot hint finished hooks

theorem Sequence.Becomes.trans {s t u : Linked.Sequence} (h : s.Becomes P t) (h' : t.Becomes P u) :
    s.Becomes P u := by
  cases h with
  | same => exact h'
  | branch place hint finished hooks =>
    cases h' <;> exact .branch place hint finished hooks
  | direct h slot hint finished hooks =>
    cases h' <;> exact .direct h slot hint finished hooks

theorem Item.Becomes.mono (hPQ : ∀ i source, P i source → Q i source) {x y : Linked.Item}
    (h : x.Becomes P y) : x.Becomes Q y := by
  cases x with
  | error e => cases y <;> exact h
  | ok v =>
    cases y with
    | error e => exact h
    | ok w => exact Tree.Rel.mono (fun _ _ => Sequence.Becomes.mono hPQ) h

theorem Item.becomes_self (x : Linked.Item) : x.Becomes P x := by
  cases x with
  | error e => rfl
  | ok v => exact Tree.rel_refl .same v

theorem Item.Becomes.trans {x y z : Linked.Item} (h : x.Becomes P y) (h' : y.Becomes P z) :
    x.Becomes P z := by
  cases x with
  | error e =>
    cases y with
    | error e' => exact Eq.symm h ▸ h'
    | ok w => exact h.elim
  | ok v =>
    cases y with
    | error e' => exact h.elim
    | ok w =>
      cases z with
      | error e' => exact h'
      | ok u =>
        exact Tree.Rel.trans (R := Sequence.Becomes P) (fun _ _ _ => Sequence.Becomes.trans) h h'

end

/-! A fork asks no source, neither the one that it puts into a fan-out nor any that is in one. -/

namespace Store.Sources

variable {i : Nat} {source : Linked.Source} {st : Store}

theorem setFanout_ne (h : st.Sources i source) {j : Nat} (hj : j ≠ i) (place : Place Shared) :
    (st.setFanout j place).Sources i source := by
  obtain ⟨shared, hi, rfl⟩ := h
  exact ⟨shared, hi.setFanout hj, rfl⟩

theorem addFanout (h : st.Sources i source) (shared : Shared) :
    (st.addFanout shared).2.Sources i source := by
  obtain ⟨shared', hi, rfl⟩ := h
  exact ⟨shared', hi.addFanout shared, rfl⟩

theorem of_addFanout (st : Store) (shared : Shared) :
    (st.addFanout shared).2.Sources st.fanouts.size shared.source := by
  refine ⟨shared, ?_, rfl⟩
  rw [Shows, getElem?_addFanout, if_pos rfl]

theorem keeps_forkWithin (i : Nat) (source : Linked.Source) (depth : Nat) (s : Linked.Sequence) :
    Keeps (Sources i source) (Sequence.forkWithin depth s) := by
  induction depth generalizing s with
  | zero => exact .fault .outOfFuel
  | succ depth ih =>
    intro st r st' h hr
    obtain ⟨origin, hint, finished, hooks⟩ := s
    cases origin with
    | direct source' =>
      obtain ⟨_, st₁, hmade, hr⟩ := Engine.of_bind_ok hr
      obtain rfl : _ = st₁ := congrArg Prod.snd (Except.ok.inj hmade)
      cases hr
      exact h.addFanout _
    | branch place =>
      obtain ⟨j, slot⟩ := place
      obtain ⟨shared, st₁, hlend, hr⟩ := Engine.of_bind_ok hr
      obtain ⟨hj, rfl⟩ := of_lendFanout hlend
      obtain ⟨⟨own, seed⟩, st₂, hcopy, hr⟩ := Engine.of_bind_ok hr
      by_cases hij : j = i
      · -- the fan-out is lent while the backlog is copied, and comes back with its source
        subst hij
        obtain ⟨shared', hj', rfl⟩ := h
        cases hj.symm.trans hj'
        have hlent : (st.setFanout j .lent).Shows j .lent := Shows.of_set hj
        have hlent₂ := Item.keeps_copyListWith (keeps_forkWithin_shows lent_ne_held depth) _ _ _ _
          hlent hcopy
        cases hr
        exact ⟨_, hlent₂.of_set, rfl⟩
      · have h₂ := Item.keeps_copyListWith ih _ _ _ _ (h.setFanout_ne hij .lent) hcopy
        cases hr
        exact h₂.setFanout_ne hij _

theorem keeps_fork (i : Nat) (source : Linked.Source) (s : Linked.Sequence) :
    Keeps (Sources i source) s.fork :=
  fun st => keeps_forkWithin i source _ s st

end Store.Sources

section

variable {st st' : Store}

theorem Sequence.becomes_fork {s : Linked.Sequence} {r : Linked.Sequence × Linked.Sequence}
    (h : s.fork st = .ok (r, st')) :
    s.Becomes (fun i source => st'.Sources i source) r.1 := by
  obtain ⟨origin, hint, finished, hooks⟩ := s
  cases origin with
  | direct source =>
    obtain ⟨i, st₁, hadd, h⟩ := Engine.of_bind_ok h
    cases hadd
    cases h
    exact .direct (.of_addFanout st _) 0 hint finished hooks
  | branch place =>
    obtain ⟨_, _, -, h⟩ := Engine.of_bind_ok h
    obtain ⟨_, _, -, h⟩ := Engine.of_bind_ok h
    cases h
    exact .branch place hint finished hooks

mutual

theorem Tree.becomes_copyWith {st st' : Store} {v : Linked.Value} {r : Linked.Value × Linked.Value}
    (h : v.copyWith Sequence.fork st = .ok (r, st')) :
    v.Becomes (fun i source => st'.Sources i source) r.1 := by
  cases v with
  | scalar x =>
    cases h
    rfl
  | list vs =>
    obtain ⟨rs, _, hrs, h⟩ := Engine.of_bind_ok h
    cases h
    exact Tree.becomesList_copyListWith hrs
  | sequence s =>
    obtain ⟨rs, _, hrs, h⟩ := Engine.of_bind_ok h
    cases h
    exact Sequence.becomes_fork hrs

theorem Tree.becomesList_copyListWith {st st' : Store} {vs : List Linked.Value}
    {rs : List Linked.Value × List Linked.Value}
    (h : Tree.copyListWith Sequence.fork vs st = .ok (rs, st')) :
    Tree.BecomesList (fun i source => st'.Sources i source) vs rs.1 := by
  cases vs with
  | nil =>
    cases h
    trivial
  | cons v vs =>
    obtain ⟨r, st₁, hv, h⟩ := Engine.of_bind_ok h
    obtain ⟨rs, st₂, hvs, h⟩ := Engine.of_bind_ok h
    cases h
    refine ⟨Tree.Rel.mono (fun _ _ => Sequence.Becomes.mono fun i source hi => ?_)
      (Tree.becomes_copyWith hv), Tree.becomesList_copyListWith hvs⟩
    exact Tree.keeps_copyListWith (Store.Sources.keeps_fork i source) vs _ _ _ hi hvs

end

theorem Item.becomes_copyWith {x : Linked.Item} {r : Linked.Item × Linked.Item}
    (h : copyWith Sequence.fork x st = .ok (r, st')) :
    x.Becomes (fun i source => st'.Sources i source) r.1 := by
  cases x with
  | error e =>
    cases h
    rfl
  | ok v =>
    obtain ⟨rs, _, hrs, h⟩ := Engine.of_bind_ok h
    cases h
    exact Tree.becomes_copyWith hrs

theorem Fanout.becomes_deliver {puller k : Nat} {x x' : Linked.Item}
    {slots slots' : List (Option (Slot Linked.Item))} {lags : List Lag}
    (h : deliver (Item.copyWith Sequence.fork) puller x k slots st = .ok ((x', slots', lags), st')) :
    x.Becomes (fun i source => st'.Sources i source) x' := by
  induction slots generalizing k x slots' lags st with
  | nil =>
    cases h
    exact Item.becomes_self _
  | cons t slots ih =>
    cases t with
    | none =>
      obtain ⟨⟨x₁, slots₁, lags₁⟩, st₁, hrest, h⟩ := Engine.of_bind_ok h
      cases h
      exact ih hrest
    | some s =>
      rw [deliver] at h
      by_cases hk : k = puller
      · rw [if_pos hk] at h
        obtain ⟨⟨x₁, slots₁, lags₁⟩, st₁, hrest, h⟩ := Engine.of_bind_ok h
        cases h
        exact ih hrest
      · rw [if_neg hk] at h
        obtain ⟨⟨x₁, other⟩, st₁, hcopy, h⟩ := Engine.of_bind_ok h
        obtain ⟨⟨x₂, slots₂, lags₂⟩, st₂, hrest, h⟩ := Engine.of_bind_ok h
        cases h
        refine (Item.becomes_copyWith hcopy).mono (fun i source hi => ?_) |>.trans (ih hrest)
        exact keeps_deliver (Item.keeps_copyWith (Store.Sources.keeps_fork i source)) _ _ _ _ _ _ _
          hi hrest

end

end LazyCalc
