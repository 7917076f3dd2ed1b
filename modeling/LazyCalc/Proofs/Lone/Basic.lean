import LazyCalc.Proofs.Coupling.Call
import Mathlib.Order.Filter.AtTopBot.Basic
/-!
Sequences that share nothing: a fork is the sequence twice, what is kept for delayed calls is the
collection itself, and nothing is ever dropped. What a calculation gives here is what it would give
if every sequence in it were alone.
-/

namespace LazyCalc

/-- What is known of a kept collection: all of it. -/
inductive Snapshot where
  | of (collection : Collection (Sequence Empty Snapshot))

namespace Lone

abbrev Sequence := LazyCalc.Sequence Empty Snapshot

abbrev Source := LazyCalc.Source Sequence Snapshot

abbrev Value := LazyCalc.Value Empty Snapshot

abbrev Item := LazyCalc.Item Empty Snapshot

abbrev Collection := LazyCalc.Collection Sequence

abbrev Drive := LazyCalc.Drive Option Empty Snapshot

end Lone

namespace Snapshot

def collection : Snapshot → Lone.Collection
  | of c => c

end Snapshot

/-- Sequences that share nothing, with what is done about a spent fuel and about notes. -/
def Drive.unshared {m : Type → Type} [Monad m] (stuck : {α : Type} → m α)
    (note : List String → m Unit) (fuel : Nat)
    (pull : Lone.Sequence → m (Option Lone.Item × Lone.Sequence)) :
    Drive m Empty Snapshot where
  fuel
  stuck
  pull
  fork s := pure (s, s)
  drop _ := pure ()
  note
  keep c := pure (.of c)
  read k := pure k.collection
  retain _ := pure ()
  dismiss _ := pure ()

def Drive.lone (fuel : Nat)
    (pull : Lone.Sequence → Option (Option Lone.Item × Lone.Sequence)) : Lone.Drive :=
  .unshared none (fun _ => pure ()) fuel pull

def Sequence.pullAlone : (fuel : Nat) → Lone.Sequence →
    Option (Option Lone.Item × Lone.Sequence)
  | 0, _ => none
  | fuel + 1, s => s.step (Drive.lone fuel (pullAlone fuel)) Empty.elim

def Drive.alone (fuel : Nat) : Lone.Drive := .lone fuel (Sequence.pullAlone fuel)

section

variable {m : Type → Type} [Monad m] [LawfulMonad m] {σ : Type} {fork : σ → m (σ × σ)}

mutual

theorem Tree.copyWith_twice (hfork : ∀ s, fork s = pure (s, s)) (t : Tree σ) :
    t.copyWith fork = pure (t, t) := by
  cases t with
  | scalar x => rw [copyWith]
  | list ts => rw [copyWith, copyListWith_twice hfork ts, pure_bind]
  | sequence s => rw [copyWith, hfork, pure_bind]

theorem Tree.copyListWith_twice (hfork : ∀ s, fork s = pure (s, s)) (ts : List (Tree σ)) :
    copyListWith fork ts = pure (ts, ts) := by
  cases ts with
  | nil => rw [copyListWith]
  | cons t ts =>
    simp only [copyListWith, copyWith_twice hfork t, copyListWith_twice hfork ts, pure_bind]

end

theorem Collection.copyWith_twice (hfork : ∀ s, fork s = pure (s, s)) (c : Collection σ) :
    c.copyWith fork = pure (c, c) := by
  cases c with
  | list items => rw [copyWith, Tree.copyListWith_twice hfork, pure_bind]
  | sequence s => rw [copyWith, hfork, pure_bind]

end

namespace Item

variable {m : Type → Type} [Monad m] [LawfulMonad m] {ρ κ : Type}
  {fork : Sequence ρ κ → m (Sequence ρ κ × Sequence ρ κ)} (hfork : ∀ s, fork s = pure (s, s))

include hfork

theorem copyWith_twice (x : Item ρ κ) : copyWith fork x = pure (x, x) := by
  cases x with
  | error e => rw [copyWith]
  | ok v => rw [copyWith, Tree.copyWith_twice hfork, pure_bind]

theorem copyListWith_twice (xs : List (Item ρ κ)) : copyListWith fork xs = pure (xs, xs) := by
  induction xs with
  | nil => rw [copyListWith_nil]
  | cons x xs ih =>
    simp only [copyListWith_cons, copyWith_twice hfork, ih, pure_bind]

end Item

theorem Drive.copy_alone (n : Nat) (v : Lone.Value) : (Drive.alone n).copy v = some (v, v) :=
  Tree.copyWith_twice (fun _ => rfl) v

open Filter

/-- With enough fuel it is `b` that comes out. -/
def Settles {β : Type} (Y : Nat → Option β) (b : β) : Prop := ∀ᶠ n in atTop, Y n = some b

namespace Settles

variable {α β : Type} {X : Nat → Option α} {Y Y' : Nat → Option β} {a : α} {b b' : β}

theorem const (b : β) : Settles (fun _ => some b) b := Eventually.of_forall fun _ => rfl

theorem unique (h : Settles Y b) (h' : Settles Y b') : b = b' := by
  obtain ⟨n, hn, hn'⟩ := (Eventually.and h h').exists
  exact Option.some.inj (hn.symm.trans hn')

theorem congr (h : Settles Y b) (he : ∀ᶠ n in atTop, Y n = Y' n) : Settles Y' b := by
  filter_upwards [h, he] with n hn hen
  rw [← hen, hn]

theorem bind {f : Nat → α → Option β} (hX : Settles X a) (hf : Settles (fun n => f n a) b) :
    Settles (fun n => X n >>= f n) b := by
  filter_upwards [hX, hf] with n hn hfn
  rw [hn]
  exact hfn

theorem shift (h : Settles Y b) : Settles (fun n => Y (n - 1)) b :=
  (tendsto_sub_atTop_nat 1).eventually h

theorem succ (h : Settles (fun n => Y (n + 1)) b) : Settles Y b := by
  refine h.shift.congr ?_
  filter_upwards [eventually_ge_atTop 1] with n hn
  rw [Nat.sub_add_cancel hn]

end Settles

/-- A loop couples if one turn of it does, where what is said of the two sides hangs on fuel `n` and
on enough fuel only. -/
theorem loop_of_turn {m₁ m₂ : Type → Type} {ι I₁ I₂ α β : Type} [Paired ι I₁ I₂] (n : Nat)
    {T : ι → (Nat → m₁ α) → (Nat → m₂ β) → Prop} {f : Nat → Nat → I₁ → m₁ α}
    {F : Nat → (I₁ → m₁ α) → I₁ → m₁ α} {g : Nat → Nat → I₂ → m₂ β}
    {G : Nat → (I₂ → m₂ β) → I₂ → m₂ β}
    (hT : ∀ i X X' Y Y', (∀ᶠ m in atTop, X m = X' m ∧ Y m = Y' m) → X n = X' n → Y n = Y' n →
      T i X Y → T i X' Y')
    (hzero : ∀ i X Y, X n = f n 0 (left i) → Y n = g n 0 (right i) → T i X Y)
    (hf : ∀ n k i, f n (k + 1) i = F n (f n k) i) (hg : ∀ n k i, g n (k + 1) i = G n (g n k) i)
    (hturn : ∀ (f' : Nat → I₁ → m₁ α) (g' : Nat → I₂ → m₂ β),
      (∀ i : ι, T i (fun n => f' n (left i)) fun n => g' n (right i)) →
      ∀ i : ι, T i (fun n => F n (f' n) (left i)) fun n => G n (g' n) (right i))
    (i : ι) : T i (fun m => f m m (left i)) fun m => g m m (right i) := by
  -- with fuel `n`, a loop that has `k` turns left has spent `n - k`
  have hspent (k : Nat) (hk : k ≤ n) (i : ι) :
      T i (fun m => f m (m - (n - k)) (left i)) fun m => g m (m - (n - k)) (right i) := by
    induction k generalizing i with
    | zero => exact hzero i _ _ (by rw [Nat.sub_zero, Nat.sub_self]) (by rw [Nat.sub_zero, Nat.sub_self])
    | succ k ih =>
      have hsucc {m : Nat} (hm : n - k ≤ m) : m - (n - (k + 1)) = m - (n - k) + 1 := by omega
      refine hT i _ _ _ _ ?_ ?_ ?_ (hturn _ _ (ih (by omega)) i)
      · filter_upwards [eventually_ge_atTop (n - k)] with m hm
        rw [hsucc hm, hf, hg]
        exact ⟨rfl, rfl⟩
      · rw [hsucc (Nat.sub_le n k), hf]
      · rw [hsucc (Nat.sub_le n k), hg]
  have := hspent n (le_refl n) i
  rwa [Nat.sub_self] at this

end LazyCalc
