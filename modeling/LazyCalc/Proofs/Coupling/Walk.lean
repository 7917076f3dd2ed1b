import LazyCalc.Proofs.Coupling.Basic
namespace LazyCalc

namespace Item

variable {m : Type → Type} [Monad m] [LawfulMonad m] {ρ κ : Type}
  (fork : Sequence ρ κ → m (Sequence ρ κ × Sequence ρ κ))

theorem copyListWith_nil : copyListWith fork [] = pure ([], []) := by
  simp [copyListWith]

theorem copyListWith_cons (x : Item ρ κ) (xs : List (Item ρ κ)) :
    copyListWith fork (x :: xs) = (do
      let (x, y) ← copyWith fork x
      let (xs, ys) ← copyListWith fork xs
      pure (x :: xs, y :: ys)) := by
  simp [copyListWith]

end Item

def Drive.walkTurn {m : Type → Type} [Monad m] {ρ κ β γ : Type} (d : Drive m ρ κ)
    (visit : β → Item ρ κ → m (Flow β γ))
    (walk : β × Sequence ρ κ → m (Flow β γ × Sequence ρ κ)) (i : β × Sequence ρ κ) :
    m (Flow β γ × Sequence ρ κ) := do
  match ← d.pull i.2 with
  | (none, s) => pure (.onward i.1, s)
  | (some item, s) =>
    match ← visit i.1 item with
    | .onward state => walk (state, s)
    | .halt result => pure (.halt result, s)

namespace Logic

variable {m₁ m₂ : Type → Type} [Monad m₁] [Monad m₂] {σ κ σ₁ σ₂ : Type} [Paired σ σ₁ σ₂]
  (L : Logic m₁ m₂ σ κ) {f : Nat → σ₁ → m₁ (σ₁ × σ₁)} {g : Nat → σ₂ → m₂ (σ₂ × σ₂)}

mutual

theorem copyWith (hfork : ∀ s : σ, L.Triple (σ × σ) (parts s) (fun n => f n (left s))
    (fun n => g n (right s)) 0) (t : Tree σ) :
    L.Triple (Tree σ × Tree σ) (parts t) (fun n => Tree.copyWith (f n) (left t))
      (fun n => Tree.copyWith (g n) (right t)) 0 := by
  cases t with
  | scalar x => exact L.pure (Tree.scalar x, Tree.scalar x) (by simp)
  | list ts =>
    refine L.bind 0 (copyListWith hfork ts) (by simp) ?_
    rintro ⟨ts, us⟩
    exact L.pure (Tree.list ts, Tree.list us) (by simp)
  | sequence s =>
    refine L.bind 0 (hfork s) (by simp) ?_
    rintro ⟨s, s'⟩
    exact L.pure (Tree.sequence s, Tree.sequence s') (by simp)

theorem copyListWith (hfork : ∀ s : σ, L.Triple (σ × σ) (parts s) (fun n => f n (left s))
    (fun n => g n (right s)) 0) (ts : List (Tree σ)) :
    L.Triple (List (Tree σ) × List (Tree σ)) (parts ts)
      (fun n => Tree.copyListWith (f n) (left ts))
      (fun n => Tree.copyListWith (g n) (right ts)) 0 := by
  cases ts with
  | nil => exact L.pure (([], []) : List (Tree σ) × List (Tree σ)) (by simp)
  | cons t ts =>
    refine L.bind (parts ts) (copyWith hfork t) (by simp) ?_
    rintro ⟨t, u⟩
    refine L.bind (parts t + parts u) (copyListWith hfork ts) (by simp; abel) ?_
    rintro ⟨ts, us⟩
    exact L.pure (t :: ts, u :: us) (by simp; abel)

end

variable (hfork : ∀ s : σ, L.Triple (σ × σ) (parts s) (fun n => f n (left s))
    (fun n => g n (right s)) 0)

include hfork

theorem copyCollection (c : Collection σ) :
    L.Triple (Collection σ × Collection σ) (parts c)
      (fun n => Collection.copyWith (f n) (left c))
      (fun n => Collection.copyWith (g n) (right c)) 0 := by
  cases c with
  | list ts =>
    refine L.bind 0 (copyListWith L hfork ts) (by simp [Collection.toValue]) ?_
    rintro ⟨ts, us⟩
    exact L.pure (Collection.list ts, Collection.list us) (by simp [Collection.toValue])
  | sequence s =>
    refine L.bind 0 (hfork s) (by simp [Collection.toValue]) ?_
    rintro ⟨s, s'⟩
    exact L.pure (Collection.sequence s, Collection.sequence s') (by simp [Collection.toValue])

end Logic

namespace Logic

variable {m₁ m₂ : Type → Type} [Monad m₁] [Monad m₂] {ρ₁ κ₁ ρ₂ κ₂ σ κ : Type}
  [Paired σ (Sequence ρ₁ κ₁) (Sequence ρ₂ κ₂)] (L : Logic m₁ m₂ σ κ)
  {f : Nat → Sequence ρ₁ κ₁ → m₁ (Sequence ρ₁ κ₁ × Sequence ρ₁ κ₁)}
  {g : Nat → Sequence ρ₂ κ₂ → m₂ (Sequence ρ₂ κ₂ × Sequence ρ₂ κ₂)}
  (hfork : ∀ s : σ, L.Triple (σ × σ) (parts s) (fun n => f n (left s))
    (fun n => g n (right s)) 0)

include hfork

theorem copyItem (x : Except Failure (Tree σ)) :
    L.Triple (Except Failure (Tree σ) × Except Failure (Tree σ)) (parts x)
      (fun n => Item.copyWith (f n) (left x)) (fun n => Item.copyWith (g n) (right x)) 0 := by
  cases x with
  | error e =>
    exact L.pure ((.error e, .error e) : Except Failure (Tree σ) × Except Failure (Tree σ))
      (by simp)
  | ok v =>
    refine L.bind 0 (L.copyWith hfork v) (by simp) ?_
    rintro ⟨v, w⟩
    exact L.pure ((.ok v, .ok w) : Except Failure (Tree σ) × Except Failure (Tree σ)) (by simp)

theorem copyItems [LawfulMonad m₁] [LawfulMonad m₂] (xs : List (Except Failure (Tree σ))) :
    L.Triple (List (Except Failure (Tree σ)) × List (Except Failure (Tree σ))) (parts xs)
      (fun n => Item.copyListWith (f n) (left xs))
      (fun n => Item.copyListWith (g n) (right xs)) 0 := by
  induction xs with
  | nil =>
    simp only [left, right, List.map_nil, Item.copyListWith_nil]
    exact L.pure (([], []) : List (Except Failure (Tree σ)) × List (Except Failure (Tree σ)))
      (by simp)
  | cons x xs ih =>
    simp only [left, right, List.map_cons, Item.copyListWith_cons]
    refine L.bind (parts xs) (L.copyItem hfork x) (by simp) ?_
    rintro ⟨x, y⟩
    refine L.bind (parts x + parts y) ih (by simp; abel) ?_
    rintro ⟨xs, ys⟩
    refine L.pure ((x :: xs, y :: ys) :
      List (Except Failure (Tree σ)) × List (Except Failure (Tree σ))) ?_
    simp only [parts_pair, parts_items_cons]
    abel

end Logic

namespace Coupling

variable {m₁ m₂ : Type → Type} [Monad m₁] [Monad m₂] {ρ₁ κ₁ ρ₂ κ₂ σ κ : Type}
  [Paired σ (Sequence ρ₁ κ₁) (Sequence ρ₂ κ₂)] [Paired κ κ₁ κ₂]
  (C : Coupling m₁ m₂ ρ₁ κ₁ ρ₂ κ₂ σ κ)

theorem dropSequence (s : σ) :
    C.Triple Unit (parts s) (fun n => (C.first n).dropSequence (left s))
      (fun n => (C.second n).dropSequence (right s)) 0 :=
  C.of_eq (C.drop [Tree.sequence s]) (by simp) rfl

theorem dropItem (x : Except Failure (Tree σ)) :
    C.Triple Unit (parts x) (fun n => (C.first n).dropItem (left x))
      (fun n => (C.second n).dropItem (right x)) 0 := by
  cases x with
  | error e => exact C.pure () (by simp)
  | ok v => exact C.of_eq (C.drop [v]) (by simp) rfl

theorem settle (g : Gathered σ) :
    C.Triple (Except Failure (Tree σ)) (parts g) (fun n => (C.first n).settle (left g))
      (fun n => (C.second n).settle (right g)) 0 := by
  obtain ⟨items, failure⟩ := g
  cases failure with
  | none => exact C.pure (Except.ok (Tree.list items)) (by simp)
  | some e =>
    refine C.bind 0 (C.drop items) (by simp) fun _ => ?_
    exact C.pure (Except.error e : Except Failure (Tree σ)) (by simp)

theorem walk {ω ω₁ ω₂ ζ ζ₁ ζ₂ : Type} [Paired ω ω₁ ω₂] [Paired ζ ζ₁ ζ₂] [Parted σ κ ω]
    [Parted σ κ ζ] {v₁ : Nat → ω₁ → Item ρ₁ κ₁ → m₁ (Flow ω₁ ζ₁)}
    {v₂ : Nat → ω₂ → Item ρ₂ κ₂ → m₂ (Flow ω₂ ζ₂)} (F : Parts σ κ)
    (h : ∀ (w : ω) (x : Except Failure (Tree σ)), C.Triple (Flow ω ζ) (parts w + parts x + F)
      (fun n => v₁ n (left w) (left x)) (fun n => v₂ n (right w) (right x)) F)
    (w : ω) (s : σ) :
    C.Triple (Flow ω ζ × σ) (parts w + parts s + F)
      (fun n => (C.first n).walk (v₁ n) (left w) (left s))
      (fun n => (C.second n).walk (v₂ n) (right w) (right s)) F := by
  have hloop := C.loop (ι := ω × σ) (γ := Flow ω ζ × σ)
    (A := fun i => parts i.1 + parts i.2 + F) (B := fun _ => F)
    (f := fun n k i => (C.first n).walkFor (v₁ n) k i.1 i.2)
    (g := fun n k i => (C.second n).walkFor (v₂ n) k i.1 i.2)
    (fun n => (C.first n).walkTurn (v₁ n)) (fun n => (C.second n).walkTurn (v₂ n))
    (fun _ _ => rfl) (fun _ _ _ => rfl) (fun _ _ => rfl) (fun _ _ _ => rfl) ?_ (w, s)
  · simp only [Drive.walk, C.first_fuel, C.second_fuel]
    exact hloop
  · rintro f g ih ⟨w, s⟩
    refine C.bind (parts w + F) (C.pull s) (by abel) ?_
    rintro ⟨_ | x, s⟩
    · exact C.pure ((Flow.onward w : Flow ω ζ), s) (by simp; abel)
    · refine C.bind (parts s) (h w x) (by simp; abel) ?_
      rintro (w | z)
      · exact C.of_eq (ih (w, s)) (by simp; abel) rfl
      · exact C.pure ((Flow.halt z : Flow ω ζ), s) (by simp; abel)

theorem discard (n came : Nat) (s : σ) :
    C.Triple (Nat × σ) (parts s) (fun f => Sequence.discard (C.first f) n came (left s))
      (fun f => Sequence.discard (C.second f) n came (right s)) 0 := by
  induction n generalizing came s with
  | zero => exact C.pure (came, s) (by simp)
  | succ n ih =>
    refine C.bind 0 (C.pull s) (by simp) ?_
    rintro ⟨_ | x, s⟩
    · exact C.pure (came, s) (by simp)
    · refine C.bind (parts s) (C.dropItem x) (by simp) fun _ => ?_
      exact C.of_eq (ih (came + 1) s) (by simp) rfl

theorem gatherStep (state : Option Nat × List (Tree σ)) (x : Except Failure (Tree σ)) :
    C.Triple (Flow (Option Nat × List (Tree σ)) (Gathered σ)) (parts state + parts x + 0)
      (fun _ => Sequence.gatherStep (left state) (left x))
      (fun _ => Sequence.gatherStep (right state) (right x)) 0 := by
  obtain ⟨wanted, taken⟩ := state
  have hhalt (ts : List (Tree σ)) (e : Option Failure) :
      C.Triple (Flow (Option Nat × List (Tree σ)) (Gathered σ)) (parts ts)
        (fun _ => pure (.halt ⟨(left ts).reverse, e⟩))
        (fun _ => pure (.halt ⟨(right ts).reverse, e⟩)) 0 := by
    simp only [← left_reverse, ← right_reverse]
    exact C.pure (Flow.halt ⟨ts.reverse, e⟩ : Flow (Option Nat × List (Tree σ)) (Gathered σ))
      (by simp)
  cases x with
  | error e => cases wanted <;> exact C.of_eq (hhalt taken (some e)) (by simp) rfl
  | ok v =>
    cases wanted with
    | none =>
      exact C.pure (Flow.onward (none, v :: taken) : Flow (Option Nat × List (Tree σ)) (Gathered σ))
        (by simp; abel)
    | some wanted =>
      change C.Triple _ _ (fun _ => ite (wanted ≤ 1) _ _) (fun _ => ite (wanted ≤ 1) _ _) _
      split
      · exact C.of_eq (hhalt (v :: taken) none) (by simp; abel) rfl
      · exact C.pure (Flow.onward (some (wanted - 1), v :: taken) :
          Flow (Option Nat × List (Tree σ)) (Gathered σ)) (by simp; abel)

theorem gather (count : Option Nat) (s : σ) :
    C.Triple (Gathered σ × σ) (parts s)
      (fun n => Sequence.gather (C.first n) count (left s))
      (fun n => Sequence.gather (C.second n) count (right s)) 0 := by
  change C.Triple _ _ (fun _ => ite (count = some 0) _ _) (fun _ => ite (count = some 0) _ _) _
  split
  · exact C.pure ((⟨[], none⟩ : Gathered σ), s) (by simp)
  · have hwalk : C.Triple (Flow (Option Nat × List (Tree σ)) (Gathered σ) × σ) (parts s)
        (fun n => (C.first n).walk Sequence.gatherStep (count, []) (left s))
        (fun n => (C.second n).walk Sequence.gatherStep (count, []) (right s)) 0 := by
      cases count with
      | none => exact C.of_eq (C.walk 0 C.gatherStep (none, []) s) (by simp) rfl
      | some n => exact C.of_eq (C.walk 0 C.gatherStep (some n, []) s) (by simp) rfl
    refine C.bind 0 hwalk (by simp) ?_
    rintro ⟨⟨wanted, taken⟩ | gathered, s⟩
    · have := C.pure (A := parts taken + parts s) (B := 0) ((⟨taken.reverse, none⟩ : Gathered σ), s)
        (by simp)
      refine C.of_eq ?_ (A := parts taken + parts s) (by simp) rfl
      change C.Triple _ _ (fun _ => Pure.pure (Gathered.mk (left taken).reverse none, left s))
        (fun _ => Pure.pure (Gathered.mk (right taken).reverse none, right s)) _
      simp only [← left_reverse, ← right_reverse]
      exact this
    · exact C.pure (gathered, s) (by simp)

theorem spend (start : Nat) (count : Option Nat) (s : σ) :
    C.Triple (Except Failure (Tree σ)) (parts s)
      (fun n => Sequence.spend (C.first n) start count (left s))
      (fun n => Sequence.spend (C.second n) start count (right s)) 0 := by
  change C.Triple _ _ (fun _ => ite (count = some 0) _ _) (fun _ => ite (count = some 0) _ _) _
  split
  · refine C.bind 0 (C.dropSequence s) (by simp) fun _ => ?_
    exact C.pure (Except.ok (Tree.list []) : Except Failure (Tree σ)) (by simp)
  · refine C.bind 0 (C.discard start 0 s) (by simp) ?_
    rintro ⟨came, s⟩
    refine C.bind 0 (C.gather count s) (by simp) ?_
    rintro ⟨gathered, s⟩
    refine C.bind (parts gathered) (C.dropSequence s) (by simp; abel) fun _ => ?_
    exact C.of_eq (C.settle gathered) (by simp) rfl

theorem collect (s : σ) :
    C.Triple (Except Failure (Tree σ)) (parts s)
      (fun n => Sequence.collect (C.first n) (left s))
      (fun n => Sequence.collect (C.second n) (right s)) 0 :=
  C.spend 0 none s

theorem takeList (count : Nat) (s : σ) :
    C.Triple (Except Failure (Tree σ) × σ) (parts s)
      (fun n => Sequence.takeList (C.first n) count (left s))
      (fun n => Sequence.takeList (C.second n) count (right s)) 0 := by
  refine C.bind 0 (C.gather (some count) s) (by simp) ?_
  rintro ⟨gathered, s⟩
  refine C.bind (parts s) (C.settle gathered) (by simp) fun result => ?_
  exact C.pure (result, s) (by simp)

theorem indexStep (index seen : Nat) (x : Except Failure (Tree σ)) :
    C.Triple (Flow Nat (Except Failure (Tree σ))) (parts seen + parts x + 0)
      (fun n => Sequence.indexStep (C.first n) index seen (left x))
      (fun n => Sequence.indexStep (C.second n) index seen (right x)) 0 := by
  cases x with
  | error e => exact C.pure (Flow.halt (.error e) : Flow Nat (Except Failure (Tree σ))) (by simp)
  | ok v =>
    change C.Triple _ _ (fun _ => ite (seen = index) _ _) (fun _ => ite (seen = index) _ _) _
    split
    · exact C.pure (Flow.halt (.ok v) : Flow Nat (Except Failure (Tree σ))) (by simp)
    · refine C.bind 0 (C.drop [v]) (by simp) fun _ => ?_
      exact C.pure (Flow.onward (seen + 1) : Flow Nat (Except Failure (Tree σ))) (by simp)

theorem index (place : Nat) (s : σ) :
    C.Triple (Except Failure (Tree σ) × σ) (parts s)
      (fun n => Sequence.index (C.first n) place (left s))
      (fun n => Sequence.index (C.second n) place (right s)) 0 := by
  refine C.bind 0 (C.fork s) (by simp) ?_
  rintro ⟨s, walker⟩
  refine C.bind (parts s) (C.walk 0 (C.indexStep place) 0 walker) (by simp; abel) ?_
  rintro ⟨found, walker⟩
  refine C.bind (parts found + parts s) (C.dropSequence walker) (by simp; abel) fun _ => ?_
  cases found with
  | halt result => exact C.pure (result, s) (by simp)
  | onward seen =>
    exact C.pure ((.error (.indexOutOfRange place seen) : Except Failure (Tree σ)), s) (by simp)

theorem slice (start stop : Nat) (s : σ) :
    C.Triple (Except Failure (Tree σ) × σ) (parts s)
      (fun n => Sequence.slice (C.first n) start stop (left s))
      (fun n => Sequence.slice (C.second n) start stop (right s)) 0 := by
  refine C.bind 0 (C.fork s) (by simp) ?_
  rintro ⟨s, walker⟩
  refine C.bind (parts s) (C.spend start (some (stop - start)) walker) (by simp; abel)
    fun result => ?_
  exact C.pure (result, s) (by simp)

end Coupling

end LazyCalc
