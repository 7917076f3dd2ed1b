import LazyCalc.Proofs.Coupling.Twin
import Mathlib.Tactic.Abel
/-!
Couplings: two ways to hold sequences, and judgements that a computation on the one side does what
the same computation does on the other.
-/

namespace LazyCalc

/-- Judgements `Triple γ A X Y B` on two families of computations, one member for each amount of
fuel: with the parts `A` at hand, both come to the two sides of some `c : γ`, and the parts of `c`
and `B` are at hand. -/
structure Logic (m₁ m₂ : Type → Type) [Monad m₁] [Monad m₂] (σ κ : Type) where
  Triple : (γ : Type) → {α β : Type} → [Paired γ α β] → [Parted σ κ γ] →
    Parts σ κ → (Nat → m₁ α) → (Nat → m₂ β) → Parts σ κ → Prop
  pure_parts : ∀ {γ α β : Type} [Paired γ α β] [Parted σ κ γ] (c : γ) (B : Parts σ κ),
    Triple γ (parts c + B) (fun _ => (pure (left c) : m₁ α)) (fun _ => (pure (right c) : m₂ β)) B
  bind_parts : ∀ {γ α β γ' α' β' : Type} [Paired γ α β] [Parted σ κ γ] [Paired γ' α' β']
    [Parted σ κ γ'] {A B B' : Parts σ κ} {X : Nat → m₁ α} {Y : Nat → m₂ β}
    {f : Nat → α → m₁ α'} {g : Nat → β → m₂ β'}, Triple γ A X Y B →
    (∀ c : γ, Triple γ' (parts c + B) (fun n => f n (left c)) (fun n => g n (right c)) B') →
    Triple γ' A (fun n => X n >>= f n) (fun n => Y n >>= g n) B'
  frame : ∀ {γ α β : Type} [Paired γ α β] [Parted σ κ γ] {A B : Parts σ κ} {X : Nat → m₁ α}
    {Y : Nat → m₂ β} (F : Parts σ κ), Triple γ A X Y B → Triple γ (A + F) X Y (B + F)

namespace Logic

variable {m₁ m₂ : Type → Type} [Monad m₁] [Monad m₂] {σ κ : Type} (L : Logic m₁ m₂ σ κ)
  {γ α β γ' α' β' : Type} [Paired γ α β] [Parted σ κ γ] [Paired γ' α' β'] [Parted σ κ γ']
  {A A' B B' F : Parts σ κ}

theorem pure (c : γ) (h : A = parts c + B) :
    L.Triple γ A (fun _ => (pure (left c) : m₁ α)) (fun _ => (pure (right c) : m₂ β)) B :=
  h ▸ L.pure_parts c B

variable {X : Nat → m₁ α} {Y : Nat → m₂ β} {f : Nat → α → m₁ α'} {g : Nat → β → m₂ β'}

theorem bind (F : Parts σ κ) (hX : L.Triple γ A X Y B) (h : A' = A + F)
    (hf : ∀ c : γ, L.Triple γ' (parts c + (B + F)) (fun n => f n (left c)) (fun n => g n (right c)) B') :
    L.Triple γ' A' (fun n => X n >>= f n) (fun n => Y n >>= g n) B' :=
  h ▸ L.bind_parts (L.frame F hX) hf

theorem of_eq (hX : L.Triple γ A X Y B) (hA : A' = A) (hB : B' = B) : L.Triple γ A' X Y B' := by
  subst hA hB
  exact hX

end Logic

variable {m₁ m₂ : Type → Type} [Monad m₁] [Monad m₂] {ρ₁ κ₁ ρ₂ κ₂ σ κ : Type}

/-- How the two sides provide what a calculation on sequences needs. -/
structure Coupling (m₁ m₂ : Type → Type) [Monad m₁] [Monad m₂] (ρ₁ κ₁ ρ₂ κ₂ σ κ : Type)
    [Paired σ (Sequence ρ₁ κ₁) (Sequence ρ₂ κ₂)] [Paired κ κ₁ κ₂] extends Logic m₁ m₂ σ κ where
  first : Nat → Drive m₁ ρ₁ κ₁
  second : Nat → Drive m₂ ρ₂ κ₂
  first_fuel : ∀ n, (first n).fuel = n
  second_fuel : ∀ n, (second n).fuel = n
  make : Source σ κ → Hint → σ
  left_make : ∀ source hint, left (make source hint) = Sequence.ofSource (left source) hint
  right_make : ∀ source hint, right (make source hint) = Sequence.ofSource (right source) hint
  made : ∀ {γ α β : Type} [Paired γ α β] [Parted σ κ γ] {A B : Parts σ κ} {X : Nat → m₁ α}
    {Y : Nat → m₂ β} (source : Source σ κ) (hint : Hint),
    Triple γ (parts (make source hint) + A) X Y B → Triple γ (parts source + A) X Y B
  hinted : ∀ {γ α β : Type} [Paired γ α β] [Parted σ κ γ] {A B : Parts σ κ} {X : Nat → m₁ α}
    {Y : Nat → m₂ β} (s : σ),
    ((left s).hint = (right s).hint → Triple γ (parts s + A) X Y B) →
    Triple γ (parts s + A) X Y B
  /-- A loop that takes fuel from the drive and gives up without fuel. -/
  loop : ∀ {ι I₁ I₂ γ α β : Type} [Paired ι I₁ I₂] [Paired γ α β] [Parted σ κ γ]
    {A B : ι → Parts σ κ} {f : Nat → Nat → I₁ → m₁ α} {g : Nat → Nat → I₂ → m₂ β}
    (F : Nat → (I₁ → m₁ α) → I₁ → m₁ α) (G : Nat → (I₂ → m₂ β) → I₂ → m₂ β),
    (∀ n i, f n 0 i = (first n).stuck) → (∀ n k i, f n (k + 1) i = F n (f n k) i) →
    (∀ n i, g n 0 i = (second n).stuck) → (∀ n k i, g n (k + 1) i = G n (g n k) i) →
    (∀ (f' : Nat → I₁ → m₁ α) (g' : Nat → I₂ → m₂ β),
      (∀ i : ι, Triple γ (A i) (fun n => f' n (left i)) (fun n => g' n (right i)) (B i)) →
      ∀ i : ι, Triple γ (A i) (fun n => F n (f' n) (left i)) (fun n => G n (g' n) (right i))
        (B i)) →
    ∀ i : ι, Triple γ (A i) (fun n => f n n (left i)) (fun n => g n n (right i)) (B i)
  pull : ∀ s : σ, Triple (Option (Except Failure (Tree σ)) × σ) (parts s)
    (fun n => (first n).pull (left s)) (fun n => (second n).pull (right s)) 0
  fork : ∀ s : σ, Triple (σ × σ) (parts s)
    (fun n => (first n).fork (left s)) (fun n => (second n).fork (right s)) 0
  drop : ∀ vs : List (Tree σ), Triple Unit (parts vs)
    (fun n => (first n).drop (left vs)) (fun n => (second n).drop (right vs)) 0
  note : ∀ texts : List String, Triple Unit 0
    (fun n => (first n).note texts) (fun n => (second n).note texts) 0
  keep : ∀ c : Collection σ, Triple κ (parts c)
    (fun n => (first n).keep (left c)) (fun n => (second n).keep (right c)) 0
  read : ∀ k : κ, Triple (Collection σ) (parts k)
    (fun n => (first n).read (left k)) (fun n => (second n).read (right k)) (parts k)
  retain : ∀ k : κ, Triple Unit (parts k)
    (fun n => (first n).retain (left k)) (fun n => (second n).retain (right k))
    (parts k + parts k)
  dismiss : ∀ k : κ, Triple Unit (parts k)
    (fun n => (first n).dismiss (left k)) (fun n => (second n).dismiss (right k)) 0

end LazyCalc
