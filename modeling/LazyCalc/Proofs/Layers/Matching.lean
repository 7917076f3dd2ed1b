import LazyCalc.Proofs.Layers.Alike
import LazyCalc.Proofs.Lone.Stable
/-!
Two ways to hold lone sequences that tell: with fuel on the one side and as much as it takes on the
other, in both directions. Sequences match when they are known to be alike, when they own matching
parts, and also when they broadcast over sequences that are alike only but for layers.
-/

namespace LazyCalc

open Filter Told

namespace Pairs

abbrev Sequence := Twin Lone.Sequence Lone.Sequence

abbrev Cell := Twin Snapshot Snapshot

abbrev Source := LazyCalc.Source Sequence Cell

abbrev Parts := LazyCalc.Parts Sequence Cell

abbrev Value := Tree Sequence

abbrev Item := Except Failure Value

abbrev Collection := LazyCalc.Collection Sequence

def ofSource (source : Source) (hint : Hint) (finished : Bool) (hooks hooks' : List String) :
    Sequence :=
  ⟨⟨.direct (left source), hint, finished, hooks⟩,
    ⟨.direct (right source), hint, finished, hooks'⟩⟩

def ofMapped (s : Sequence) (mapping : Mapping Cell) (hint : Hint) (finished : Bool)
    (hooks hooks' : List String) : Sequence :=
  ofSource (.mapped s mapping) hint finished hooks hooks'

def ofZipped (s t : Sequence) (pairing : Pairing Cell) (hint : Hint) (finished : Bool)
    (hooks hooks' : List String) : Sequence :=
  ofSource (.zipped s t pairing) hint finished hooks hooks'

end Pairs

/-- A broadcast, which takes off the layers of an element itself. -/
def Mapping.Broadcasts {κ : Type} : Mapping κ → Prop
  | .broadcast .. | .against .. => True
  | .note _ | .invoke .. | .enlist | .stream => False

def Pairing.Broadcasts {κ : Type} : Pairing κ → Prop
  | .broadcast .. => True
  | .invoke .. | .enlist => False

namespace Pairs

section

variable (E R : Lone.Sequence → Lone.Sequence → Prop)

mutual

/-- Pairs that are known to be alike by `E`, or made alike, or broadcast over pairs of `R`. -/
inductive Matches : Sequence → Prop
  | known (s : Sequence) (h : E s.left s.right) : Matches s
  | direct (source : Source) (hint : Hint) (finished : Bool) (hooks hooks' : List String)
    (hsequence : ∀ s, .sequence s ∈ (parts source : Parts) → Matches s)
    (hcell : ∀ k, .cell k ∈ (parts source : Parts) → Kept k) :
    Matches (ofSource source hint finished hooks hooks')
  | mapped (s : Sequence) (h : R s.left s.right) (mapping : Mapping Cell)
    (hmapping : mapping.Broadcasts) (hint : Hint) (finished : Bool) (hooks hooks' : List String)
    (hsequence : ∀ s, .sequence s ∈ (parts mapping : Parts) → Matches s)
    (hcell : ∀ k, .cell k ∈ (parts mapping : Parts) → Kept k) :
    Matches (ofMapped s mapping hint finished hooks hooks')
  | zipped (s t : Sequence) (hs : R s.left s.right) (ht : R t.left t.right)
    (pairing : Pairing Cell) (hpairing : pairing.Broadcasts) (hint : Hint) (finished : Bool)
    (hooks hooks' : List String)
    (hsequence : ∀ s, .sequence s ∈ (parts pairing : Parts) → Matches s)
    (hcell : ∀ k, .cell k ∈ (parts pairing : Parts) → Kept k) :
    Matches (ofZipped s t pairing hint finished hooks hooks')

inductive Kept : Cell → Prop
  | of (c : Collection) (hsequence : ∀ s, .sequence s ∈ (parts c : Parts) → Matches s)
    (hcell : ∀ k, .cell k ∈ (parts c : Parts) → Kept k) : Kept ⟨.of (left c), .of (right c)⟩

end

structure Fits (A : Parts) : Prop where
  sequence : ∀ s, .sequence s ∈ A → Matches E R s
  cell : ∀ k, .cell k ∈ A → Kept E R k

end

section

variable {E R : Lone.Sequence → Lone.Sequence → Prop} {A B : Parts}

theorem fits_zero : Fits E R 0 := ⟨fun _ h => by simp at h, fun _ h => by simp at h⟩

theorem fits_add : Fits E R (A + B) ↔ Fits E R A ∧ Fits E R B := by
  constructor
  · intro h
    exact ⟨⟨fun s hs => h.sequence s (Multiset.mem_add.mpr (.inl hs)),
        fun k hk => h.cell k (Multiset.mem_add.mpr (.inl hk))⟩,
      ⟨fun s hs => h.sequence s (Multiset.mem_add.mpr (.inr hs)),
        fun k hk => h.cell k (Multiset.mem_add.mpr (.inr hk))⟩⟩
  · rintro ⟨hA, hB⟩
    exact ⟨fun s hs => (Multiset.mem_add.mp hs).elim (hA.sequence s) (hB.sequence s),
      fun k hk => (Multiset.mem_add.mp hk).elim (hA.cell k) (hB.cell k)⟩

theorem fits_sequence {s : Sequence} : Fits E R (parts s) ↔ Matches E R s := by
  constructor
  · intro h
    exact h.sequence s (Multiset.mem_singleton_self _)
  · intro h
    refine ⟨fun t ht => ?_, fun k hk => ?_⟩
    · obtain rfl := Part.sequence.inj (Multiset.mem_singleton.mp ht)
      exact h
    · cases Multiset.mem_singleton.mp hk

theorem fits_cell {k : Cell} : Fits E R (parts k) ↔ Kept E R k := by
  constructor
  · intro h
    exact h.cell k (Multiset.mem_singleton_self _)
  · intro h
    refine ⟨fun t ht => ?_, fun k' hk => ?_⟩
    · cases Multiset.mem_singleton.mp ht
    · obtain rfl := Part.cell.inj (Multiset.mem_singleton.mp hk)
      exact h

theorem Matches.ofSource {source : Source} (h : Fits E R (parts source)) (hint : Hint)
    (finished : Bool) (hooks hooks' : List String) :
    Matches E R (ofSource source hint finished hooks hooks') :=
  .direct source hint finished hooks hooks' h.sequence h.cell

def Joined (E R : Lone.Sequence → Lone.Sequence → Prop) (γ : Type) {α β : Type} [Paired γ α β]
    [Parted Sequence Cell γ] (B : Parts) (a : α) (b : β) : Prop :=
  ∃ c : γ, left c = a ∧ right c = b ∧ Fits E R (parts c + B)

def PullsMatch (E R : Lone.Sequence → Lone.Sequence → Prop) (n : Nat) : Prop :=
  ∀ s, Matches E R s → Abreast n (fun m => (Drive.told m).pull s.left)
    (fun m => (Drive.told m).pull s.right)
    (Joined E R (Option (Except Failure (Tree Sequence)) × Sequence) 0)

theorem Matches.hint (hE : ∀ s t, E s t → s.hint = t.hint) {s : Sequence} (h : Matches E R s) :
    s.left.hint = s.right.hint := by
  cases h with
  | known _ h => exact hE _ _ h
  | direct => rfl
  | mapped => rfl
  | zipped => rfl

def matching (n : Nat) (hhint : ∀ s t, E s t → s.hint = t.hint) (hpull : PullsMatch E R n) :
    Coupling Told Told Empty Snapshot Empty Snapshot Sequence Cell where
  Triple γ _ _ _ _ A X Y B := Fits E R A → Abreast n X Y (Joined E R γ B)
  pure_parts := fun c B h => .pure ⟨c, rfl, rfl, h⟩
  bind_parts := by
    intro γ α β γ' α' β' _ _ _ _ A B B' X Y f g hX hf h
    refine (hX h).bind ?_
    rintro a b ⟨c, rfl, rfl, hc⟩
    exact hf c hc
  frame := by
    intro γ α β _ _ A B X Y F hX h
    obtain ⟨hA, hF⟩ := fits_add.mp h
    refine (hX hA).mono ?_
    rintro a b ⟨c, rfl, rfl, hc⟩
    exact ⟨c, rfl, rfl, by rw [← add_assoc]; exact fits_add.mpr ⟨hc, hF⟩⟩
  first := Drive.told
  second := Drive.told
  first_fuel _ := rfl
  second_fuel _ := rfl
  make source hint := ofSource source hint false [] []
  left_make _ _ := rfl
  right_make _ _ := rfl
  made := by
    intro γ α β _ _ A B X Y source hint hX h
    obtain ⟨hsource, hA⟩ := fits_add.mp h
    exact hX (fits_add.mpr ⟨fits_sequence.mpr (.ofSource hsource hint false [] []), hA⟩)
  hinted := by
    intro γ α β _ _ A B X Y s hX h
    exact hX ((fits_sequence.mp (fits_add.mp h).1).hint hhint) h
  loop := by
    intro ι I₁ I₂ γ α β _ _ _ A B f g F G hf0 hf hg0 hg hturn i
    refine loop_of_turn n
      (T := fun i X Y => Fits E R (A i) → Abreast n X Y (Joined E R γ (B i))) ?_ ?_ hf hg hturn i
    · exact fun i X X' Y Y' he hX hY hT h => (hT h).congr he hX hY
    · exact fun i X Y hX hY h => .stuck (hX.trans (hf0 n _)) (hY.trans (hg0 n _))
  pull s h := hpull s (fits_sequence.mp h)
  fork s h := .pure ⟨(s, s), rfl, rfl, by
    rw [parts_pair, add_zero]
    exact fits_add.mpr ⟨h, h⟩⟩
  drop vs _ := .pure ⟨(), rfl, rfl, fits_zero⟩
  note texts _ := by
    have hnote : Leads n (fun _ => modify (· ++ texts) : Nat → Told Unit)
        (fun _ => modify (· ++ texts)) (Joined E R Unit 0) := by
      rintro told ⟨⟩ told' ⟨⟩
      exact ⟨(), texts, rfl, .of_forall fun _ _ => rfl, (), rfl, rfl, fits_zero⟩
    exact ⟨hnote, hnote⟩
  keep c h := .pure ⟨⟨.of (left c), .of (right c)⟩, rfl, rfl, by
    rw [add_zero]
    exact fits_cell.mpr (.of c h.sequence h.cell)⟩
  read k h := by
    obtain ⟨c, hsequence, hcell⟩ := fits_cell.mp h
    exact .pure ⟨c, rfl, rfl, fits_add.mpr ⟨⟨hsequence, hcell⟩, h⟩⟩
  retain k h := .pure ⟨(), rfl, rfl, by
    rw [parts_unit, zero_add]
    exact fits_add.mpr ⟨h, h⟩⟩
  dismiss k _ := .pure ⟨(), rfl, rfl, fits_zero⟩

end

end Pairs

end LazyCalc
