import LazyCalc.Proofs.Coupling.Broadcast
import LazyCalc.Proofs.Lone.Stable
/-!
Pulls of lone sequences in which no production step and no kernel fails. A kernel for scalars comes
to something by itself, on whatever it is carried over; of a kernel that pulls sequences itself
that has to be said.
-/

namespace LazyCalc

open Filter

/-- The element is made by an operator that may pull sequences itself. -/
def Mapping.Reads {κ : Type} : Mapping κ → Prop
  | .broadcast (.reading ..) .. | .against _ _ (.reading ..) .. | .invoke .. => True
  | _ => False

def Pairing.Reads {κ : Type} : Pairing κ → Prop
  | .broadcast (.reading ..) .. | .invoke .. => True
  | _ => False

namespace Lone

def Steady {α : Type} (Y : Nat → Option α) : Prop := ∃ a, ∀ n, Y n = some a

namespace Steady

variable {α β : Type} {Y : Nat → Option α}

theorem const (a : α) : Steady fun _ => some a := ⟨a, fun _ => rfl⟩

theorem bind {f : Nat → α → Option β} (hY : Steady Y) (hf : ∀ a, Steady fun n => f n a) :
    Steady fun n => Y n >>= f n := by
  obtain ⟨a, ha⟩ := hY
  obtain ⟨b, hb⟩ := hf a
  exact ⟨b, fun n => (congrArg (· >>= f n) (ha n)).trans (hb n)⟩

theorem settles (h : Steady Y) : ∃ a, Settles Y a :=
  h.imp fun _ ha => Eventually.of_forall ha

theorem of_retain (leaf : Leaf Snapshot β) (h : Steady Y) :
    Steady fun n => leaf.retain (Drive.alone n) >>= fun _ => Y n := by
  cases leaf with
  | kernel => exact h
  | reading => exact h

section

variable {run : Scalar → Option Item} (leaf : Leaf Snapshot Scalar) (limit : Nat)

mutual

theorem broadcastOne (hrun : ∀ x, Steady fun _ => run x) (depth : Nat) (v : Value) :
    Steady fun n => LazyCalc.broadcastOne (Drive.alone n) run leaf limit depth v := by
  simp only [broadcastOne_eq]
  split
  · exact const _
  · have hsize := Tree.sizeOf_unwrap_le v
    generalize v.unwrap = w at hsize ⊢
    cases w with
    | scalar x => exact hrun x
    | list vs => exact broadcastItems hrun (depth + 1) vs []
    | sequence s => exact of_retain leaf (const _)
termination_by sizeOf v
decreasing_by simp only [Tree.list.sizeOf_spec] at hsize; omega

theorem broadcastItems (hrun : ∀ x, Steady fun _ => run x) (depth : Nat) (vs made : List Value) :
    Steady fun n => LazyCalc.broadcastItems (Drive.alone n) run leaf limit depth vs made := by
  cases vs with
  | nil =>
    simp only [LazyCalc.broadcastItems]
    exact const _
  | cons v vs =>
    simp only [LazyCalc.broadcastItems]
    refine (broadcastOne hrun depth v).bind ?_
    rintro (e | w)
    · exact const _
    · exact broadcastItems hrun depth vs (w :: made)
termination_by sizeOf vs

end

end

section

variable {run : Scalar → Scalar → Option Item} (leaf : Leaf Snapshot (Scalar × Scalar))
  (limit : Nat)

mutual

theorem broadcastTwo (hrun : ∀ x y, Steady fun _ => run x y) (depth : Nat) (a b : Value) :
    Steady fun n => LazyCalc.broadcastTwo (Drive.alone n) run leaf limit depth a b := by
  simp only [broadcastTwo_eq]
  split
  · exact const _
  · have hsa := Tree.sizeOf_unwrap_le a
    have hsb := Tree.sizeOf_unwrap_le b
    generalize a.unwrap = a' at hsa ⊢
    generalize b.unwrap = b' at hsb ⊢
    match a', b' with
    | .scalar x, .scalar y => exact hrun x y
    | .scalar x, .list ys => exact broadcastRights hrun (depth + 1) x ys []
    | .list xs, .scalar y => exact broadcastLefts hrun (depth + 1) xs y []
    | .list xs, .list ys => exact broadcastPairs hrun (depth + 1) xs ys []
    | .scalar x, .sequence s => exact of_retain leaf (const _)
    | .sequence s, .scalar y => exact of_retain leaf (const _)
    | .list xs, .sequence s => exact of_retain leaf (const _)
    | .sequence s, .list ys => exact of_retain leaf (const _)
    | .sequence s, .sequence t => exact of_retain leaf (const _)
termination_by sizeOf a + sizeOf b
decreasing_by
  all_goals
    simp only [Tree.scalar.sizeOf_spec, Tree.list.sizeOf_spec] at hsa hsb ⊢
    omega

theorem broadcastPairs (hrun : ∀ x y, Steady fun _ => run x y) (depth : Nat)
    (xs ys made : List Value) :
    Steady fun n => LazyCalc.broadcastPairs (Drive.alone n) run leaf limit depth xs ys made := by
  match xs, ys with
  | x :: xs, y :: ys =>
    simp only [LazyCalc.broadcastPairs]
    refine (broadcastTwo hrun depth x y).bind ?_
    rintro (e | w)
    · exact const _
    · exact broadcastPairs hrun depth xs ys (w :: made)
  | [], ys =>
    simp only [LazyCalc.broadcastPairs]
    exact const _
  | x :: xs, [] =>
    simp only [LazyCalc.broadcastPairs]
    exact const _
termination_by sizeOf xs + sizeOf ys

theorem broadcastLefts (hrun : ∀ x y, Steady fun _ => run x y) (depth : Nat) (xs : List Value)
    (y : Scalar) (made : List Value) :
    Steady fun n => LazyCalc.broadcastLefts (Drive.alone n) run leaf limit depth xs y made := by
  cases xs with
  | nil =>
    simp only [LazyCalc.broadcastLefts]
    exact const _
  | cons x xs =>
    simp only [LazyCalc.broadcastLefts]
    refine (broadcastTwo hrun depth x (.scalar y)).bind ?_
    rintro (e | w)
    · exact const _
    · exact broadcastLefts hrun depth xs y (w :: made)
termination_by sizeOf xs + sizeOf (Tree.scalar y : Value)

theorem broadcastRights (hrun : ∀ x y, Steady fun _ => run x y) (depth : Nat) (x : Scalar)
    (ys made : List Value) :
    Steady fun n => LazyCalc.broadcastRights (Drive.alone n) run leaf limit depth x ys made := by
  cases ys with
  | nil =>
    simp only [LazyCalc.broadcastRights]
    exact const _
  | cons y ys =>
    simp only [LazyCalc.broadcastRights]
    refine (broadcastTwo hrun depth (.scalar x) y).bind ?_
    rintro (e | w)
    · exact const _
    · exact broadcastRights hrun depth x ys (w :: made)
termination_by sizeOf (Tree.scalar x : Value) + sizeOf ys

end

end

theorem mapping {mapping : Mapping Snapshot} (h : ¬mapping.Reads) (v : Value) :
    Steady fun n => mapping.apply (Drive.alone n) v := by
  match mapping, h with
  | .broadcast (.kernel f) limit depth, _ => exact broadcastOne _ limit (fun _ => const _) depth v
  | .against x .left (.kernel f) limit depth, _ =>
    exact broadcastTwo _ limit (fun _ _ => const _) depth (.scalar x) v
  | .against x .right (.kernel f) limit depth, _ =>
    exact broadcastTwo _ limit (fun _ _ => const _) depth v (.scalar x)
  | .note text, _ => exact const _
  | .enlist, _ => exact const _
  | .stream, _ => exact const _
  | .broadcast (.reading ..) .., h => exact absurd trivial h
  | .against _ _ (.reading ..) .., h => exact absurd trivial h
  | .invoke .., h => exact absurd trivial h

theorem pairing {pairing : Pairing Snapshot} (h : ¬pairing.Reads) (a b : Value) :
    Steady fun n => pairing.apply (Drive.alone n) a b := by
  match pairing, h with
  | .broadcast (.kernel f) limit depth, _ =>
    exact broadcastTwo _ limit (fun _ _ => const _) depth a b
  | .enlist, _ => exact const _
  | .broadcast (.reading ..) .., h => exact absurd trivial h
  | .invoke .., h => exact absurd trivial h

end Steady

/-- A call of a kernel does not fail, and if it may pull sequences itself, it comes to something. -/
structure Passes (reads : Prop) (call : Nat → Option Item) : Prop where
  unfailing : ∀ e, ¬Settles call (.error e)
  settles : reads → ∃ x, Settles call x

theorem Passes.exists_ok {reads : Prop} {call : Nat → Option Item} (h : Passes reads call)
    (hsteady : ¬reads → Steady call) : ∃ v, Settles call (.ok v) := by
  obtain ⟨e | v, hx⟩ : ∃ x, Settles call x := by
    by_cases hreads : reads
    · exact h.settles hreads
    · exact (hsteady hreads).settles
  · exact absurd hx (h.unfailing e)
  · exact ⟨v, hx⟩

inductive After : (k : Nat) → (s s' : Sequence) → Prop
  | zero (s : Sequence) : After 0 s s
  | succ {k : Nat} {s s₁ s' : Sequence} {v : Value}
    (h : Settles (fun n => (Drive.alone n).pull s) (some (.ok v), s₁)) (hrest : After k s₁ s') :
    After (k + 1) s s'

namespace After

variable {k : Nat} {s s₁ s' : Sequence} {v : Value}

end After

end Lone

end LazyCalc
