import LazyCalc.Proofs.Coupling.Walk
namespace LazyCalc

theorem Tree.typeName_map {σ τ : Type} (f : σ → τ) (t : Tree σ) :
    (t.map f).typeName = t.typeName := by
  cases t <;> rfl

def Value.materializeTurn {m : Type → Type} [Monad m] {ρ κ : Type} (d : Drive m ρ κ)
    (materialize : Value ρ κ → m (Item ρ κ)) : Value ρ κ → m (Item ρ κ)
  | .scalar s => pure (.ok (.scalar s))
  | .list items => d.mapValues materialize items []
  | .sequence s => s.convert d materialize []

namespace Coupling

variable {m₁ m₂ : Type → Type} [Monad m₁] [Monad m₂] {ρ₁ κ₁ ρ₂ κ₂ σ κ : Type}
  [Paired σ (Sequence ρ₁ κ₁) (Sequence ρ₂ κ₂)] [Paired κ κ₁ κ₂]
  (C : Coupling m₁ m₂ ρ₁ κ₁ ρ₂ κ₂ σ κ)

theorem madeList (ts : List (Tree σ)) :
    C.Triple (Except Failure (Tree σ)) (parts ts)
      (fun _ => pure (.ok (.list (left ts).reverse))) (fun _ => pure (.ok (.list (right ts).reverse)))
      0 := by
  simp only [← left_reverse, ← right_reverse]
  exact C.pure (Except.ok (Tree.list ts.reverse) : Except Failure (Tree σ)) (by simp)

theorem refuse (e : Failure) :
    C.Triple (Except Failure (Tree σ)) 0 (fun _ => pure (.error e)) (fun _ => pure (.error e)) 0 :=
  C.pure (Except.error e : Except Failure (Tree σ)) (by simp)

theorem dropReverse (ts : List (Tree σ)) :
    C.Triple Unit (parts ts) (fun n => (C.first n).drop (left ts).reverse)
      (fun n => (C.second n).drop (right ts).reverse) 0 := by
  simp only [← left_reverse, ← right_reverse]
  exact C.of_eq (C.drop ts.reverse) (by simp) rfl

section

variable {f₁ : Nat → Value ρ₁ κ₁ → m₁ (Item ρ₁ κ₁)} {f₂ : Nat → Value ρ₂ κ₂ → m₂ (Item ρ₂ κ₂)}
  (h : ∀ v : Tree σ, C.Triple (Except Failure (Tree σ)) (parts v) (fun n => f₁ n (left v))
    (fun n => f₂ n (right v)) 0)

include h

theorem mapValues (vs made : List (Tree σ)) :
    C.Triple (Except Failure (Tree σ)) (parts vs + parts made)
      (fun n => (C.first n).mapValues (f₁ n) (left vs) (left made))
      (fun n => (C.second n).mapValues (f₂ n) (right vs) (right made)) 0 := by
  induction vs generalizing made with
  | nil => exact C.of_eq (C.madeList made) (by simp) rfl
  | cons v vs ih =>
    refine C.bind (parts vs + parts made) (h v) (by simp; abel) ?_
    rintro (e | w)
    · refine C.bind (parts made) (C.drop vs) (by simp) fun _ => ?_
      refine C.bind 0 (C.dropReverse made) (by simp) fun _ => ?_
      exact C.of_eq (C.refuse e) (by simp) rfl
    · exact C.of_eq (ih (w :: made)) (by simp; abel) rfl

theorem convertStep (made : List (Tree σ)) (x : Except Failure (Tree σ)) :
    C.Triple (Flow (List (Tree σ)) (Gathered σ)) (parts made + parts x + 0)
      (fun n => Sequence.convertStep (f₁ n) (left made) (left x))
      (fun n => Sequence.convertStep (f₂ n) (right made) (right x)) 0 := by
  have hhalt (e : Failure) :
      C.Triple (Flow (List (Tree σ)) (Gathered σ)) (parts made)
        (fun _ => pure (.halt ⟨(left made).reverse, some e⟩))
        (fun _ => pure (.halt ⟨(right made).reverse, some e⟩)) 0 := by
    simp only [← left_reverse, ← right_reverse]
    exact C.pure (Flow.halt ⟨made.reverse, some e⟩ : Flow (List (Tree σ)) (Gathered σ)) (by simp)
  cases x with
  | error e => exact C.of_eq (hhalt e) (by simp) rfl
  | ok v =>
    refine C.bind (parts made) (h v) (by simp; abel) ?_
    rintro (e | w)
    · exact C.of_eq (hhalt e) (by simp) rfl
    · exact C.pure (Flow.onward (w :: made) : Flow (List (Tree σ)) (Gathered σ)) (by simp)

theorem convert (made : List (Tree σ)) (s : σ) :
    C.Triple (Except Failure (Tree σ)) (parts made + parts s)
      (fun n => (left s).convert (C.first n) (f₁ n) (left made))
      (fun n => (right s).convert (C.second n) (f₂ n) (right made)) 0 := by
  refine C.bind 0 (C.walk 0 (C.convertStep h) made s) (by simp) ?_
  rintro ⟨made | gathered, s⟩
  · refine C.bind (parts made) (C.dropSequence s) (by simp; abel) fun _ => ?_
    exact C.of_eq (C.madeList made) (by simp) rfl
  · refine C.bind (parts gathered) (C.dropSequence s) (by simp; abel) fun _ => ?_
    exact C.of_eq (C.settle gathered) (by simp) rfl

end

theorem materialize (v : Tree σ) :
    C.Triple (Except Failure (Tree σ)) (parts v)
      (fun n => Value.materialize (C.first n) n (left v))
      (fun n => Value.materialize (C.second n) n (right v)) 0 := by
  refine C.loop (ι := Tree σ) (γ := Except Failure (Tree σ)) (A := parts) (B := fun _ => 0)
    (f := fun n => Value.materialize (C.first n)) (g := fun n => Value.materialize (C.second n))
    (fun n => Value.materializeTurn (C.first n)) (fun n => Value.materializeTurn (C.second n))
    ?_ ?_ ?_ ?_ ?_ v
  · intro n v
    rw [Value.materialize]
  · intro n k v
    cases v <;> rw [Value.materialize, Value.materializeTurn]
  · intro n v
    rw [Value.materialize]
  · intro n k v
    cases v <;> rw [Value.materialize, Value.materializeTurn]
  · intro f g ih v
    cases v with
    | scalar x => exact C.pure (Except.ok (Tree.scalar x) : Except Failure (Tree σ)) (by simp)
    | list items => exact C.of_eq (C.mapValues ih items []) (by simp) rfl
    | sequence s => exact C.of_eq (C.convert ih [] s) (by simp) rfl

end Coupling

end LazyCalc
