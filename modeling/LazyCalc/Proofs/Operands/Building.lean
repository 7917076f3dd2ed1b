import LazyCalc.Proofs.Desk.Basic
import LazyCalc.Operator.Builtin
/-!
Building a sequence over others pulls none of them: what is built is the same whatever a pull does.
-/

namespace LazyCalc

variable {m : Type → Type} [Monad m] {ρ κ : Type} (d : Drive m ρ κ)
  (pull : Sequence ρ κ → m (Option (Item ρ κ) × Sequence ρ κ))

/-- The same means, but for what a pull does. -/
def Drive.pullingBy : Drive m ρ κ := { d with pull }

mutual

theorem applyBatch_pullingBy {α : Type} (t : Trailing m ρ κ α) (limit depth : Nat) (args : α)
    (v : Value ρ κ) :
    applyBatch (d.pullingBy pull) t limit depth args v = applyBatch d t limit depth args v := by
  cases v with
  | list items =>
    simp only [applyBatch, applyBatchItems_pullingBy t limit (depth + 1) args [] items]
    rfl
  | scalar s => rfl
  | sequence s => rfl

theorem applyBatchItems_pullingBy {α : Type} (t : Trailing m ρ κ α) (limit depth : Nat) (args : α)
    (made vs : List (Value ρ κ)) :
    applyBatchItems (d.pullingBy pull) t limit depth args made vs =
      applyBatchItems d t limit depth args made vs := by
  cases vs with
  | nil => rfl
  | cons v vs =>
    simp only [applyBatchItems, fun args => applyBatch_pullingBy t limit depth args v,
      fun args made => applyBatchItems_pullingBy t limit depth args made vs]
    rfl

end

theorem Operator.exists_window {a b : Scalar} {extent : Extent} {plan : Plan}
    (h : sublistPlan a b extent = .ok plan) : ∃ start count, plan = .read (.window start count) := by
  unfold sublistPlan at h
  cases hstart : a.position "start" with
  | error e => rw [hstart] at h; cases h
  | ok start =>
    cases hcount : b.position "count" with
    | error e => simp only [hstart, hcount] at h; cases h
    | ok count =>
      simp only [hstart, hcount] at h
      cases h
      exact ⟨start, count, rfl⟩

end LazyCalc
