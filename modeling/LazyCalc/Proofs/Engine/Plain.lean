import LazyCalc.Engine.Pull
import LazyCalc.Proofs.Engine.Bare
namespace LazyCalc

theorem Drive.fuel_ofFuel (n : Nat) : (Drive.ofFuel n).fuel = n := rfl

namespace Tree

variable {σ : Type} {m : Type → Type} [Monad m] [LawfulMonad m]

mutual

theorem copyWith_ofPlain (fork : σ → m (σ × σ)) (t : Plain) :
    copyWith fork (ofPlain t) = pure (ofPlain t, ofPlain t) := by
  cases t with
  | scalar s => rfl
  | list ts =>
    have h := copyListWith_ofPlain fork ts
    simp [ofPlain, map, copyWith, h]
  | sequence e => exact e.elim

theorem copyListWith_ofPlain (fork : σ → m (σ × σ)) (ts : List Plain) :
    copyListWith fork (mapList Empty.elim ts) = pure (mapList Empty.elim ts, mapList Empty.elim ts) := by
  cases ts with
  | nil => rfl
  | cons t ts =>
    have ht := copyWith_ofPlain fork t
    have hts := copyListWith_ofPlain fork ts
    simp only [ofPlain] at ht
    simp [mapList, copyListWith, ht, hts]

end

end Tree

namespace Item

variable {ρ κ : Type}

def ofPlain (x : Except Failure Plain) : Item ρ κ := x.map Tree.ofPlain

@[simp]
theorem ofPlain_ok (t : Plain) : (ofPlain (.ok t) : Item ρ κ) = .ok (.ofPlain t) := rfl

@[simp]
theorem ofPlain_error (e : Failure) : (ofPlain (.error e) : Item ρ κ) = .error e := rfl

variable {m : Type → Type} [Monad m] [LawfulMonad m]

theorem copyWith_ofPlain (fork : Sequence ρ κ → m (Sequence ρ κ × Sequence ρ κ))
    (x : Except Failure Plain) : copyWith fork (ofPlain x) = pure (ofPlain x, ofPlain x) := by
  cases x with
  | error e => rfl
  | ok t => simp [copyWith, Tree.copyWith_ofPlain]

theorem copyListWith_ofPlain (fork : Sequence ρ κ → m (Sequence ρ κ × Sequence ρ κ))
    (xs : List (Except Failure Plain)) :
    copyListWith fork (xs.map ofPlain) = pure (xs.map ofPlain, xs.map ofPlain) := by
  have h : (xs.map ofPlain).mapM (copyWith fork) =
      pure (xs.map fun x => (ofPlain x, ofPlain x)) := by
    induction xs with
    | nil => rfl
    | cons x xs ih => simp [copyWith_ofPlain, ih]
  simp [copyListWith, h, List.unzip_eq_map, Function.comp_def]

end Item

theorem release_ofPlainItems (xs : List (Except Failure Plain)) (rest : List Debris) (st : Store) :
    release (Debris.ofItems (xs.map Item.ofPlain) ++ rest) st = release rest st := by
  refine release_bareItems ?_ rest st
  induction xs with
  | nil => trivial
  | cons x xs ih =>
    cases x with
    | error e => exact ih
    | ok t => exact ⟨Tree.bare_ofPlain t, ih⟩

theorem Engine.dropValues_ofPlain (ts : List Plain) (st : Store) :
    dropValues (ts.map .ofPlain) st = .ok ((), st) := by
  have hbare := Tree.bareList_ofPlain ts
  rw [Tree.mapList_eq_map] at hbare
  exact congrFun (dropValues_bare _ hbare) st

theorem Drive.dropItem_ofPlain (fuel : Nat) (x : Except Failure Plain) (st : Store) :
    (Drive.ofFuel fuel).dropItem (.ofPlain x) st = .ok ((), st) := by
  cases x with
  | error e => rfl
  | ok t => exact Engine.dropValues_ofPlain [t] st

end LazyCalc
