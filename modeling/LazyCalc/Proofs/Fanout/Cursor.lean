import LazyCalc.Tree
import LazyCalc.Failure
/-!
Cursors: readers of one stream of items, each with a position of its own and nothing to do with the
others. A stream is given by its answers; it may fail, may end, and may go on after it has ended.
-/

namespace LazyCalc

abbrev PlainItem := Except Failure Plain

def Delivers (answer : Nat → Option PlainItem) (k : Nat) : Prop := ∃ v, answer k = some (.ok v)

structure Cursor where
  position : Nat
  finished : Bool

namespace Cursor

def stops : Option PlainItem → Bool
  | some (.ok _) => false
  | some (.error _) | none => true

variable (answer : Nat → Option PlainItem)

def step (c : Cursor) : Option PlainItem × Cursor :=
  if c.finished then (none, c)
  else (answer c.position, ⟨c.position + 1, stops (answer c.position)⟩)

def discard : Nat → Cursor → Cursor
  | 0, c => c
  | n + 1, c => discard n (c.step answer).2

def gather : Nat → Cursor → Except Failure (List Plain) × Cursor
  | 0, c => (.ok [], c)
  | n + 1, c =>
    match c.step answer with
    | (none, c) => (.ok [], c)
    | (some (.error e), c) => (.error e, c)
    | (some (.ok v), c) =>
      let (found, c) := gather n c
      (found.map (v :: ·), c)

def seek (index : Nat) : (left : Nat) → Cursor → PlainItem × Cursor
  | 0, c =>
    match c.step answer with
    | (none, c) => (.error (.indexOutOfRange index index), c)
    | (some item, c) => (item, c)
  | left + 1, c =>
    match c.step answer with
    | (none, c) => (.error (.indexOutOfRange index (index - (left + 1))), c)
    | (some (.error e), c) => (.error e, c)
    | (some (.ok _), c) => seek index left c

def slice (start stop : Nat) (c : Cursor) : Except Failure (List Plain) × Cursor :=
  if stop - start = 0 then (.ok [], c) else gather answer (stop - start) (discard answer start c)

/-- Every answer before the position was an element, but for the last one of a finished cursor. -/
def Valid (c : Cursor) : Prop := ∀ k, k < c.position → (c.finished = true → k + 1 < c.position) →
  Delivers answer k

theorem stops_eq_false_iff {k : Nat} : stops (answer k) = false ↔ Delivers answer k := by
  unfold Delivers
  rcases answer k with _ | _ | v <;> simp [stops]

variable {answer} {c : Cursor}

theorem valid_step (h : c.Valid answer) : (c.step answer).2.Valid answer := by
  unfold step
  split
  · exact h
  · next hf =>
    intro k hk hs
    by_cases hlast : k = c.position
    · subst hlast
      cases hp : stops (answer c.position) with
      | true => exact absurd (hs hp) (by simp)
      | false => exact (stops_eq_false_iff answer).mp hp
    · exact h k (by have : k < c.position + 1 := hk; omega) (by simp [hf])

theorem position_le_step : c.position ≤ (c.step answer).2.position := by
  unfold step
  split
  · exact Nat.le_refl _
  · exact Nat.le_succ _

end Cursor

end LazyCalc
