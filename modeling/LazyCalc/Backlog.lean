/-!
First-in first-out queues that know their length. The newer elements are kept in reverse until the
older ones have all been taken, so that a push and, on the whole, a pop take constant time. Through
`toList` a push adds at the end and a pop takes from the front.
-/

namespace LazyCalc

structure Backlog (α : Type) where
  older : List α
  newer : List α
  length : Nat
  length_eq : length = older.length + newer.length

namespace Backlog

variable {α : Type}

def ofList (items : List α) : Backlog α := ⟨items, [], items.length, rfl⟩

def toList (b : Backlog α) : List α := b.older ++ b.newer.reverse

def push (b : Backlog α) (a : α) : Backlog α :=
  ⟨b.older, a :: b.newer, b.length + 1, by simp only [b.length_eq, List.length_cons]; omega⟩

def pop? : Backlog α → Option (α × Backlog α)
  | ⟨a :: older, newer, length, h⟩ =>
    some (a, ⟨older, newer, length - 1, by simp only [h, List.length_cons]; omega⟩)
  | ⟨[], newer, length, h⟩ =>
    match hr : newer.reverse with
    | a :: older =>
      some (a, ⟨older, [], length - 1, by
        have := congrArg List.length hr
        simp only [List.length_reverse, List.length_cons] at this
        simp only [h, this, List.length_nil]; omega⟩)
    | [] => none

@[simp]
theorem length_toList (b : Backlog α) : b.toList.length = b.length := by
  simp [toList, b.length_eq]

@[simp]
theorem toList_ofList (items : List α) : (ofList items).toList = items := by
  simp [toList, ofList]

@[simp]
theorem toList_push (b : Backlog α) (a : α) : (b.push a).toList = b.toList ++ [a] := by
  simp [toList, push]

theorem pop?_eq_none_iff (b : Backlog α) : b.pop? = none ↔ b.toList = [] := by
  obtain ⟨older, newer, length, h⟩ := b
  cases older with
  | cons a older => simp [pop?, toList]
  | nil =>
    simp only [pop?, toList, List.nil_append]
    split <;> simp [*]

theorem toList_of_pop? {b c : Backlog α} {a : α} (h : b.pop? = some (a, c)) :
    b.toList = a :: c.toList := by
  obtain ⟨older, newer, length, hl⟩ := b
  cases older with
  | cons x older =>
    simp only [pop?, Option.some.injEq, Prod.mk.injEq] at h
    obtain ⟨rfl, rfl⟩ := h
    simp [toList]
  | nil =>
    simp only [pop?] at h
    split at h
    · rename_i x older hr
      simp only [Option.some.injEq, Prod.mk.injEq] at h
      obtain ⟨rfl, rfl⟩ := h
      simp [toList, hr]
    · simp at h

end Backlog

end LazyCalc
