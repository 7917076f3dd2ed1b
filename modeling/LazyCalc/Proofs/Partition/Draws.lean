import LazyCalc.Proofs.Access.Series
/-!
What comes of a lone sequence in its first pulls, one after another, ends and failures included, and
how that shows on a desk where the sequence is pulled.
-/

namespace LazyCalc

open Filter

namespace Lone

/-- What the first pulls of a sequence come to. -/
inductive Draws : Sequence → List (Option Item) → Prop
  | nil (s : Sequence) : Draws s []
  | cons {s s' : Sequence} {x : Option Item} {xs : List (Option Item)}
    (h : Settles (fun n => (Drive.alone n).pull s) (x, s')) (hrest : Draws s' xs) :
    Draws s (x :: xs)

def given (vs : List Value) : List (Option Item) := vs.map fun v => some (.ok v)

namespace Draws

variable {s s' : Sequence} {x : Option Item} {xs : List (Option Item)}

theorem cons_iff (h : Settles (fun n => (Drive.alone n).pull s) (x, s')) {y : Option Item} :
    Draws s (y :: xs) ↔ y = x ∧ Draws s' xs := by
  constructor
  · intro hdraws
    cases hdraws with
    | cons h' hrest =>
      obtain ⟨rfl, rfl⟩ := Prod.mk.inj (h'.unique h)
      exact ⟨rfl, hrest⟩
  · rintro ⟨rfl, hrest⟩
    exact .cons h hrest

theorem settles_finished (h : s.finished = true) :
    Settles (fun n => (Drive.alone n).pull s) (none, s) := by
  obtain ⟨origin, hint, finished, hooks⟩ := s
  obtain rfl : finished = true := h
  exact settles_pull_iff.mpr ⟨[], tells_finished origin hint hooks⟩

theorem finished_iff (h : s.finished = true) :
    Draws s xs ↔ ∃ k, xs = List.replicate k none := by
  constructor
  · intro hdraws
    induction xs with
    | nil => exact ⟨0, rfl⟩
    | cons x xs ih =>
      obtain ⟨rfl, hrest⟩ := (cons_iff (settles_finished h)).mp hdraws
      obtain ⟨k, rfl⟩ := ih hrest
      exact ⟨k + 1, rfl⟩
  · rintro ⟨k, rfl⟩
    induction k with
    | zero => exact .nil s
    | succ k ih => exact .cons (settles_finished h) ih

theorem hint_eq (h : Settles (fun n => (Drive.alone n).pull s) (x, s')) : s'.hint = s.hint := by
  obtain ⟨texts, htells⟩ := settles_pull_iff.mp h
  exact (pulled htells).1

def acts : List (Option Item) → Bench → List (Nat × Act)
  | [], _ => []
  | x :: xs, b => (0, .use .pull [b.number]) :: acts xs (b.put x.toList)

def replies (hint : Hint) (xs : List (Option Item)) : List (Nat × Showing) :=
  xs.map fun x => (0, .ok (.sequence hint) :: Desk.showing x.toList)

def bench : List (Option Item) → Bench → Bench
  | [], b => b
  | x :: xs, b => bench xs (b.put x.toList)

theorem settles_act (h : Settles (fun n => (Drive.alone n).pull s) (x, s')) (b : Bench) :
    Settles (fun n => Desk.actAt (Drive.alone n) (fun s _ => s) 0 (.use .pull [b.number])
        [b.holding s])
      (.ok (.sequence s.hint) :: Desk.showing x.toList, [(b.put x.toList).holding s']) := by
  have hwork : Settles (fun n => Tool.pull.work (Drive.alone n) [.sequence s])
      (.ok (.sequence s') :: x.toList) := h.bind (.const _)
  have hact : Settles (fun n => Desk.act (Drive.alone n) (fun s _ => s) (.use .pull [b.number])
      (b.holding s)) (.ok (.sequence s.hint) :: Desk.showing x.toList,
        (b.put x.toList).holding s') := by
    simp only [Desk.act, b.take_holding]
    rw [← hint_eq h, ← b.put_holding]
    exact hwork.bind (.const _)
  simp only [Desk.actAt, List.getElem?_cons_zero]
  exact hact.bind (.const _)

theorem settles_acts (h : Draws s xs) (b : Bench) :
    ∃ s', Settles (fun n => Desk.runAlone n (acts xs b) [b.holding s])
      (replies s.hint xs, [(bench xs b).holding s']) := by
  induction h generalizing b with
  | nil s => exact ⟨s, .const _⟩
  | @cons s s' x xs hpull hrest ih =>
    obtain ⟨s'', hrun⟩ := ih (b.put x.toList)
    rw [hint_eq hpull] at hrun
    exact ⟨s'', (settles_act hpull b).bind (hrun.bind (.const _))⟩

end Draws

end Lone

end LazyCalc
