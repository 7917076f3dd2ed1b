import LazyCalc.Proofs.Desk.Separate
/-!
Runs over a desk behind places that are empty: they give what they give without these, with other
numbers for the values.
-/

namespace LazyCalc

open Readers (at?)

def Act.behind (k : Nat) : Act → Act
  | .use tool numbers => .use tool (numbers.map (k + ·))
  | .onClose number label => .onClose (k + number) label

namespace Desk

section

variable {α : Type} (k : Nat) (desk : List (Option α))

theorem at?_behind (i : Nat) : at? (List.replicate k none ++ desk) (k + i) = at? desk i := by
  rw [at?, List.getElem?_append_right (by simp), List.length_replicate, Nat.add_sub_cancel_left]
  rfl

theorem set_behind (i : Nat) (a : Option α) :
    (List.replicate k none ++ desk).set (k + i) a = List.replicate k none ++ desk.set i a := by
  rw [List.set_append_right _ _ (by simp), List.length_replicate, Nat.add_sub_cancel_left]

theorem take_behind (is : List Nat) :
    take (is.map (k + ·)) (List.replicate k none ++ desk) =
      ((take is desk).1, List.replicate k none ++ (take is desk).2) := by
  induction is generalizing desk with
  | nil => rfl
  | cons i is ih => simp only [List.map_cons, take, at?_behind, set_behind, ih]

end

def behind (k : Nat) (desk : Lone.Desk) : Lone.Desk := List.replicate k none ++ desk

variable (n k : Nat)

theorem act_behind (a : Act) (desk : Lone.Desk) :
    act (Drive.alone n) (fun s _ => s) (a.behind k) (behind k desk) =
      (act (Drive.alone n) (fun s _ => s) a desk).map fun c => (c.1, behind k c.2) := by
  cases a with
  | use tool numbers =>
    simp only [Act.behind, act, behind, take_behind]
    change Option.bind (tool.work (Drive.alone n) (take numbers desk).1) _ =
      (Option.bind (tool.work (Drive.alone n) (take numbers desk).1) _).map _
    cases tool.work (Drive.alone n) (take numbers desk).1 with
    | none => rfl
    | some items =>
      exact congrArg (fun rest => some (showing items, rest)) (List.append_assoc _ _ _)
  | onClose number label =>
    simp only [Act.behind, act, behind, at?_behind, set_behind]
    cases at? desk number <;> rfl

theorem actAt_behind (j : Nat) (a : Act) (desks : List Lone.Desk) :
    actAt (Drive.alone n) (fun s _ => s) j (a.behind k) (desks.map (behind k)) =
      (actAt (Drive.alone n) (fun s _ => s) j a desks).map fun c =>
        (c.1, c.2.map (behind k)) := by
  rw [actAt, actAt, List.getElem?_map]
  cases desks[j]? with
  | none => rfl
  | some desk =>
    rw [Option.map_some]
    change Option.bind (act _ _ _ _) _ = (Option.bind (act _ _ _ _) _).map _
    rw [act_behind]
    cases act (Drive.alone n) (fun s _ => s) a desk with
    | none => rfl
    | some c => exact congrArg (fun rest => some (c.1, rest)) List.map_set.symm

theorem runAlone_behind (acts : List (Nat × Act)) (desks : List Lone.Desk) :
    runAlone n (acts.map fun a => (a.1, a.2.behind k)) (desks.map (behind k)) =
      (runAlone n acts desks).map fun c => (c.1, c.2.map (behind k)) := by
  induction acts generalizing desks with
  | nil => rfl
  | cons a acts ih =>
    obtain ⟨j, a⟩ := a
    change Option.bind (actAt _ _ _ _ _) _ = (Option.bind (actAt _ _ _ _ _) _).map _
    rw [actAt_behind]
    cases actAt (Drive.alone n) (fun s _ => s) j a desks with
    | none => rfl
    | some c =>
      change Option.bind (runAlone n _ _) _ = (Option.bind (runAlone n acts c.2) _).map _
      rw [ih]
      cases runAlone n acts c.2 <;> rfl

theorem replies_behind (acts : List (Nat × Act)) (desks : List Lone.Desk)
    (rs : List (Nat × Showing)) :
    Replies (acts.map fun a => (a.1, a.2.behind k)) (desks.map (behind k)) rs ↔
      Replies acts desks rs := by
  have hrun (n : Nat) :
      (runAlone n (acts.map fun a => (a.1, a.2.behind k)) (desks.map (behind k))).map Prod.fst =
        (runAlone n acts desks).map Prod.fst := by
    rw [runAlone_behind, Option.map_map]
    rfl
  simp only [Replies, hrun]

end Desk

end LazyCalc
