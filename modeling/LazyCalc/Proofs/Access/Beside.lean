import LazyCalc.Proofs.Access.Series
import LazyCalc.Proofs.Collections.Undisturbed
import LazyCalc.Proofs.Desk.Behind
import LazyCalc.Proofs.Layers.Unseen
/-!
Operators that are called on a value of a moment with further values made beside it: what comes of
the call, whatever is done with it then, and what comes of its elements on desks of their own.
-/

namespace LazyCalc

open Filter

open Readers (at?)

namespace Desk

def making (ts : List Plain) : List (Nat × Act) := ts.map fun t => (0, .use (.make (.ofPlain t)) [])

def made (ts : List Plain) : List (Nat × Showing) := ts.map fun t => (0, [.ok (.ofPlain t)])

theorem runAlone_making (n : Nat) (ts : List Plain) (desk : Lone.Desk) :
    runAlone n (making ts) [desk] =
      some (made ts, [desk ++ ts.map fun t => some (.ofPlain t)]) := by
  induction ts generalizing desk with
  | nil =>
    rw [List.map_nil, List.append_nil]
    rfl
  | cons t ts ih =>
    have hact : actAt (Drive.alone n) (fun s _ => s) 0 (.use (.make (.ofPlain t)) []) [desk] =
        some ([.ok (.ofPlain t)], [desk ++ [some (.ofPlain t)]]) := by
      have hmake : actAt (Drive.alone n) (fun s _ => s) 0 (.use (.make (.ofPlain t)) []) [desk] =
          (some (.ok (.ofTemplate (.ofPlain t))) : Option Lone.Item).map fun x =>
            (showing [x], [put [x] (take [] desk).2]) := actAt_single rfl
      rwa [Value.ofTemplate, Tree.map_ofPlain, Option.map_some, showing, List.map_singleton,
        Except.map, Value.outline, Tree.map_ofPlain] at hmake
    have hrest := ih (desk ++ [some (.ofPlain t)])
    rw [List.append_assoc] at hrest
    exact runAlone_cons.mpr ⟨_, _, _, hact, hrest, rfl⟩

theorem settles_calling {name : String} {op : Operator} {vs : List Lone.Value} {x : Lone.Item}
    (h : Settles (fun n => op.call (Drive.alone n) name vs) x) :
    Settles (fun n => runAlone n (calling name op vs.length []) [vs.map some])
      ([(0, showing [x])], [put [x] (List.replicate vs.length none)]) := by
  filter_upwards [h] with n hn
  have htake : (take (List.range vs.length) (vs.map some)).1 = vs := by rw [take_range]
  have hact : actAt (Drive.alone n) (fun s _ => s) 0
      (.use (.call name op) (List.range vs.length)) [vs.map some] = (some x).map fun x =>
        (showing [x], [put [x] (take (List.range vs.length) (vs.map some)).2]) :=
    actAt_single (by rw [htake, ← hn]; rfl)
  rw [take_range] at hact
  exact runAlone_cons.mpr ⟨_, _, _, hact, rfl, rfl⟩

end Desk

theorem parts_desk_plain (ts : List Plain) :
    (parts (ts.map fun t => some (.ofPlain t) : Twins.Desk) : Twins.Parts) = 0 := by
  induction ts with
  | nil => rfl
  | cons t ts ih =>
    refine List.sum_cons.trans ?_
    exact (congrArg₂ (· + ·) (parts_ofPlain t) ih).trans (add_zero 0)

namespace Moment

variable {M : Moment} {number : Nat}

/-- A call of an operator on the value of a number and on plain values gives an item: whatever is
done then, the replies are those of a lone desk with the item. -/
def Gives (M : Moment) (number : Nat) (op : Operator) (ts : List Plain) (x : Lone.Item) : Prop :=
  ∀ (name : String) (acts : List (Nat × Act)) (rs : List (Nat × Showing)),
    Yields (fun n => Desk.replies n (Desk.making ts ++ Desk.calling name op (ts.length + 1) acts)
        [M.picked [number]]) M.store (Desk.made ts ++ (0, Desk.showing [x]) :: rs) ↔
      Desk.Replies acts [Desk.put [x] (List.replicate (ts.length + 1) none)] rs

theorem gives_of_settles {v : Lone.Value} (hv : M.Stands [number] [v]) {op : Operator}
    {ts : List Plain} {x : Lone.Item}
    (h : ∀ name, Settles (fun n => op.call (Drive.alone n) name (v :: ts.map .ofPlain)) x) :
    M.Gives number op ts x := by
  intro name acts rs
  have hmaking : Settles (fun n => Desk.runAlone n (Desk.making ts) [[some v]])
      (Desk.made ts, [[some v] ++ ts.map fun t => some (.ofPlain t)]) :=
    .of_forall fun n => Desk.runAlone_making n ts [some v]
  have hcalling := Desk.settles_calling (h name)
  rw [List.length_cons, List.length_map, List.map_cons, List.map_map] at hcalling
  exact ((hv _ _).trans (Desk.replies_append hmaking _ _)).trans
    (Desk.replies_append hcalling acts rs)

theorem Gives.replies_iff {op : Operator} {ts : List Plain} {v v' : Lone.Value}
    (h₁ : M.Gives number op ts (.ok v)) (h₂ : M.Gives number op ts (.ok v'))
    (acts : List (Nat × Act)) (rs : List (Nat × Showing)) :
    Desk.Replies acts [[some v]] rs ↔ Desk.Replies acts [[some v']] rs := by
  have hshows : Desk.made ts ++ [(0, Desk.showing [.ok v])] =
      Desk.made ts ++ [(0, Desk.showing [.ok v'])] :=
    ((h₁ "" [] []).mpr (Settles.const _)).unique ((h₂ "" [] []).mpr (Settles.const _))
  obtain ⟨-, hshowing⟩ := Prod.mk.inj (List.cons.inj (List.append_cancel_left hshows)).1
  let behind : List (Nat × Act) := acts.map fun a => (a.1, a.2.behind (ts.length + 1))
  have hcall := h₁ "" behind rs
  rw [hshowing] at hcall
  calc Desk.Replies acts [[some v]] rs
    _ ↔ Desk.Replies behind [Desk.put [.ok v] (List.replicate (ts.length + 1) none)] rs :=
      (Desk.replies_behind (ts.length + 1) acts [[some v]] rs).symm
    _ ↔ Desk.Replies behind [Desk.put [.ok v'] (List.replicate (ts.length + 1) none)] rs :=
      hcall.symm.trans (h₂ "" behind rs)
    _ ↔ Desk.Replies acts [[some v']] rs :=
      Desk.replies_behind (ts.length + 1) acts [[some v']] rs

def beside (M : Moment) (number : Nat) (ts : List Plain) : Linked.Desk :=
  M.picked [number] ++ ts.map fun t => some (.ofPlain t)

theorem exists_apart_beside {t : Linked.Sequence} (ht : at? M.desk number = some (.sequence t)) :
    ∃ s, M.Stands [number] [.sequence s] ∧
      ∀ (ts : List Plain) (name : String) (op : Operator) (acts : List (Nat × Act))
        (out : Except Failure (List (Nat × Showing))),
        Yields (fun n => Prod.fst <$> Desk.apart (Drive.ofFuel n) Sequence.onClose name op
            (List.range (ts.length + 1)) acts (M.beside number ts)) M.store out ↔
          Desk.ShowsApart (fun n => op.call (Drive.alone n) name (.sequence s :: ts.map .ofPlain))
            (List.replicate (ts.length + 1) none) acts out := by
  obtain ⟨desk, G, s, hdesk, h, hs⟩ := exists_sequence ht
  refine ⟨s, fun acts rs => ?_, fun ts name op acts out => ?_⟩
  · rw [← hs, picked, ← hdesk]
    exact h.yields_picked_iff [number] acts rs
  · obtain ⟨taken, B, hl, hr, hrest⟩ := h.exists_picked [number]
    let plain : Twins.Desk := ts.map fun t => some (.ofPlain t)
    have hleft : left (taken ++ plain) = M.beside number ts := by
      refine List.map_append.trans (congrArg₂ (· ++ ·) ?_ ?_)
      · rw [picked, ← hdesk]
        exact hl
      · rw [List.map_map]
        exact List.map_congr_left fun t _ => congrArg some (Tree.map_ofPlain left t)
    have hright : right (taken ++ plain) = (Tree.sequence s :: ts.map .ofPlain).map some := by
      have htaken := hr.trans (congrArg (List.map some) hs)
      refine List.map_append.trans (congrArg₂ (· ++ ·) htaken ?_ : _ = [_] ++ _)
      rw [List.map_map, List.map_map]
      exact List.map_congr_left fun t _ => congrArg some (Tree.map_ofPlain right t)
    have hparts : (parts (taken ++ plain) : Twins.Parts) + B = parts taken + B := by
      rw [parts_desk_append, parts_desk_plain, add_zero]
    have hrests : Rests G M.store (parts (taken ++ plain) + B) := hrest.congr hparts.symm
    have happly := hrests.yields_apart_iff hright name op acts out
    rwa [List.length_cons, List.length_map, hleft] at happly

end Moment

end LazyCalc
