import LazyCalc.Proofs.Desk.Standing
import LazyCalc.Proofs.Layers.Calls
/-!
Layers of list around a value, or around elements in it, make no difference to an operator that
broadcasts over the value: what it replies, what it tells, and what shows later of its result.
-/

namespace LazyCalc

open Filter Told

namespace Lone

theorem CameAlike.refl {view : Value → Value} {R : Sequence → Sequence → Prop} (hR : ∀ s, R s s)
    (a : Option Item × Sequence) : CameAlike view R a a := by
  obtain ⟨_ | e | v, s⟩ := a
  · exact .ended (hR s)
  · exact .failed e (hR s)
  · exact .gave (Tree.rel_refl hR _) (hR s)

def enlisted (a : Option Item × Sequence) (hint : Hint) : Option Item × Sequence :=
  (a.1.map (Except.map fun v => .list [v]),
    ⟨.direct (.mapped a.2 .enlist), hint, LazyCalc.Sequence.closes a.1, []⟩)

theorem tells_enlisted {s : Sequence} {a : Option Item × Sequence} {texts : List String}
    (h : Tells (fun n => (Drive.told n).pull s) a texts) (hint : Hint) :
    Tells (fun n => (Drive.told n).pull ⟨.direct (.mapped s .enlist), hint, false, []⟩)
      (enlisted a hint) texts := by
  have hstep : Tells (fun n => (LazyCalc.Source.mapped s .enlist).step (Drive.told n))
      (a.1.map (Except.map fun v => .list [v]), .mapped a.2 .enlist) texts := by
    rw [← List.append_nil texts]
    refine h.bind ?_
    obtain ⟨_ | e | v, s'⟩ := a <;> exact .pure _
  have hpull (n : Nat) :
      (Drive.told (n + 1)).pull ⟨.direct (.mapped s .enlist), hint, false, []⟩ =
        (LazyCalc.Source.mapped s .enlist).step (Drive.told n) >>= fun c =>
          pure (c.1, ⟨.direct c.2, hint, LazyCalc.Sequence.closes c.1, []⟩) := rfl
  refine .succ ?_
  simp only [hpull]
  rw [← List.append_nil texts]
  refine hstep.bind ?_
  obtain ⟨_ | e | v, s'⟩ := a <;> exact .pure _

/-- A sequence, and the same with a list around each of its elements. -/
inductive Enlisted : Sequence → Sequence → Prop
  | same (s : Sequence) : Enlisted s s
  | around (s : Sequence) (finished : Bool) (h : finished = true → s.finished = true) :
    Enlisted s ⟨.direct (.mapped s .enlist), s.hint, finished, []⟩

theorem Enlisted.of_pull {s : Sequence} {a : Option Item × Sequence} {texts : List String}
    (h : Tells (fun n => (Drive.told n).pull s) a texts) :
    CameAlike Tree.strip Enlisted a (enlisted a s.hint) := by
  obtain ⟨hhint, hfinished⟩ := pulled h
  have hrest := Enlisted.around a.2 _ hfinished
  rw [hhint] at hrest
  obtain ⟨_ | e | v, s'⟩ := a
  · exact .ended hrest
  · exact .failed e hrest
  · exact .gave (Tree.rel_refl .same _) hrest

theorem pullsAlike_enlisted : PullsAlike Tree.strip Enlisted := by
  rintro s _ (_ | ⟨finished, hfinished⟩)
  · exact ⟨rfl, fun a _ ha => ⟨a, ha, .refl .same a⟩, fun a _ ha => ⟨a, ha, .refl .same a⟩⟩
  refine ⟨rfl, ?_⟩
  cases finished with
  | true =>
    obtain ⟨origin, hint, finished, hooks⟩ := s
    obtain rfl : finished = true := hfinished rfl
    exact .of_tells (tells_finished ..) (tells_finished ..) (.ended (.around _ true hfinished))
  | false =>
    refine ⟨fun a texts ha => ⟨_, tells_enlisted ha s.hint, Enlisted.of_pull ha⟩, fun b texts hb => ?_⟩
    -- what the sequence around comes to, the one inside has come to before
    obtain ⟨n, hn, hle⟩ := (hb.and (eventually_ge_atTop 2)).exists
    obtain ⟨k, rfl⟩ := Nat.exists_eq_add_of_le' hle
    obtain ⟨⟨c, told⟩, hc, -⟩ := Option.bind_eq_some_iff.mp (hn [])
    obtain ⟨⟨a, told'⟩, ha, -⟩ := Option.bind_eq_some_iff.mp hc
    obtain ⟨_, texts', -, htells, rfl⟩ := pullsStably _ s [] a told' ha
    obtain ⟨rfl, rfl⟩ := (tells_enlisted htells s.hint).unique hb
    exact ⟨a, htells, Enlisted.of_pull htells⟩

theorem Sequence.alike_enlist (s : Sequence) : Alike Tree.strip s (s.mapped .enlist) :=
  ⟨Enlisted, pullsAlike_enlisted, .around s false nofun⟩

end Lone

namespace Desk

/-- Calls an operator on all values of a desk, and goes on with its result. -/
def calling (name : String) (op : Operator) (arity : Nat) (acts : List (Nat × Act)) :
    List (Nat × Act) :=
  (0, .use (.call name op) (List.range arity)) :: acts

theorem runTold_calling (name : String) (op : Operator) (vs : List Lone.Value)
    (acts : List (Nat × Act)) (n : Nat) :
    runTold n (calling name op vs.length acts) [vs.map some] = (do
      let x ← op.call (Drive.told n) name vs
      let (replies, desks) ← runTold n acts [put [x] (List.replicate vs.length none)]
      pure ((0, showing [x]) :: replies, desks)) := by
  simp only [calling, runTold, run, actAt, act, take_range, Tool.work, Tool.single,
    List.getElem?_cons_zero, bind_assoc, LawfulMonad.pure_bind, List.set_cons_zero]

end Desk

theorem Operator.Layered.length_eq {op : Operator} {vs ws : List Lone.Value}
    (h : op.Layered vs ws) : vs.length = ws.length := by
  cases h <;> rfl

namespace Pairs

theorem abreast_calling {op : Operator} {vs ws : List Lone.Value} (h : op.Layered vs ws)
    (name : String) (acts : List (Nat × Act)) (n : Nat) :
    Abreast n
      (fun m => Desk.runTold m (Desk.calling name op vs.length acts) [vs.map some])
      (fun m => Desk.runTold m (Desk.calling name op ws.length acts) [ws.map some])
      fun a b => a.1 = b.1 := by
  simp only [Desk.runTold_calling]
  refine (abreast_call h name n).bind ?_
  rintro _ _ ⟨x, rfl, rfl, hx⟩
  let C := (known n).coupling
  let desk : List (Option (Tree Sequence)) := Desk.put [x] (List.replicate vs.length none)
  have hleft : Desk.put [left x] (List.replicate vs.length none) = (left desk : Lone.Desk) := by
    have := Desk.put_map (left : Value → Lone.Value) [x] (List.replicate vs.length none)
    rwa [List.map_replicate] at this
  have hright : Desk.put [right x] (List.replicate ws.length none) = (right desk : Lone.Desk) := by
    have := Desk.put_map (right : Value → Lone.Value) [x] (List.replicate vs.length none)
    rw [List.map_replicate] at this
    rwa [← h.length_eq]
  have hparts : (parts desk : Parts) = parts x := by
    have hgone : (parts (List.replicate vs.length none : List (Option (Tree Sequence))) : Parts) = 0 := by
      change (List.map parts (List.replicate vs.length none)).sum = 0
      rw [List.map_replicate, List.sum_replicate]
      exact nsmul_zero _
    rw [Desk.parts_put, hgone, add_zero, parts_items_cons, parts_items_nil, add_zero]
  have hrun : C.Triple (List (Nat × Showing) × List (List (Option (Tree Sequence)))) (parts [x] + 0)
      (fun m => do
        let (replies, desks) ← Desk.runTold m acts [Desk.put [left x] (List.replicate vs.length none)]
        pure ((0, Desk.showing [left x]) :: replies, desks))
      (fun m => do
        let (replies, desks) ← Desk.runTold m acts [Desk.put [right x] (List.replicate ws.length none)]
        pure ((0, Desk.showing [right x]) :: replies, desks)) 0 := by
    refine C.outlinedItems [x] fun hshowing => ?_
    rw [hleft, hright, show Desk.showing [left x] = Desk.showing [right x] from hshowing]
    refine C.bind 0 (C.runDesks acts [desk]) ?_ ?_
    · rw [parts_desks_cons, parts_desks_nil, hparts]
      simp
    rintro ⟨replies, desks⟩
    exact C.pure (((0, Desk.showing [right x]) :: replies, desks) :
      List (Nat × Showing) × List (List (Option (Tree Sequence)))) (by simp [parts_replies])
  obtain hrun := hrun (by simpa using hx)
  refine hrun.mono ?_
  rintro _ _ ⟨c, rfl, rfl, -⟩
  rfl

end Pairs

/-- An operator does the same for arguments that are alike but for layers around them and around
elements in them: whatever is done with its result, the replies are the same, and so are the calls
of its kernel and their order; the replies are the same also where the arguments share what they
read with other sequences. -/
theorem Operator.layers_unseen {op : Operator} {vs ws : List Lone.Value} (h : op.Layered vs ws)
    (name : String) (acts : List (Nat × Act)) :
    TellAlike (fun n => Desk.runTold n (Desk.calling name op vs.length acts) [vs.map some])
        (fun n => Desk.runTold n (Desk.calling name op ws.length acts) [ws.map some])
        (fun a b => a.1 = b.1) ∧
      ∀ (M M' : Moment) (numbers numbers' : List Nat), M.Stands numbers vs →
        M'.Stands numbers' ws → ∀ rs : List (Nat × Showing),
        Yields (fun n => Desk.replies n (Desk.calling name op vs.length acts) [M.picked numbers])
            M.store rs ↔
          Yields (fun n => Desk.replies n (Desk.calling name op ws.length acts) [M'.picked numbers'])
            M'.store rs := by
  have hrun := TellAlike.of_abreast (Pairs.abreast_calling h name acts)
  refine ⟨hrun, fun M M' numbers numbers' hvs hws rs => ?_⟩
  rw [hvs, hws]
  exact Desk.replies_congr hrun rs

/-- A sequence of two numbers and a number are added; at another moment there is a list around each
number of the sequence, two lists around the sequence and one around the number. -/
theorem Operator.layers_unseen_nested :
    let d : Draft := .counted (.bySum (.integer 1) (.integer 1) 2)
    let op : Operator := .twoArg (fun x y => .ofScalar (x.add y)) 8
    let vs : List Lone.Value := [.sequence (.ofDraft d), .scalar (.integer 5)]
    let ws : List Lone.Value := [.list [.list [.sequence ((Sequence.ofDraft d).mapped .enlist)]],
      .list [.scalar (.integer 5)]]
    let acts : List (Nat × Act) := [(0, .use .pull [2])]
    op.Layered vs ws ∧
      TellAlike (fun n => Desk.runTold n (Desk.calling "+" op 2 acts) [vs.map some])
        (fun n => Desk.runTold n (Desk.calling "+" op 2 acts) [ws.map some])
        (fun a b => a.1 = b.1) ∧
      ∃ M M' : Moment, M.Stands [0, 1] vs ∧ M'.Stands [3, 5] ws ∧ ∀ rs : List (Nat × Showing),
        Yields (fun n => Desk.replies n (Desk.calling "+" op 2 acts) [M.picked [0, 1]]) M.store rs ↔
          Yields (fun n => Desk.replies n (Desk.calling "+" op 2 acts) [M'.picked [3, 5]])
            M'.store rs := by
  intro d op vs ws acts
  have h : op.Layered vs ws := .twoArg _ 8 (Lone.Sequence.alike_enlist _) rfl
  have hunseen := layers_unseen h "+" acts
  let making : List (Nat × Act) := [(0, .use (.make (.sequence d)) []),
    (0, .use (.make (.scalar (.integer 5))) [])]
  let layering : List (Nat × Act) :=
    [(0, .use (.make (.sequence d)) []), (0, .use (.mapped .enlist) [0]), (0, .use .list [1]),
      (0, .use .list [2]), (0, .use (.make (.scalar (.integer 5))) []), (0, .use .list [4])]
  have hM := Moment.stands_run
    (rfl : Desk.runLinked 0 making [[]] .empty = .ok ((_, [_]), _)) (Settles.const _) [0, 1]
  have hM' := Moment.stands_run
    (rfl : Desk.runLinked 0 layering [[]] .empty = .ok ((_, [_]), _)) (Settles.const _) [3, 5]
  exact ⟨h, hunseen.1, _, _, hM, hM', hunseen.2 _ _ _ _ hM hM'⟩

end LazyCalc
