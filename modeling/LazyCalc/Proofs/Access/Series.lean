import LazyCalc.Proofs.Access.Remainder
import LazyCalc.Proofs.Desk.Standing
/-!
Series of accesses to one sequence. What each of them finds and leaves is read off what is left of
the sequence; looking for elements and for slices leaves the sequence itself.
-/

namespace LazyCalc

open Filter

open Readers (at?)

namespace Desk

variable {acts : List (Nat × Act)} {desks desks' : List Lone.Desk} {rs : List (Nat × Showing)}

theorem runAlone_append {n : Nat} (h : runAlone n acts desks = some (rs, desks'))
    (acts' : List (Nat × Act)) :
    runAlone n (acts ++ acts') desks =
      (runAlone n acts' desks').map fun r => (rs ++ r.1, r.2) := by
  induction acts generalizing desks rs with
  | nil =>
    obtain ⟨rfl, rfl⟩ := Prod.mk.inj (Option.some.inj h)
    exact Option.map_id_apply.symm
  | cons a acts ih =>
    obtain ⟨k, a⟩ := a
    obtain ⟨reply, desks₁, rs, hact, hrun, rfl⟩ := runAlone_cons.mp h
    change Option.bind (actAt (Drive.alone n) (fun s _ => s) k a desks) _ = _
    rw [hact]
    change Option.bind (runAlone n (acts ++ acts') desks₁) _ = _
    rw [ih hrun]
    cases runAlone n acts' desks' <;> rfl

theorem replies_append (h : Settles (fun n => runAlone n acts desks) (rs, desks'))
    (acts' : List (Nat × Act)) (rs' : List (Nat × Showing)) :
    Replies (acts ++ acts') desks (rs ++ rs') ↔ Replies acts' desks' rs' := by
  refine eventually_congr ?_
  filter_upwards [h] with n hn
  rw [runAlone_append hn, Option.map_map]
  cases runAlone n acts' desks' <;> simp

end Desk

/-- What is done with a sequence that stays on the desk. -/
inductive Access where
  | pull
  | take (count : Nat)
  | index (place : Nat)
  | slice (start stop : Nat)

structure Bench where
  number : Nat
  others : Lone.Desk
  free : others[number]? = some none

namespace Bench

def holding (b : Bench) (s : Lone.Sequence) : Lone.Desk := b.others.set b.number (some (.sequence s))

def put (b : Bench) (items : List Lone.Item) : Bench where
  number := b.others.length
  others := b.others ++ none :: items.map Except.toOption
  free := by simp

def single : Bench := ⟨0, [none], rfl⟩

variable (b : Bench) (s : Lone.Sequence)

theorem take_holding :
    Desk.take [b.number] (b.holding s) = ([.sequence s], b.others) := by
  obtain ⟨hlt, hnone⟩ := List.getElem?_eq_some_iff.mp b.free
  have hat : at? (b.holding s) b.number = some (.sequence s) := by
    rw [holding, at?, List.getElem?_set_self hlt]
    rfl
  have hset : (b.holding s).set b.number none = b.others := by
    rw [holding, List.set_set, ← hnone, List.set_getElem_self]
  rw [Desk.take, hset, hat]
  rfl

theorem put_holding (items : List Lone.Item) :
    Desk.put (.ok (.sequence s) :: items) b.others = (b.put items).holding s := by
  rw [holding, put, List.set_append_right _ _ le_rfl, Nat.sub_self]
  rfl

end Bench

namespace Access

def tool : Access → Tool
  | .pull => .pull
  | .take count => .take count
  | .index place => .index place
  | .slice start stop => .slice start stop

def Looks : Access → Prop
  | .pull | .take _ => False
  | .index _ | .slice _ _ => True

def finds (r : Lone.Remainder) : Access → List Lone.Item
  | .pull => r.first.toList
  | .take count => [r.slice 0 count]
  | .index place => [r.index place]
  | .slice start stop => [r.slice start stop]

def leaves (r : Lone.Remainder) : Access → Lone.Remainder
  | .pull => r.drop 1
  | .take count => r.drop count
  | .index _ | .slice _ _ => r

/-- One access after another, to what is left and wherever the sequence is. -/
def acts : List Access → Lone.Remainder → Bench → List (Nat × Act)
  | [], _, _ => []
  | a :: as, r, b => (0, .use a.tool [b.number]) :: acts as (a.leaves r) (b.put (a.finds r))

def replies (hint : Hint) : List Access → Lone.Remainder → List (Nat × Showing)
  | [], _ => []
  | a :: as, r =>
    (0, .ok (.sequence hint) :: Desk.showing (a.finds r)) :: replies hint as (a.leaves r)

def remainder : List Access → Lone.Remainder → Lone.Remainder
  | [], r => r
  | a :: as, r => remainder as (a.leaves r)

def bench : List Access → Lone.Remainder → Bench → Bench
  | [], _, b => b
  | a :: as, r, b => bench as (a.leaves r) (b.put (a.finds r))

open Lone

variable {r : Remainder} {s : Lone.Sequence}

theorem tells_work (a : Access) (h : Remains s r) :
    ∃ s' texts, Tells (fun n => a.tool.work (Drive.told n) [.sequence s])
        (.ok (.sequence s') :: a.finds r) texts ∧
      Remains s' (a.leaves r) ∧ s'.hint = s.hint ∧ (a.Looks → s' = s) := by
  obtain ⟨c, rfl⟩ := h.exists_course
  cases a with
  | pull =>
    obtain ⟨s', texts, htells, hrest, hhint⟩ := c.tells_pull
    exact ⟨s', _, htells.bind (.pure _), hrest, hhint, False.elim⟩
  | take count =>
    obtain ⟨s', texts, htells, hrest, hhint⟩ := c.tells_takeList count
    exact ⟨s', _, htells.bind (.pure _), hrest, hhint, False.elim⟩
  | index place =>
    obtain ⟨texts, htells⟩ := c.tells_index place
    exact ⟨_, _, htells.bind (.pure _), c.remains, rfl, fun _ => rfl⟩
  | slice start stop =>
    obtain ⟨texts, htells⟩ := c.tells_slice start stop
    exact ⟨_, _, htells.bind (.pure _), c.remains, rfl, fun _ => rfl⟩

theorem tells_acts (as : List Access) (h : Remains s r) (b : Bench) :
    ∃ s' texts, Tells (fun n => Desk.runTold n (acts as r b) [b.holding s])
        (replies s.hint as r, [(bench as r b).holding s']) texts ∧
      Remains s' (remainder as r) ∧ ((∀ a ∈ as, a.Looks) → s' = s) := by
  induction as generalizing s r b with
  | nil => exact ⟨s, _, .pure _, h, fun _ => rfl⟩
  | cons a as ih =>
    obtain ⟨s₁, texts, hwork, hleft, hhint, hlooks⟩ := a.tells_work h
    obtain ⟨s₂, texts', hrun, hrest, hall⟩ := ih hleft (b.put (a.finds r))
    have hact : Tells (fun n => Desk.act (Drive.told n) (fun s _ => s) (.use a.tool [b.number])
        (b.holding s)) (.ok (.sequence s.hint) :: Desk.showing (a.finds r),
          (b.put (a.finds r)).holding s₁) (texts ++ []) := by
      simp only [Desk.act, b.take_holding]
      refine hwork.bind ?_
      rw [← hhint, ← b.put_holding]
      exact .pure _
    have hactAt : Tells (fun n => Desk.actAt (Drive.told n) (fun s _ => s) 0
        (.use a.tool [b.number]) [b.holding s]) (.ok (.sequence s.hint) :: Desk.showing (a.finds r),
          [(b.put (a.finds r)).holding s₁]) (texts ++ [] ++ []) := by
      simp only [Desk.actAt, List.getElem?_cons_zero]
      exact hact.bind (.pure _)
    rw [hhint] at hrun
    refine ⟨s₂, _, hactAt.bind (hrun.bind (.pure _)), hrest, fun hlook => ?_⟩
    rw [hall fun a ha => hlook a (List.mem_cons_of_mem _ ha), hlooks (hlook a List.mem_cons_self)]

end Access

theorem Moment.exists_sequence {M : Moment} {i : Nat} {t : Linked.Sequence}
    (ht : at? M.desk i = some (.sequence t)) :
    ∃ (desk : Twins.Desk) (G : Ledger) (s : Lone.Sequence), left desk = M.desk ∧
      Rests G M.store (parts desk) ∧ (Desk.take [i] (right desk)).1 = [.sequence s] := by
  obtain ⟨desk, G, hdesk, h, -⟩ := M.rests
  have hleft : (at? desk i).map left = some (Tree.sequence t) := by
    rw [← ht, ← hdesk]
    exact (Desk.at?_map left desk i).symm
  obtain ⟨V, hV, hsequence⟩ := Option.map_eq_some_iff.mp hleft
  cases V with
  | scalar x => cases hsequence
  | list ts => cases hsequence
  | sequence S =>
    refine ⟨desk, G, right S, hdesk, h, ?_⟩
    have hat : at? (right desk) i = some (.sequence (right S)) := by
      refine (Desk.at?_map right desk i).trans ?_
      rw [hV]
      rfl
    rw [Desk.take, hat]
    rfl

theorem Moment.exists_stands_sequence {M : Moment} {i : Nat} {t : Linked.Sequence}
    (ht : at? M.desk i = some (.sequence t)) : ∃ s, M.Stands [i] [.sequence s] := by
  obtain ⟨desk, G, s, hdesk, h, hs⟩ := exists_sequence ht
  refine ⟨s, fun acts rs => ?_⟩
  rw [← hs, picked, ← hdesk]
  exact h.yields_picked_iff [i] acts rs

/-- For the lone sequence that stands for one of a moment, every series of accesses finds what is
left of it: elements by their position, slices and lists, or the failure where they meet it. What
comes after is what comes of what the series leaves; looking leaves the sequence as it is, and what
is found lies beside it. -/
theorem Moment.accesses_exact {M : Moment} {number : Nat} {s : Lone.Sequence}
    {r : Lone.Remainder} (hs : M.Stands [number] [.sequence s]) (hr : Lone.Remains s r)
    (as : List Access) :
    ∃ s', Lone.Remains s' (Access.remainder as r) ∧ ((∀ a ∈ as, a.Looks) → s' = s) ∧
      ∀ acts rs, Yields (fun n => Desk.replies n (Access.acts as r .single ++ acts)
          [M.picked [number]]) M.store (Access.replies s.hint as r ++ rs) ↔
        Desk.Replies acts [(Access.bench as r .single).holding s'] rs := by
  obtain ⟨s', texts, htells, hrest, hlooks⟩ := Access.tells_acts as hr .single
  refine ⟨s', hrest, hlooks, fun acts rs => (hs _ _).trans ?_⟩
  exact Desk.replies_append ((Lone.settles_iff (Desk.leads_run _ _) (Desk.silently_run _ _)).mpr
    ⟨texts, htells⟩) acts rs

/-- One of two forks of two elements and a failure, after a pull of the other one. -/
theorem Moment.accesses_exact_forked :
    ∃ (M : Moment) (s : Lone.Sequence) (r : Lone.Remainder),
      M.Stands [4] [.sequence s] ∧ Lone.Remains s r ∧
      Yields (fun n => Desk.replies n [(0, .use (.slice 0 3) [0]), (0, .use (.index 1) [1]),
          (0, .use (.slice 5 9) [3]), (0, .use (.take 1) [5]), (0, .use .pull [7])]
          [M.picked [4]]) M.store
        [(0, [.ok (.sequence .unknown), .error .divisionByZero]),
          (0, [.ok (.sequence .unknown), .ok (.list [.scalar (.integer 2)])]),
          (0, [.ok (.sequence .unknown), .ok (.list [])]),
          (0, [.ok (.sequence .unknown), .ok (.list [.scalar (.integer 1)])]),
          (0, [.ok (.sequence .unknown), .ok (.list [.scalar (.integer 2)])])] := by
  let making : List (Nat × Act) :=
    [(0, .use (.make (.scalar (.integer 1))) []), (0, .use (.make (.scalar (.integer 2))) []),
      (0, .use .list [1]), (0, .use (.elements [none, none, some .divisionByZero] .unknown) [0, 2]),
      (0, .use .fork [3]), (0, .use .pull [5])]
  have hstands := stands_run
    (rfl : Desk.runLinked 2 making [[]] .empty = .ok ((_, [_]), _))
    (Desk.settles_run (rfl : Desk.runAlone 2 making [[]] = some (_, [_]))) [4]
  let items : List Lone.Item :=
    [.ok (.scalar (.integer 1)), .ok (.list [.scalar (.integer 2)]), .error .divisionByZero]
  let rest (k : Nat) : Lone.Sequence := ⟨.direct (.items (items.drop k)), .unknown, false, []⟩
  let r : Lone.Remainder :=
    ⟨fun k => if k = 0 then .scalar (.integer 1) else .list [.scalar (.integer 2)], 2,
      some .divisionByZero⟩
  have hgives (i : Nat) (hi : i < r.length) :
      Settles (fun n => (Drive.alone n).pull (rest i)) (some (.ok (r.element i)), rest (i + 1)) := by
    have hlt : i < 2 := Nat.cast_lt.mp hi
    obtain rfl | rfl : i = 0 ∨ i = 1 := by omega
    · exact Lone.settles_pull (n := 1) rfl
    · exact Lone.settles_pull (n := 1) rfl
  have hremains : Lone.Remains (rest 0) r := by
    refine ⟨rest, rfl, hgives, fun k hk => ?_⟩
    obtain rfl : 2 = k := Nat.cast_inj.mp hk
    exact ⟨_, Lone.settles_pull (n := 1) rfl⟩
  let series : List Access := [.slice 0 3, .index 1, .slice 5 9, .take 1, .pull]
  obtain ⟨s', -, -, hiff⟩ := accesses_exact hstands hremains series
  have hacts : Access.acts series r .single ++ [] = [(0, .use (.slice 0 3) [0]),
      (0, .use (.index 1) [1]), (0, .use (.slice 5 9) [3]), (0, .use (.take 1) [5]),
      (0, .use .pull [7])] := rfl
  have hreplies : Access.replies .unknown series r ++ [] =
      [(0, [.ok (.sequence .unknown), .error .divisionByZero]),
        (0, [.ok (.sequence .unknown), .ok (.list [.scalar (.integer 2)])]),
        (0, [.ok (.sequence .unknown), .ok (.list [])]),
        (0, [.ok (.sequence .unknown), .ok (.list [.scalar (.integer 1)])]),
        (0, [.ok (.sequence .unknown), .ok (.list [.scalar (.integer 2)])])] := rfl
  refine ⟨_, _, r, hstands, hremains, ?_⟩
  rw [← hacts, ← hreplies]
  exact (hiff [] []).mpr (Settles.const _)

end LazyCalc
