import LazyCalc.Proofs.Desk.Duplicates
import LazyCalc.Proofs.Partition.Sides
/-!
A sequence split in two forks, one filtered by a test and the other by its opposite: the two results
part the sequence between them, in whatever order they are pulled.
-/

namespace LazyCalc

open Readers (at?)

theorem Coupling.sequence {m₁ m₂ : Type → Type} [Monad m₁] [Monad m₂] {ρ₁ κ₁ ρ₂ κ₂ σ κ : Type}
    [Paired σ (Sequence ρ₁ κ₁) (Sequence ρ₂ κ₂)] [Paired κ κ₁ κ₂]
    (C : Coupling m₁ m₂ ρ₁ κ₁ ρ₂ κ₂ σ κ) (source : Source σ κ) (hint : Hint) :
    C.Triple σ (parts source) (fun _ => pure (.ofSource (left source) hint))
      (fun _ => pure (.ofSource (right source) hint)) 0 := by
  refine C.of_eq (C.made (A := 0) source hint ?_) (by simp) rfl
  rw [← C.left_make, ← C.right_make]
  exact C.pure (C.make source hint) (by simp)

def Sequence.parted (s : Linked.Sequence) (test : Outline → Except Failure Bool)
    (acts : List (Nat × Act)) (n : Nat) : Engine (List (Nat × Showing) × List Linked.Desk) := do
  let (s, t) ← (Drive.ofFuel n).fork s
  let kept := s.filtered test [] false
  let rest := t.filtered test [] true
  Desk.runLinked n acts [[some (.sequence kept)], [some (.sequence rest)]]

namespace Lone

def sides (s : Sequence) (test : Outline → Except Failure Bool) : List Desk :=
  [[some (.sequence (s.side test true))], [some (.sequence (s.side test false))]]

end Lone

section

variable {G : Ledger} {st : Store} {B : Twins.Parts} {S : Twins.Sequence}

theorem Coupling.parted {m₁ m₂ : Type → Type} [Monad m₁] [Monad m₂] {ρ₁ κ₁ ρ₂ κ₂ σ κ : Type}
    [Paired σ (Sequence ρ₁ κ₁) (Sequence ρ₂ κ₂)] [Paired κ κ₁ κ₂]
    (C : Coupling m₁ m₂ ρ₁ κ₁ ρ₂ κ₂ σ κ) (s : σ) (test : Outline → Except Failure Bool) :
    C.Triple (σ × σ) (parts s)
      (fun n => do
        let (s, t) ← (C.first n).fork (left s)
        let kept ← pure (s.filtered test [] false)
        let rest ← pure (t.filtered test [] true)
        pure (kept, rest))
      (fun n => do
        let (s, t) ← (C.second n).fork (right s)
        let kept ← pure (s.filtered test [] false)
        let rest ← pure (t.filtered test [] true)
        pure (kept, rest)) 0 := by
  refine C.bind 0 (C.fork s) (by simp) ?_
  rintro ⟨s, t⟩
  refine C.bind (parts t) (C.sequence (.filtered s test [] false) .unknown) (by simp) fun kept => ?_
  refine C.bind (parts kept) (C.sequence (.filtered t test [] true) .unknown) (by simp [add_comm])
    fun rest => ?_
  exact C.pure (kept, rest) (by simp [add_comm])

theorem Rests.concord_parted (h : Rests G st (parts S + B)) (test : Outline → Except Failure Bool)
    (acts : List (Nat × Act)) (n : Nat) :
    Concord false (List (Nat × Showing) × List Twins.Desk) n G.book (fun c => Desk.registered acts c.1) B
      ((left S : Linked.Sequence).parted test acts n st)
      (fun m => Desk.runAlone m acts (Lone.sides (right S) test)) := by
  have hsplit := h.concord (Logic.frame _ B ((agreeing n (pullsAgree n)).parted S test))
  have hrun : Concord false (List (Nat × Showing) × List Twins.Desk) n G.book
      (fun c => Desk.registered acts c.1) B
      ((do
        let (kept, rest) ← (do
          let (s, t) ← (Drive.ofFuel n).fork (left S)
          let kept ← pure (s.filtered test [] false)
          let rest ← pure (t.filtered test [] true)
          pure (kept, rest))
        Desk.runLinked n acts [[some (.sequence kept)], [some (.sequence rest)]]) st)
      (fun m => (do
        let (kept, rest) ← (do
          let (s, t) ← (Drive.alone m).fork (right S)
          let kept ← pure (s.filtered test [] false)
          let rest ← pure (t.filtered test [] true)
          pure (kept, rest))
        Desk.runAlone m acts [[some (.sequence kept)], [some (.sequence rest)]])) := by
    refine hsplit.bind fun c G' st' h' hG => ?_
    obtain ⟨kept, rest⟩ := c
    have hrest :
        Rests G' st' (parts [[some (Tree.sequence kept)], [some (.sequence rest)]] + B) := by
      refine h'.congr ?_
      rw [parts_pair, parts_desks_cons, parts_desks_cons, parts_desks_nil, parts_desk_singleton,
        parts_desk_singleton, add_zero, zero_add]
      rfl
    exact (hrest.run n acts).after hG
  simp only [bind_assoc, pure_bind] at hrun
  exact hrun

theorem Rests.yields_parted_iff (h : Rests G st (parts S + B))
    (test : Outline → Except Failure Bool) (acts : List (Nat × Act)) (rs : List (Nat × Showing)) :
    Yields (fun n => Prod.fst <$> (left S : Linked.Sequence).parted test acts n) st rs ↔
      rs.map Prod.fst = acts.map Prod.fst ∧
        ∀ k, Desk.Replies (own k acts) (Desk.only k (Lone.sides (right S) test)) (own k rs) :=
  (Concord.yields_iff (h.concord_parted test acts) (fun _ => rfl) rs).trans Desk.replies_iff_own

end

/-- The results of a test and of its opposite part a sequence between them, in any order in which
they are used. Each gives what it gives by itself; and that is, for any number of pulls, its own of
the elements that the test decides, in their order, and then what the sequence or the test stops
with, the same for both, and nothing more. -/
theorem Moment.sides_part (M : Moment) {number : Nat} {t : Linked.Sequence}
    (ht : at? M.desk number = some (.sequence t)) (test : Outline → Except Failure Bool) :
    ∃ s : Lone.Sequence, M.Stands [number] [.sequence s] ∧
      (∀ (acts : List (Nat × Act)) (rs : List (Nat × Showing)),
        Yields (fun n => Prod.fst <$> t.parted test acts n) M.store rs ↔
          rs.map Prod.fst = acts.map Prod.fst ∧
            ∀ k, Desk.Replies (own k acts) (Desk.only k (Lone.sides s test)) (own k rs)) ∧
      ∀ (kept : Bool) (ys : List (Option Lone.Item)),
        (Lone.Draws (s.side test kept) ys ↔ Lone.Portion test s kept ys) ∧
        (Lone.Draws (s.side test kept) ys →
          Desk.Replies (Lone.Draws.acts ys .single) [[some (.sequence (s.side test kept))]]
            (Lone.Draws.replies .unknown ys)) := by
  obtain ⟨desk, V, G, hdesk, hleft, hV, h⟩ := Moment.rests_of_at? ht
  cases V with
  | scalar x => cases hleft
  | list ts => cases hleft
  | sequence S =>
    obtain rfl : left S = t := Tree.sequence.inj hleft
    have hat : at? (right desk) number = some (.sequence (right S)) :=
      (Desk.at?_map right desk number).trans (congrArg _ hV)
    have hright : (Desk.take [number] (right desk)).1 = [.sequence (right S)] := by
      rw [Desk.take, hat]
      rfl
    refine ⟨right S, fun acts rs => ?_, fun acts rs => ?_, fun kept ys => ⟨?_, fun hdraws => ?_⟩⟩
    · rw [← hright, picked, ← hdesk]
      exact Rests.yields_picked_iff (h.congr (parts_desk_at hV).symm) [number] acts rs
    · exact Rests.yields_parted_iff h test acts rs
    · exact Lone.draws_side_iff
    · obtain ⟨s', hrun⟩ := hdraws.settles_acts .single
      filter_upwards [hrun] with n hn
      exact congrArg (Option.map Prod.fst) hn

def Outline.oddness : Outline → Except Failure Bool
  | .scalar (.integer i) => .ok (i % 2 == 1)
  | _ => .error .divisionByZero

/-- Two integers, a list, which the test fails on, and a failure after it are taken apart into the
odd and the other integers. -/
theorem Moment.sides_part_odd :
    ∃ (M : Moment) (t : Linked.Sequence) (test : Outline → Except Failure Bool),
      at? M.desk 4 = some (.sequence t) ∧ test (.list []) = .error .divisionByZero ∧
      ∃ s : Lone.Sequence, M.Stands [4] [.sequence s] ∧
        ∀ kept ys, Lone.Draws (s.side test kept) ys ↔ Lone.Portion test s kept ys := by
  let acts : List (Nat × Act) :=
    [(0, .use (.make (.scalar (.integer 1))) []), (0, .use (.make (.scalar (.integer 2))) []),
      (0, .use (.make (.scalar (.integer 3))) []), (0, .use .list [1]),
      (0, .use (.elements [none, none, none, some .divisionByZero] .unknown) [0, 2, 3])]
  let t : Linked.Sequence := .ofItems [.ok (.scalar (.integer 1)), .ok (.scalar (.integer 3)),
    .ok (.list [.scalar (.integer 2)]), .error .divisionByZero] .unknown
  let desk : Linked.Desk := [none, none, none, none, some (.sequence t)]
  let M : Moment := ⟨_, desk, .empty, .run 0 acts .start rfl⟩
  have hat : at? M.desk 4 = some (.sequence t) := rfl
  obtain ⟨s, hs, -, hsides⟩ := M.sides_part hat Outline.oddness
  exact ⟨M, t, Outline.oddness, rfl, rfl, s, hs, fun kept ys => (hsides kept ys).1⟩

end LazyCalc
