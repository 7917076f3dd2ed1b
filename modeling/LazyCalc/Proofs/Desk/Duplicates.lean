import LazyCalc.Proofs.Desk.Moments
/-!
A duplicate and its original go their own ways: whatever is done to the one in between, the other
gives what it would have given had there never been a duplicate.
-/

namespace LazyCalc

open Readers (at?)

namespace Moment

/-- Duplicates the value `v` with the number `i`. The duplicate lies on a desk of its own, and the
run goes on with both desks. -/
def duplicated (M : Moment) (i : Nat) (v : Linked.Value) (acts : List (Nat × Act)) (n : Nat) :
    Engine (List (Nat × Showing) × List Linked.Desk) := do
  let (v, w) ← (Drive.ofFuel n).copy v
  Desk.runLinked n acts [M.desk.set i (some v), [some w]]

end Moment

theorem Desk.replies_single (n : Nat) (a : Act) (desk : Lone.Desk) :
    (runAlone n [(0, a)] [desk]).map Prod.fst =
      (act (Drive.alone n) (fun s _ => s) a desk).map fun r => [(0, r.1)] := by
  change (Option.bind (Option.bind (act (Drive.alone n) (fun s _ => s) a desk) _) _).map _ = _
  cases act (Drive.alone n) (fun s _ => s) a desk <;> rfl

theorem Desk.act_use {desk : Lone.Desk} {i : Nat} {v : Lone.Value} (h : at? desk i = some v)
    (tool : Tool) (n : Nat) :
    (act (Drive.alone n) (fun s _ => s) (.use tool [i]) desk).map (fun r => [(0, r.1)]) =
      (tool.work (Drive.alone n) [v]).map fun items => [((0 : Nat), showing items)] := by
  simp only [act, take, h]
  change (Option.bind (tool.work (Drive.alone n) [v]) _).map _ = _
  cases tool.work (Drive.alone n) [v] <;> rfl

theorem Desk.replies_use_iff {desk : Lone.Desk} {i : Nat} {v : Lone.Value} (h : at? desk i = some v)
    (tool : Tool) (rs : List (Nat × Showing)) :
    Replies [(0, .use tool [i])] [desk] rs ↔ Replies [(0, .use tool [0])] [[some v]] rs := by
  have h' : at? [some v] 0 = some v := rfl
  simp only [Replies, replies_single, act_use h, act_use h']

theorem Moment.rests_of_at? {M : Moment} {i : Nat} {v : Linked.Value} (hv : at? M.desk i = some v) :
    ∃ (desk : Twins.Desk) (V : Twins.Value) (G : Ledger), left desk = M.desk ∧ left V = v ∧
      at? desk i = some V ∧ Rests G M.store (parts V + parts (desk.set i none)) := by
  obtain ⟨desk, G, hdesk, h, -⟩ := M.rests
  rw [← hdesk, show at? (left desk) i = (at? desk i).map left from Desk.at?_map left desk i] at hv
  obtain ⟨V, hV, hleft⟩ := Option.map_eq_some_iff.mp hv
  exact ⟨desk, V, G, hdesk, hleft, hV, h.congr (parts_desk_at hV)⟩

section

variable {M : Moment} {i : Nat} {desk : Twins.Desk} {V : Twins.Value} {G : Ledger}

theorem Moment.concord_duplicated (hdesk : left desk = M.desk) (hV : at? desk i = some V)
    (h : Rests G M.store (parts V + parts (desk.set i none))) (acts : List (Nat × Act)) (n : Nat) :
    Concord false (List (Nat × Showing) × List Twins.Desk) n G.book (fun c => Desk.registered acts c.1) 0
      (M.duplicated i (left V) acts n M.store)
      (fun m => Desk.runAlone m acts [right desk, [some (right V)]]) := by
  have hcopy := h.concord (Logic.frame _ _ ((agreeing n (pullsAgree n)).copy V))
  rw [zero_add] at hcopy
  have hboth : Concord false (List (Nat × Showing) × List Twins.Desk) n G.book
      (fun c => Desk.registered acts c.1) 0 (M.duplicated i (left V) acts n M.store)
      (fun m => (Drive.alone m).copy (right V) >>= fun c : Lone.Value × Lone.Value =>
        Desk.runAlone m acts [(right desk).set i (some c.1), [some c.2]]) := by
    refine hcopy.bind fun c G' st' h' hG => ?_
    obtain ⟨w, w'⟩ := c
    have hleft : [M.desk.set i (some (left w)), [some (left w')]] =
        left [desk.set i (some w), [some w']] := by
      rw [← hdesk]
      exact congrArg (· :: _) (left_desk_set desk i w).symm
    have hright : [(right desk).set i (some (right w)), [some (right w')]] =
        right [desk.set i (some w), [some w']] := congrArg (· :: _) (right_desk_set desk i w).symm
    have hrest : Rests G' st' (parts [desk.set i (some w), [some w']] + 0) := by
      refine h'.congr ?_
      rw [parts_pair, parts_desks_cons, parts_desks_cons, parts_desks_nil, parts_desk_replace hV,
        parts_desk_singleton]
      abel
    have hrun := (hrest.run n acts).after hG
    rw [← hleft, ← hright] at hrun
    exact hrun
  -- a lone value is its own copy, so that the lone desk is as it was
  have hself : (right desk).set i (some (right V)) = right desk :=
    Readers.set_of_at? ((Desk.at?_map right desk i).trans (congrArg _ hV))
  simp only [Drive.copy_alone] at hboth
  change Concord false _ n G.book _ 0 _ (fun m => Desk.runAlone m acts
    [(right desk).set i (some (right V)), [some (right V)]]) at hboth
  rwa [hself] at hboth

theorem Moment.yields_only_iff (hdesk : left desk = M.desk) (hV : at? desk i = some V)
    (h : Rests G M.store (parts V + parts (desk.set i none))) (k : Nat) (acts : List (Nat × Act))
    (rs : List (Nat × Showing)) :
    Yields (fun n => Desk.replies n acts (Desk.only k [M.desk, [some (left V)]])) M.store rs ↔
      Desk.Replies acts (Desk.only k [right desk, [some (right V)]]) rs := by
  rw [← hdesk]
  match k with
  | 0 =>
    have h₀ : Rests G M.store (parts [desk] + 0) := h.congr (by
      rw [parts_desks_cons, parts_desks_nil, add_zero, add_zero, parts_desk_at hV])
    exact Desk.yields_replies_iff h₀ acts rs
  | 1 =>
    have h₁ : Rests G M.store (parts [[some V]] + parts (desk.set i none)) := h.congr (by
      rw [parts_desks_cons, parts_desks_nil, add_zero, parts_desk_singleton])
    exact Desk.yields_replies_iff h₁ acts rs
  | k + 2 =>
    have h₂ : Rests G M.store (parts ([] : List Twins.Desk) + (parts V + parts (desk.set i none))) :=
      h.congr (zero_add _).symm
    exact Desk.yields_replies_iff h₂ acts rs

end

/-- What is done with a value and its duplicate in turns gives for each what is given when nothing
else is done, and for the value what is given without a duplicate. To make lists of all sequences in
both gives the same twice, whichever comes first. -/
theorem Moment.duplicate_undisturbed (M : Moment) (i : Nat) (v : Linked.Value)
    (hv : at? M.desk i = some v) :
    (∀ (acts : List (Nat × Act)) (rs : List (Nat × Showing)),
      Yields (fun n => Prod.fst <$> M.duplicated i v acts n) M.store rs ↔
        rs.map Prod.fst = acts.map Prod.fst ∧
          ∀ k, Yields (fun n => Desk.replies n (own k acts) (Desk.only k [M.desk, [some v]]))
            M.store (own k rs)) ∧
      ∀ r : Showing,
        Yields (fun n => Desk.replies n [(0, .use .materialize [i])] [M.desk]) M.store [(0, r)] →
        Yields (fun n => Prod.fst <$>
            M.duplicated i v [(0, .use .materialize [i]), (1, .use .materialize [0])] n)
          M.store [(0, r), (1, r)] ∧
        Yields (fun n => Prod.fst <$>
            M.duplicated i v [(1, .use .materialize [0]), (0, .use .materialize [i])] n)
          M.store [(1, r), (0, r)] := by
  obtain ⟨desk, V, G, hdesk, rfl, hV, h⟩ := Moment.rests_of_at? hv
  have hboth (acts : List (Nat × Act)) (rs : List (Nat × Showing)) :
      Yields (fun n => Prod.fst <$> M.duplicated i (left V) acts n) M.store rs ↔
        Desk.Replies acts [right desk, [some (right V)]] rs :=
    Concord.yields_iff (Moment.concord_duplicated hdesk hV h acts) (fun _ => rfl) rs
  have hat : at? (right desk) i = some (right V) :=
    (Desk.at?_map right desk i).trans (congrArg _ hV)
  refine ⟨fun acts rs => ?_, fun r hr => ?_⟩
  · rw [hboth, Desk.replies_iff_own]
    simp only [Moment.yields_only_iff hdesk hV h]
  · have hself := (Moment.yields_only_iff hdesk hV h 0 _ _).mp hr
    have hcopy := (Desk.replies_use_iff hat .materialize _).mp hself
    have hnone (k : Nat) : Desk.Replies [] (Desk.only (k + 2) [right desk, [some (right V)]]) [] :=
      Settles.const _
    rw [hboth, hboth, Desk.replies_iff_own, Desk.replies_iff_own]
    refine ⟨⟨rfl, fun k => ?_⟩, ⟨rfl, fun k => ?_⟩⟩
    · match k with
      | 0 => exact hself
      | 1 => exact hcopy
      | k + 2 => exact hnone k
    · match k with
      | 0 => exact hself
      | 1 => exact hcopy
      | k + 2 => exact hnone k

/-- A sequence over a list with a sequence in it, and a failure after that, is taken for the value. -/
theorem Moment.duplicate_undisturbed_nested : ∃ (M : Moment) (v : Linked.Value),
    at? M.desk 3 = some v ∧ ∀ (acts : List (Nat × Act)) (rs : List (Nat × Showing)),
      Yields (fun n => Prod.fst <$> M.duplicated 3 v acts n) M.store rs ↔
        rs.map Prod.fst = acts.map Prod.fst ∧
          ∀ k, Yields (fun n => Desk.replies n (own k acts) (Desk.only k [M.desk, [some v]]))
            M.store (own k rs) := by
  let inner : Linked.Value := .sequence (.ofItems [.ok (.scalar (.integer 1))] (.exact 1))
  let v : Linked.Value :=
    .sequence (.ofItems [.ok (.list [inner]), .error .divisionByZero] .unknown)
  let acts : List (Nat × Act) :=
    [(0, .use (.make (.scalar (.integer 1))) []), (0, .use (.elements [] (.exact 1)) [0]),
      (0, .use .list [1]), (0, .use (.elements [none, some .divisionByZero] .unknown) [2])]
  let M : Moment := ⟨_, [none, none, none, some v], .empty, .run 0 acts .start rfl⟩
  exact ⟨M, v, rfl, (M.duplicate_undisturbed 3 v rfl).1⟩

end LazyCalc
