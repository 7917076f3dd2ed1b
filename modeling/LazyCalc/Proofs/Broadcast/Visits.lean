import LazyCalc.Proofs.Broadcast.Grid
import LazyCalc.Proofs.Engine.Dropping
import LazyCalc.Proofs.Engine.Plain
/-!
The order in which a broadcast over values without sequences calls its kernel. The places of a grid
are visited from the root, and from left to right below it; the first place that is too deep and the
first call that fails end the broadcast.
-/

namespace LazyCalc

namespace Grid

variable {α : Type}

mutual

/-- The places of a grid whose root is at a depth, as they are visited, with what is called for at
each leaf. -/
def visits (depth : Nat) : Grid α → List (Nat × Option α)
  | .leaf a => [(depth, some a)]
  | .rows gs => (depth, none) :: visitsOf (depth + 1) gs

def visitsOf (depth : Nat) : List (Grid α) → List (Nat × Option α)
  | [] => []
  | g :: gs => visits depth g ++ visitsOf depth gs

end

end Grid

section

variable {α : Type} (run : α → Engine Linked.Item) (limit : Nat)

/-- The calls made at the places of a list, one after the other, with what each of them gave, and the
failure that ended the series. -/
def callInOrder : List (Nat × Option α) → Engine (List (α × Linked.Value) × Option Failure)
  | [] => pure ([], none)
  | (depth, none) :: places =>
    if limit < depth then pure ([], some (.nestingTooDeep limit)) else callInOrder places
  | (depth, some a) :: places =>
    if limit < depth then pure ([], some (.nestingTooDeep limit))
    else do
      match ← run a with
      | .error e => pure ([], some e)
      | .ok v =>
        let (calls, failure) ← callInOrder places
        pure ((a, v) :: calls, failure)

theorem callInOrder_append (places more : List (Nat × Option α)) :
    callInOrder run limit (places ++ more) = (do
      match ← callInOrder run limit places with
      | (calls, some e) => pure (calls, some e)
      | (calls, none) =>
        let (calls', failure) ← callInOrder run limit more
        pure (calls ++ calls', failure)) := by
  induction places with
  | nil => simp [callInOrder]
  | cons place places ih =>
    obtain ⟨depth, _ | a⟩ := place
    · rw [List.cons_append, callInOrder, callInOrder]
      split
      · rw [pure_bind]
      · exact ih
    · rw [List.cons_append, callInOrder, callInOrder]
      split
      · rw [pure_bind]
      · rw [bind_assoc]
        congr 1
        funext x
        cases x with
        | error e => rw [pure_bind]
        | ok v =>
          simp only [ih, bind_assoc]
          congr 1
          funext r
          obtain ⟨calls, _ | e⟩ := r
          · simp
          · simp

/-- A broadcast does what a series of calls asks for. `whole` says what it comes to if no call fails;
otherwise what was made is dropped, together with what the calls gave. -/
structure Follows (places : List (Nat × Option α)) (made : List Linked.Value)
    (whole : List (α × Linked.Value) → Linked.Value → Prop) (x : Engine Linked.Item) : Prop where
  fault : ∀ st fault, callInOrder run limit places st = .error fault → x st = .error fault
  success : ∀ st calls st', callInOrder run limit places st = .ok ((calls, none), st') →
    ∃ v, whole calls v ∧ x st = .ok (.ok v, st')
  failure : ∀ st calls e st', callInOrder run limit places st = .ok ((calls, some e), st') →
    ∃ dropped : List Linked.Value, dropped.Perm (made ++ calls.map Prod.snd) ∧
      x st = (do Engine.dropValues dropped; pure (Except.error e : Linked.Item)) st'

end

namespace Grid

variable {α β : Type}

/-- A value is the tree of a grid with each leaf replaced by what the call for it gave. -/
def Filled (g : Grid α) (calls : List (α × Linked.Value)) (v : Linked.Value) : Prop :=
  ∃ called : Grid (α × Linked.Value),
    called.map Prod.fst = g ∧ called.leaves = calls ∧ (called.map Prod.snd).tree = v

def FilledRows (gs : List (Grid α)) (made : List Linked.Value) (calls : List (α × Linked.Value))
    (v : Linked.Value) : Prop :=
  ∃ called : List (Grid (α × Linked.Value)), mapRows Prod.fst called = gs ∧
    leavesOf called = calls ∧ .list (made.reverse ++ trees (mapRows Prod.snd called)) = v

mutual

theorem leaves_map (f : α → β) (g : Grid α) : (g.map f).leaves = g.leaves.map f := by
  cases g with
  | leaf a => rfl
  | rows gs => exact leavesOf_mapRows f gs

theorem leavesOf_mapRows (f : α → β) (gs : List (Grid α)) :
    leavesOf (mapRows f gs) = (leavesOf gs).map f := by
  cases gs with
  | nil => rfl
  | cons g gs => rw [mapRows, leavesOf, leavesOf, leaves_map, leavesOf_mapRows, List.map_append]

end

mutual

theorem dropValues_tree (g : Grid Linked.Value) (vs : List Linked.Value) :
    Engine.dropValues (g.tree :: vs) = Engine.dropValues (g.leaves ++ vs) := by
  cases g with
  | leaf v => rfl
  | rows gs => rw [tree, Engine.dropValues_list, dropValues_trees, leaves]

theorem dropValues_trees (gs : List (Grid Linked.Value)) (vs : List Linked.Value) :
    Engine.dropValues (trees gs ++ vs) = Engine.dropValues (leavesOf gs ++ vs) := by
  cases gs with
  | nil => rfl
  | cons g gs =>
    rw [trees, leavesOf, List.cons_append, dropValues_tree, Engine.dropValues_append,
      dropValues_trees, ← Engine.dropValues_append, List.append_assoc]

end

theorem exists_dropped_leaves {g : Grid Linked.Value} {dropped vs : List Linked.Value}
    (h : dropped.Perm (g.tree :: vs)) : ∃ dropped' : List Linked.Value,
      dropped'.Perm (g.leaves ++ vs) ∧ Engine.dropValues dropped = Engine.dropValues dropped' := by
  obtain ⟨before, after, rfl⟩ := List.append_of_mem (h.mem_iff.mpr List.mem_cons_self)
  have hrest : (before ++ after).Perm vs :=
    List.Perm.cons_inv (List.perm_middle.symm.trans h)
  refine ⟨before ++ (g.leaves ++ after), ?_, ?_⟩
  · refine List.Perm.trans ?_ (hrest.append_left g.leaves)
    rw [← List.append_assoc, ← List.append_assoc]
    exact List.perm_append_comm.append_right after
  · rw [Engine.dropValues_append, dropValues_tree, ← Engine.dropValues_append]

section

variable {run : α → Engine Linked.Item} {limit depth : Nat}

theorem follows_refused {called : Option α} {places : List (Nat × Option α)}
    {whole : List (α × Linked.Value) → Linked.Value → Prop} (h : limit < depth) :
    Follows run limit ((depth, called) :: places) [] whole
      (pure (.error (.nestingTooDeep limit))) := by
  have hcalls : callInOrder run limit ((depth, called) :: places) =
      pure ([], some (.nestingTooDeep limit)) := by
    cases called <;> rw [callInOrder, if_pos h]
  refine ⟨fun st fault hc => ?_, fun st calls st' hc => ?_, fun st calls e st' hc => ?_⟩
  · rw [hcalls] at hc
    cases hc
  · rw [hcalls] at hc
    cases hc
  · rw [hcalls] at hc
    cases hc
    exact ⟨[], .refl _, by rw [Engine.dropValues_nil, pure_bind]⟩

theorem follows_leaf (a : α) (h : ¬ limit < depth) :
    Follows run limit (visits depth (.leaf a)) [] (Filled (.leaf a)) (run a) := by
  have hcalls : callInOrder run limit (visits depth (.leaf a)) = (do
      match ← run a with
      | .error e => pure ([], some e)
      | .ok v => pure ([(a, v)], none)) := by
    rw [visits, callInOrder, if_neg h]
    rfl
  refine ⟨fun st fault hc => ?_, fun st calls st' hc => ?_, fun st calls e st' hc => ?_⟩
  · cases hrun : run a st with
    | error fault' =>
      rw [hcalls, Engine.bind_error hrun] at hc
      rw [Except.error.inj hc]
    | ok r =>
      obtain ⟨_ | v, st'⟩ := r <;> rw [hcalls, Engine.bind_eq hrun] at hc <;> cases hc
  · obtain ⟨_ | v, st₁, hrun, hc⟩ := Engine.of_bind_ok (hcalls ▸ hc)
    · cases hc
    · cases hc
      exact ⟨v, ⟨.leaf (a, v), rfl, rfl, rfl⟩, hrun⟩
  · obtain ⟨_ | v, st₁, hrun, hc⟩ := Engine.of_bind_ok (hcalls ▸ hc)
    · cases hc
      refine ⟨[], .refl _, hrun.trans ?_⟩
      rw [Engine.dropValues_nil, pure_bind, Engine.pure_eq]
    · cases hc

theorem follows_node {gs : List (Grid α)} {x : Engine Linked.Item} (h : ¬ limit < depth)
    (hgs : Follows run limit (visitsOf (depth + 1) gs) [] (FilledRows gs []) x) :
    Follows run limit (visits depth (.rows gs)) [] (Filled (.rows gs)) x := by
  have hcalls : callInOrder run limit (visits depth (.rows gs)) =
      callInOrder run limit (visitsOf (depth + 1) gs) := by rw [visits, callInOrder, if_neg h]
  refine ⟨fun st fault hc => hgs.fault st fault (hcalls ▸ hc), fun st calls st' hc => ?_,
    fun st calls e st' hc => hgs.failure st calls e st' (hcalls ▸ hc)⟩
  obtain ⟨v, ⟨called, rfl, hleaves, rfl⟩, hx⟩ := hgs.success st calls st' (hcalls ▸ hc)
  exact ⟨_, ⟨.rows called, rfl, hleaves, rfl⟩, hx⟩

section

variable {g : Grid α} {gs : List (Grid α)} {made : List Linked.Value} {x : Engine Linked.Item}
  {next : Linked.Item → Engine Linked.Item} (hg : Follows run limit (g.visits depth) [] g.Filled x)
  (hgs : ∀ v, Follows run limit (visitsOf depth gs) (v :: made) (FilledRows gs (v :: made))
    (next (.ok v)))

include hg hgs

theorem fault_cons {st : Store} {fault : Fault}
    (hc : callInOrder run limit (visitsOf depth (g :: gs)) st = .error fault) :
    (x >>= next) st = .error fault := by
  rw [visitsOf, callInOrder_append] at hc
  cases h : callInOrder run limit (g.visits depth) st with
  | error fault' =>
    rw [Engine.bind_error h] at hc
    rw [← Except.error.inj hc]
    exact Engine.bind_error (hg.fault st fault' h)
  | ok r =>
    obtain ⟨⟨calls, _ | e⟩, st₁⟩ := r
    · rw [Engine.bind_eq h] at hc
      obtain ⟨v, -, hx⟩ := hg.success st calls st₁ h
      refine (Engine.bind_eq hx).trans ((hgs v).fault st₁ fault ?_)
      cases h' : callInOrder run limit (visitsOf depth gs) st₁ with
      | error fault' => exact (Engine.bind_error h').symm.trans hc
      | ok r => cases (Engine.bind_eq h').symm.trans hc
    · cases (Engine.bind_eq h).symm.trans hc

theorem success_cons {st st' : Store} {calls : List (α × Linked.Value)}
    (hc : callInOrder run limit (visitsOf depth (g :: gs)) st = .ok ((calls, none), st')) :
    ∃ v, FilledRows (g :: gs) made calls v ∧ (x >>= next) st = .ok (.ok v, st') := by
  rw [visitsOf, callInOrder_append] at hc
  obtain ⟨⟨calls₁, failure⟩, st₁, h₁, hc⟩ := Engine.of_bind_ok hc
  cases failure with
  | some e => cases hc
  | none =>
    obtain ⟨⟨calls₂, failure⟩, st₂, h₂, hc⟩ := Engine.of_bind_ok hc
    cases hc
    obtain ⟨v, ⟨called, rfl, rfl, rfl⟩, hx⟩ := hg.success st calls₁ st₁ h₁
    obtain ⟨w, ⟨rows, rfl, rfl, rfl⟩, hy⟩ := (hgs _).success st₁ calls₂ st' h₂
    refine ⟨_, ⟨called :: rows, rfl, rfl, rfl⟩, (Engine.bind_eq hx).trans (hy.trans ?_)⟩
    rw [List.reverse_cons, List.append_assoc]
    rfl

theorem failure_cons
    (hfail : ∀ e, next (.error e) = do Engine.dropValues made.reverse; pure (.error e))
    {st st' : Store} {calls : List (α × Linked.Value)} {e : Failure}
    (hc : callInOrder run limit (visitsOf depth (g :: gs)) st = .ok ((calls, some e), st')) :
    ∃ dropped : List Linked.Value, dropped.Perm (made ++ calls.map Prod.snd) ∧
      (x >>= next) st = (do Engine.dropValues dropped; pure (Except.error e : Linked.Item)) st' := by
  rw [visitsOf, callInOrder_append] at hc
  obtain ⟨⟨calls₁, failure⟩, st₁, h₁, hc⟩ := Engine.of_bind_ok hc
  cases failure with
  | some e₁ =>
    cases hc
    obtain ⟨dropped, hperm, hx⟩ := hg.failure st calls e st' h₁
    refine ⟨dropped ++ made.reverse, ?_, ?_⟩
    · exact (List.perm_append_comm.trans (made.reverse_perm.append hperm))
    · refine (Engine.bind_congr_at hx _).trans ?_
      rw [Engine.dropValues_append, bind_assoc, bind_assoc]
      simp only [pure_bind, hfail]
  | none =>
    obtain ⟨⟨calls₂, failure⟩, st₂, h₂, hc⟩ := Engine.of_bind_ok hc
    cases hc
    obtain ⟨v, ⟨called, rfl, rfl, rfl⟩, hx⟩ := hg.success st calls₁ st₁ h₁
    obtain ⟨dropped, hperm, hy⟩ := (hgs _).failure st₁ calls₂ e st' h₂
    -- the first row is whole, and is dropped with what came of the others
    obtain ⟨dropped', hperm', hdrop⟩ := exists_dropped_leaves hperm
    refine ⟨dropped', hperm'.trans ?_, (Engine.bind_eq hx).trans (hdrop ▸ hy)⟩
    rw [leaves_map, List.map_append, ← List.append_assoc]
    refine List.Perm.trans (.of_eq (List.append_assoc _ made _).symm) ?_
    exact List.perm_append_comm.append_right _

theorem follows_cons
    (hfail : ∀ e, next (.error e) = do Engine.dropValues made.reverse; pure (.error e)) :
    Follows run limit (visitsOf depth (g :: gs)) made (FilledRows (g :: gs) made) (x >>= next) where
  fault _ _ hc := fault_cons hg hgs hc
  success _ _ _ hc := success_cons hg hgs hc
  failure _ _ _ _ hc := failure_cons hg hgs hfail hc

end

variable (n : Nat)

mutual

theorem follows_carry (depth : Nat) (g : Grid α) :
    Follows run limit (g.visits depth) [] g.Filled (g.carry (Drive.ofFuel n) run limit depth) := by
  cases g with
  | leaf a =>
    rw [carry]
    split
    · exact follows_refused ‹_›
    · exact follows_leaf a ‹_›
  | rows gs =>
    rw [carry]
    split
    · exact follows_refused ‹_›
    · exact follows_node ‹_› (follows_carryRows (depth + 1) [] gs)

theorem follows_carryRows (depth : Nat) (made : List Linked.Value) (gs : List (Grid α)) :
    Follows run limit (visitsOf depth gs) made (FilledRows gs made)
      (carryRows (Drive.ofFuel n) run limit depth made gs) := by
  cases gs with
  | nil =>
    rw [carryRows]
    refine ⟨fun st fault hc => ?_, fun st calls st' hc => ?_, fun st calls e st' hc => ?_⟩
    · cases hc
    · cases hc
      exact ⟨_, ⟨[], rfl, rfl, congrArg Tree.list (List.append_nil _)⟩, rfl⟩
    · cases hc
  | cons g gs =>
    rw [carryRows]
    exact follows_cons (follows_carry depth g) (fun v => follows_carryRows depth (v :: made) gs)
      fun _ => rfl

end

end

end Grid

/-- A broadcast over values without sequences strips them of lists of one element, pairs what is left
from the root, and calls the kernel once for each leaf of the grid, the left operand first. -/
theorem broadcast_plain_follows (n limit : Nat) :
    (∀ (run : Scalar → Engine Linked.Item) (leaf : Leaf Nat Scalar) (a : Plain),
      Follows run limit ((Grid.of id a.strip).visits 0) [] (Grid.of id a.strip).Filled
        (broadcastOne (Drive.ofFuel n) run leaf limit 0 (.ofPlain a))) ∧
    ∀ (run : Scalar → Scalar → Engine Linked.Item) (leaf : Leaf Nat (Scalar × Scalar)) (a b : Plain),
      Follows (fun p : Scalar × Scalar => run p.1 p.2) limit ((Grid.pair a.strip b.strip).visits 0) []
        (Grid.pair a.strip b.strip).Filled
        (broadcastTwo (Drive.ofFuel n) run leaf limit 0 (.ofPlain a) (.ofPlain b)) := by
  have hdrop (ts : List Plain) :
      (Drive.ofFuel n).drop (Tree.mapList Empty.elim ts) = pure () := by
    rw [Tree.mapList_eq_map]
    funext st
    exact Engine.dropValues_ofPlain ts st
  refine ⟨fun run leaf a => ?_, fun run leaf a b => ?_⟩
  · rw [broadcastOne_plain limit hdrop]
    exact Grid.follows_carry n 0 _
  · rw [broadcastTwo_plain limit hdrop]
    exact Grid.follows_carry n 0 _

end LazyCalc
