import LazyCalc.Proofs.Fanout.Room
/-!
Looking for elements of a sequence. A branch that walks to them is there only as long as it takes,
so that however often elements are looked for, no more slots are made than are taken at once.
-/

namespace LazyCalc

open Engine (Keeps)

def Sequence.fanout? (s : Linked.Sequence) (st : Store) : Option (Fanout Linked.Item) :=
  match s.origin with
  | .direct _ => some .single
  | .branch ⟨i, _⟩ =>
    match st.fanouts[i]? with
    | some (.held shared) => some shared.fanout
    | some .lent | some .vacant | none => none

namespace Sequence

variable {i slot L m n : Nat} {ws : Finset Nat} {st st' : Store} {s s' : Linked.Sequence}

theorem fanout?_eq {shared : Shared} (hs : s.origin = .branch ⟨i, slot⟩)
    (hi : st.Shows i (.held shared)) : s.fanout? st = some shared.fanout := by
  have hi : st.fanouts[i]? = some (.held shared) := hi
  rw [fanout?, hs]
  dsimp only
  rw [hi]

theorem within_of_room (h : st.Room i ws L m) (hs : s.origin = .branch ⟨i, slot⟩)
    {f : Fanout Linked.Item} (hf : s.fanout? st = some f) : f.Within ws L m := by
  rw [fanout?, hs] at hf
  dsimp only at hf
  split at hf
  · next shared hi =>
    cases hf
    exact h shared hi
  all_goals cases hf

theorem room_of_fork (h : ∀ f, s.fanout? st = some f → f.Within ws L m)
    {other : Linked.Sequence} (hfork : s.fork st = .ok ((s', other), st')) :
    ∃ i a b, s'.origin = .branch ⟨i, a⟩ ∧ other.origin = .branch ⟨i, b⟩ ∧
      (∀ place, s.origin = .branch place → place = ⟨i, a⟩) ∧
      st'.Room i (insert b ws) (max L (m + ws.card + 1)) m := by
  obtain ⟨origin, hint, finished, hooks⟩ := s
  cases origin with
  | direct source =>
    rw [fork_direct] at hfork
    obtain ⟨shared, own, seed, place, fanout, hi, hforked, hr, hi'⟩ := Store.of_fork_branch hfork
    cases hr
    rw [Store.Shows, Store.getElem?_addFanout, if_pos rfl] at hi
    cases hi
    refine ⟨_, _, _, rfl, rfl, fun place hplace => ?_,
      .of_shows hi' (hforked.within (h .single rfl))⟩
    cases hplace
  | branch place =>
    obtain ⟨i, slot⟩ := place
    obtain ⟨shared, own, seed, place, fanout, hi, hforked, hr, hi'⟩ := Store.of_fork_branch hfork
    cases hr
    refine ⟨_, _, _, rfl, rfl, fun _ hplace => (Origin.branch.inj hplace).symm, ?_⟩
    exact .of_shows hi' (hforked.within (h _ (fanout?_eq rfl hi)))

end Sequence

def Engine.KeepsAt (I : Store → Prop) (place : Branch) {α : Type}
    (X : Linked.Sequence → Engine (α × Linked.Sequence)) : Prop :=
  ∀ s st r st', s.origin = .branch place → I st → X s st = .ok (r, st') →
    r.2.origin = .branch place ∧ I st'

namespace Engine.KeepsAt

variable {I : Store → Prop} {place : Branch} {n : Nat}

theorem walkFor (hpull : KeepsAt I place (Sequence.pull n)) {β γ : Type}
    {visit : β → Linked.Item → Engine (Flow β γ)} (hvisit : ∀ state x, Keeps I (visit state x))
    (fuel : Nat) (state : β) : KeepsAt I place ((Drive.ofFuel n).walkFor visit fuel state) := by
  induction fuel generalizing state with
  | zero =>
    rintro s st r st' - - hr
    cases hr
  | succ fuel ih =>
    intro s st r st' hs hst hr
    obtain ⟨⟨x, s₁⟩, st₁, hx, hr⟩ := Engine.of_bind_ok hr
    obtain ⟨hs₁, hst₁⟩ := hpull s st _ _ hs hst hx
    cases x with
    | none =>
      cases hr
      exact ⟨hs₁, hst₁⟩
    | some x =>
      obtain ⟨flow, st₂, hflow, hr⟩ := Engine.of_bind_ok hr
      have hst₂ := hvisit state x _ _ _ hst₁ hflow
      cases flow with
      | onward state' => exact ih state' s₁ st₂ r st' hs₁ hst₂ hr
      | halt result =>
        cases hr
        exact ⟨hs₁, hst₂⟩

theorem discard (hpull : KeepsAt I place (Sequence.pull n))
    (hdrop : ∀ vs, Keeps I (Engine.dropValues vs)) (count came : Nat) :
    KeepsAt I place (Sequence.discard (Drive.ofFuel n) count came) := by
  induction count generalizing came with
  | zero =>
    rintro s st r st' hs hst hr
    cases hr
    exact ⟨hs, hst⟩
  | succ count ih =>
    intro s st r st' hs hst hr
    obtain ⟨⟨x, s₁⟩, st₁, hx, hr⟩ := Engine.of_bind_ok hr
    obtain ⟨hs₁, hst₁⟩ := hpull s st _ _ hs hst hx
    cases x with
    | none =>
      cases hr
      exact ⟨hs₁, hst₁⟩
    | some x =>
      obtain ⟨_, st₂, hdropped, hr⟩ := Engine.of_bind_ok hr
      have hst₂ : I st₂ := by
        cases x with
        | error e =>
          cases hdropped
          exact hst₁
        | ok v => exact hdrop [v] _ _ _ hst₁ hdropped
      exact ih (came + 1) s₁ st₂ r st' hs₁ hst₂ hr

theorem gather (hpull : KeepsAt I place (Sequence.pull n)) (count : Option Nat) :
    KeepsAt I place (Sequence.gather (Drive.ofFuel n) count) := by
  intro s st r st' hs hst hr
  rw [Sequence.gather] at hr
  split at hr
  · cases hr
    exact ⟨hs, hst⟩
  · obtain ⟨⟨flow, s₁⟩, st₁, hwalk, hr⟩ := Engine.of_bind_ok hr
    have hvisit (state : Option Nat × List Linked.Value) (x : Linked.Item) :
        Keeps I (Sequence.gatherStep (m := Engine) state x) := by
      obtain ⟨wanted, taken⟩ := state
      cases x with
      | error e => exact .pure _
      | ok v =>
        cases wanted with
        | none => exact .pure _
        | some wanted =>
          rw [Sequence.gatherStep]
          split <;> exact .pure _
    obtain ⟨hs₁, hst₁⟩ := hpull.walkFor hvisit _ _ s st _ _ hs hst hwalk
    cases flow <;> cases hr <;> exact ⟨hs₁, hst₁⟩

end Engine.KeepsAt

namespace Store.Room

variable {i slot L m n : Nat} {ws : Finset Nat} {st st' : Store}

theorem keepsAt_pull (i slot : Nat) (ws : Finset Nat) (L m n : Nat) :
    Engine.KeepsAt (Room i ws L m) ⟨i, slot⟩ (Sequence.pull n) := by
  rintro ⟨origin, hint, finished, hooks⟩ st r st' hs hst hr
  cases hs
  cases n with
  | zero => cases hr
  | succ n =>
    cases finished with
    | true =>
      cases hr
      exact ⟨rfl, hst⟩
    | false =>
      obtain ⟨x, st₁, hx, hr⟩ := Engine.of_bind_ok hr
      cases hr
      exact ⟨rfl, hst.pullBranch hx⟩

theorem keeps_dropValues (i : Nat) (ws : Finset Nat) (L m : Nat) (vs : List Linked.Value) :
    Keeps (Room i ws L m) (Engine.dropValues vs) :=
  (guard i ws L m).keeps_dropValues vs

theorem spend {s : Linked.Sequence} (h : st.Room i (insert slot ws) L m)
    (hs : s.origin = .branch ⟨i, slot⟩) {start : Nat} {count : Option Nat} {x : Linked.Item}
    (hx : s.spend (Drive.ofFuel n) start count st = .ok (x, st')) : st'.Room i ws L m := by
  rw [Sequence.spend] at hx
  split at hx
  · obtain ⟨_, st₁, hdrop, hx⟩ := Engine.of_bind_ok hx
    cases hx
    exact h.drop hs hdrop
  · have hpull := keepsAt_pull i slot (insert slot ws) L m n
    obtain ⟨⟨_, s₁⟩, st₁, hdiscard, hx⟩ := Engine.of_bind_ok hx
    obtain ⟨hs₁, h₁⟩ := hpull.discard (keeps_dropValues i _ L m) start 0 s st _ _ hs h hdiscard
    obtain ⟨⟨gathered, s₂⟩, st₂, hgather, hx⟩ := Engine.of_bind_ok hx
    obtain ⟨hs₂, h₂⟩ := hpull.gather count s₁ st₁ _ _ hs₁ h₁ hgather
    obtain ⟨_, st₃, hdrop, hx⟩ := Engine.of_bind_ok hx
    have h₃ := h₂.drop hs₂ hdrop
    obtain ⟨items, _ | e⟩ := gathered
    · cases hx
      exact h₃
    · obtain ⟨_, st₄, hdropped, hx⟩ := Engine.of_bind_ok hx
      cases hx
      exact keeps_dropValues _ _ _ _ _ _ _ _ h₃ hdropped

end Store.Room

namespace Sequence

variable {i slot L m n : Nat} {ws : Finset Nat} {st st' : Store} {s s' : Linked.Sequence}
  {x : Linked.Item}

theorem room_of_index (h : ∀ f, s.fanout? st = some f → f.Within ws L m) {place : Nat}
    (hx : s.index (Drive.ofFuel n) place st = .ok ((x, s'), st')) :
    ∃ i a, s'.origin = .branch ⟨i, a⟩ ∧ (∀ place, s.origin = .branch place → place = ⟨i, a⟩) ∧
      st'.Room i ws (max L (m + ws.card + 1)) m := by
  obtain ⟨⟨s₁, walker⟩, st₁, hfork, hx⟩ := Engine.of_bind_ok hx
  obtain ⟨i, a, b, hs₁, hwalker, hplace, hst₁⟩ := room_of_fork h hfork
  obtain ⟨⟨found, walker'⟩, st₂, hwalk, hx⟩ := Engine.of_bind_ok hx
  have hvisit (seen : Nat) (y : Linked.Item) :
      Keeps (Store.Room i (insert b ws) (max L (m + ws.card + 1)) m)
        (indexStep (Drive.ofFuel n) place seen y) := by
    cases y with
    | error e => exact .pure _
    | ok v =>
      rw [indexStep]
      split
      · exact .pure _
      · exact (Store.Room.keeps_dropValues _ _ _ _ [v]).bind fun _ => .pure _
  obtain ⟨hwalker', hst₂⟩ := (Store.Room.keepsAt_pull i b _ _ _ n).walkFor hvisit _ _ _ _ _ _
    hwalker hst₁ hwalk
  obtain ⟨_, st₃, hdrop, hx⟩ := Engine.of_bind_ok hx
  have hst₃ := hst₂.drop hwalker' hdrop
  cases found <;> cases hx <;> exact ⟨i, a, hs₁, hplace, hst₃⟩

theorem room_of_slice (h : ∀ f, s.fanout? st = some f → f.Within ws L m) {start stop : Nat}
    (hx : s.slice (Drive.ofFuel n) start stop st = .ok ((x, s'), st')) :
    ∃ i a, s'.origin = .branch ⟨i, a⟩ ∧ (∀ place, s.origin = .branch place → place = ⟨i, a⟩) ∧
      st'.Room i ws (max L (m + ws.card + 1)) m := by
  obtain ⟨⟨s₁, walker⟩, st₁, hfork, hx⟩ := Engine.of_bind_ok hx
  obtain ⟨i, a, b, hs₁, hwalker, hplace, hst₁⟩ := room_of_fork h hfork
  obtain ⟨item, st₂, hspend, hx⟩ := Engine.of_bind_ok hx
  cases hx
  exact ⟨i, a, hs₁, hplace, hst₁.spend hwalker hspend⟩

end Sequence

def Readers.Act.Looks : Readers.Act → Prop
  | .index r _ | .slice r _ _ => r = 0
  | .next _ | .fork _ | .split _ | .take _ _ | .drop _ => False

namespace Sequence

variable {L m n : Nat} {st st' : Store} {s : Linked.Sequence}

theorem within_of_look (h : ∀ f, s.fanout? st = some f → f.Within ∅ L m) {a : Readers.Act}
    (ha : a.Looks) {r : Readers.Reply Linked.Sequence × Readers.Pool}
    (hr : Readers.act (Drive.ofFuel n) a [some s] st = .ok (r, st')) :
    ∃ s', r.2 = [some s'] ∧ ∀ f, s'.fanout? st' = some f → f.Within ∅ (max L (m + 1)) m := by
  cases a with
  | index r place =>
    cases ha
    obtain ⟨⟨found, s'⟩, st₁, hfound, hr⟩ := Engine.of_bind_ok hr
    obtain ⟨i, slot, hs', -, hroom⟩ := room_of_index h hfound
    cases hr
    exact ⟨s', rfl, fun f hf => within_of_room hroom hs' hf⟩
  | slice r start stop =>
    cases ha
    obtain ⟨⟨found, s'⟩, st₁, hfound, hr⟩ := Engine.of_bind_ok hr
    obtain ⟨i, slot, hs', -, hroom⟩ := room_of_slice h hfound
    cases hr
    exact ⟨s', rfl, fun f hf => within_of_room hroom hs' hf⟩
  | next _ | fork _ | split _ | take _ _ | drop _ => exact ha.elim

theorem within_of_looks (h : ∀ f, s.fanout? st = some f → f.Within ∅ L m) {acts : List Readers.Act}
    (hacts : ∀ a ∈ acts, a.Looks) {r : List (Readers.Reply Linked.Sequence) × Readers.Pool}
    (hr : Readers.run (Drive.ofFuel n) acts [some s] st = .ok (r, st')) :
    ∃ s', r.2 = [some s'] ∧ ∀ f, s'.fanout? st' = some f → f.Within ∅ (max L (m + 1)) m := by
  induction acts generalizing s st r L with
  | nil =>
    cases hr
    exact ⟨s, rfl, fun f hf => ⟨(h f hf).length_le.trans (le_max_left _ _), (h f hf).card_le⟩⟩
  | cons a acts ih =>
    obtain ⟨ha, hacts⟩ := List.forall_mem_cons.mp hacts
    obtain ⟨⟨reply, pool⟩, st₁, hact, hr⟩ := Engine.of_bind_ok hr
    obtain ⟨s₁, rfl, h₁⟩ := within_of_look h ha hact
    obtain ⟨⟨replies, pool'⟩, st₂, hrun, hr⟩ := Engine.of_bind_ok hr
    cases hr
    obtain ⟨s', hpool, h'⟩ := ih h₁ hacts hrun
    rw [max_eq_left (le_max_right L (m + 1))] at h'
    exact ⟨s', hpool, h'⟩

end Sequence

structure Store.Reads (k i : Nat) (st : Store) : Prop where
  lt : k < st.cells.size
  branch : ∀ cell, st.cells[k]? = some (.held cell) →
    ∃ s slot, cell.collection = .sequence s ∧ s.origin = .branch ⟨i, slot⟩

namespace Store.Reads

variable {k i : Nat} {st st' : Store}

theorem setCell (h : st.Reads k i) {j : Nat} {place : Place Cell}
    (hplace : j = k → ∀ cell, place = .held cell →
      ∃ s slot, cell.collection = .sequence s ∧ s.origin = .branch ⟨i, slot⟩) :
    (st.setCell j place).Reads k i := by
  constructor
  · simpa [Store.setCell] using h.lt
  · intro cell hcell
    rw [getElem?_setCell] at hcell
    split at hcell
    · next hj =>
      split at hcell
      · exact hplace hj cell (Option.some.inj hcell)
      · cases hcell
    · exact h.branch cell hcell

theorem guard (k i : Nat) : Guard (Reads k i) fun _ _ => True where
  record _ h := ⟨h.lt, h.branch⟩
  lend h _ := ⟨⟨h.lt, h.branch⟩, trivial⟩
  leave _ h := h
  put h _ := ⟨h.lt, h.branch⟩
  vacate h _ := ⟨h.lt, h.branch⟩
  lendCell {st j cell} h hj := by
    refine ⟨h.setCell fun _ _ hheld => ?_, h.setCell fun _ _ hheld => ?_,
      fun holders => h.setCell fun he cell' hheld => ?_⟩
    · cases hheld
    · cases hheld
    · cases hheld
      exact h.branch cell (he ▸ hj)

theorem keeps_fork (s : Linked.Sequence) : Keeps (Reads k i) s.fork :=
  (guard k i).keeps_fork (fun h _ => h) (fun _ h => ⟨h.lt, h.branch⟩) s

theorem keeps_read (j : Nat) : Keeps (Reads k i) (Engine.read j) := by
  intro st r st' h hr
  obtain ⟨cell, st₁, hlend, hr⟩ := Engine.of_bind_ok hr
  obtain ⟨hj, rfl⟩ := of_lendCell hlend
  obtain ⟨⟨collection, other⟩, st₂, hcopy, hr⟩ := Engine.of_bind_ok hr
  have hlent : (st.setCell j .lent).Reads k i := by
    refine h.setCell fun _ _ hheld => ?_
    cases hheld
  cases hr
  cases hc : cell.collection with
  | list vs =>
    rw [hc] at hcopy
    obtain ⟨_, st₃, hvs, hcopy⟩ := Engine.of_bind_ok hcopy
    have h₃ := Tree.keeps_copyListWith keeps_fork vs _ _ _ hlent hvs
    cases hcopy
    refine h₃.setCell fun he cell' hheld => ?_
    obtain ⟨s, slot, hs, -⟩ := h.branch cell (he ▸ hj)
    cases hs.symm.trans hc
  | sequence s =>
    rw [hc] at hcopy
    obtain ⟨⟨own, other'⟩, st₃, hfork, hcopy⟩ := Engine.of_bind_ok hcopy
    have h₃ := keeps_fork s _ _ _ hlent hfork
    cases hcopy
    refine h₃.setCell fun he cell' hheld => ?_
    obtain ⟨s', slot, hs', horigin⟩ := h.branch cell (he ▸ hj)
    cases hc.symm.trans hs'
    obtain ⟨origin, hint, finished, hooks⟩ := s
    cases horigin
    obtain ⟨_, _, _, _, _, -, -, hown, -⟩ := of_fork_branch hfork
    cases hown
    cases hheld
    exact ⟨_, slot, rfl, rfl⟩

theorem kept (k i : Nat) : Kept (Reads k i) := by
  refine (guard k i).kept (fun h _ => h) (fun _ h => ⟨h.lt, h.branch⟩) ?_ keeps_read
  rintro c st _ _ h ⟨⟩
  refine ⟨?_, fun cell hcell => h.branch cell ?_⟩
  · simpa [Store.addCell] using h.lt.trans (Nat.lt_succ_self _)
  · simpa only [Store.addCell, Array.getElem?_push, if_neg h.lt.ne] using hcell

end Store.Reads

end LazyCalc
