import LazyCalc.Operator.Builtin
import LazyCalc.Proofs.Fanout.Lookups
/-!
What a fan-out holds in every state that comes about: the chart of its branches, whatever these and
everything else do, and no more slots than there were branches at one time.
-/

namespace LazyCalc

open Readers (at?)

theorem Store.isLeast_fork {i slot : Nat} {hint : Hint} {finished : Bool} {hooks : List String}
    {s other : Linked.Sequence} {st st' : Store}
    (h : Sequence.fork ⟨.branch ⟨i, slot⟩, hint, finished, hooks⟩ st = .ok ((s, other), st')) :
    ∃ shared, st.Shows i (.held shared) ∧ other.origin = .branch ⟨i, other.slot⟩ ∧
      IsLeast {slot | shared.fanout.slot? slot = none} other.slot := by
  obtain ⟨shared, own, seed, place, fanout, hi, hforked, hr, -⟩ := of_fork_branch h
  cases hr
  have hleast := (shared.fanout.setBacklog slot own).isLeast_join seed
  simp only [hforked.join_eq, ← Fanout.notMem_taken, Fanout.taken_setBacklog] at hleast
  simp only [← Fanout.notMem_taken]
  exact ⟨shared, hi, rfl, hleast⟩

section

variable {i k slot L m n : Nat} {st st' : Store} {cell : Cell} {s : Linked.Sequence} {x : Scalar}
  {r : Linked.Item}

theorem Collection.room_of_nth (h : st.Room i (insert slot ∅) L m)
    (hs : s.origin = .branch ⟨i, slot⟩)
    (hr : readWith (Drive.ofFuel n) (Operator.nthPlan x) (.sequence s) st = .ok (r, st')) :
    st'.Room i ∅ (max L (m + 2)) m := by
  have hplan : Operator.nthPlan x (.sequence s.hint) =
      (x.position "index").map fun place => .read (.element place) := by
    rw [Operator.nthPlan]
    cases x.position "index" <;> rfl
  rw [readWith, extent, hplan] at hr
  cases hx : x.position "index" with
  | error e =>
    rw [hx] at hr
    obtain ⟨_, st₁, hdrop, hr⟩ := Engine.of_bind_ok hr
    cases hr
    intro shared hi
    have hwithin := h.drop hs hdrop shared hi
    exact ⟨hwithin.length_le.trans (le_max_left _ _), hwithin.card_le⟩
  | ok place =>
    rw [hx] at hr
    obtain ⟨_, st₁, hnote, hr⟩ := Engine.of_bind_ok hr
    cases hnote
    obtain ⟨found, st₂, hfound, hr⟩ := Engine.of_bind_ok hr
    obtain ⟨⟨y, s₁⟩, st₃, hindex, hfound⟩ := Engine.of_bind_ok hfound
    obtain ⟨_, st₄, hdrop, hfound⟩ := Engine.of_bind_ok hfound
    obtain ⟨j, a, hs₁, hplace, h₃⟩ :=
      Sequence.room_of_index (fun f hf => Sequence.within_of_room h hs hf) hindex
    obtain ⟨rfl, rfl⟩ := Branch.mk.inj (hplace _ hs)
    have h₄ := h₃.drop hs₁ hdrop
    cases hfound
    have hst : st'.fanouts = st₂.fanouts := by
      cases found with
      | error e =>
        cases hr
        rfl
      | ok v =>
        obtain ⟨_, st₅, hnote, hr⟩ := Engine.of_bind_ok hr
        cases hnote
        cases hr
        rfl
    intro shared hi
    have hi₂ : st₂.Shows i (.held shared) := by
      rw [Store.Shows, ← hst]
      exact hi
    have hwithin := h₄ shared hi₂
    refine ⟨hwithin.length_le.trans_eq ?_, hwithin.card_le⟩
    rw [Finset.card_insert_of_notMem (Finset.notMem_empty slot), Finset.card_empty]

theorem Leaf.room_of_nth (hk : st.cells[k]? = some (.held cell))
    (hc : cell.collection = .sequence s)
    (h : ∀ f, s.fanout? st = some f → f.Within ∅ L m)
    (hr : Leaf.run (Drive.ofFuel n) (.reading k Operator.nthPlan) x st = .ok (r, st')) :
    ∃ i, (∀ place, s.origin = .branch place → place.fanout = i) ∧ st'.Reads k i ∧
      st'.Room i ∅ (max L (m + 2)) m := by
  obtain ⟨collection, st₁, hread, hr⟩ := Engine.of_bind_ok hr
  obtain ⟨cell', st₂, hlend, hread⟩ := Engine.of_bind_ok hread
  obtain ⟨hk', rfl⟩ := Store.of_lendCell hlend
  cases hk.symm.trans hk'
  rw [hc] at hread
  obtain ⟨⟨own, other⟩, st₃, hcopy, hread⟩ := Engine.of_bind_ok hread
  obtain ⟨⟨s₁, s₂⟩, st₄, hfork, hcopy⟩ := Engine.of_bind_ok hcopy
  cases hcopy
  cases hread
  have hlent : ∀ f, s.fanout? (st.setCell k .lent) = some f → f.Within ∅ L m := h
  obtain ⟨i, a, b, hs₁, hs₂, hplace, hroom⟩ := Sequence.room_of_fork hlent hfork
  have hreads : (st.setCell k .lent).Reads k i := by
    have hlt : k < st.cells.size := (Array.getElem?_eq_some_iff.mp hk).1
    refine ⟨by simpa [Store.setCell] using hlt, fun cell' hcell' => ?_⟩
    rw [Store.getElem?_setCell, if_pos rfl, if_pos hlt] at hcell'
    cases hcell'
  have hreturned : (st₃.setCell k (.held ⟨.sequence s₁, cell.holders⟩)).Reads k i := by
    refine (Store.Reads.keeps_fork s _ _ _ hreads hfork).setCell fun _ cell' hheld => ?_
    cases hheld
    exact ⟨s₁, a, rfl, hs₁⟩
  have hroom' : (st₃.setCell k (.held ⟨.sequence s₁, cell.holders⟩)).Room i (insert b ∅)
      (max L (m + 1)) m := hroom
  refine ⟨i, fun place hs => by rw [hplace place hs], ?_, ?_⟩
  · exact (Store.Reads.kept k i).readWith n _ _ _ _ _ hreturned hr
  · have hresult := Collection.room_of_nth hroom' hs₂ hr
    rwa [max_assoc, max_eq_right (Nat.le_succ (m + 1))] at hresult

theorem Leaf.held_of_nth
    (hr : Leaf.run (Drive.ofFuel n) (.reading k Operator.nthPlan) x st = .ok (r, st')) :
    ∃ cell, st.cells[k]? = some (.held cell) := by
  obtain ⟨_, _, hread, -⟩ := Engine.of_bind_ok hr
  obtain ⟨cell, _, hlend, -⟩ := Engine.of_bind_ok hread
  exact ⟨cell, (Store.of_lendCell hlend).1⟩

theorem Leaf.room_of_nths (hreads : st.Reads k i) (h : st.Room i ∅ L m) {xs : List Scalar}
    {rs : List Linked.Item}
    (hr : xs.mapM (Leaf.run (Drive.ofFuel n) (.reading k Operator.nthPlan)) st = .ok (rs, st')) :
    st'.Reads k i ∧ st'.Room i ∅ (max L (m + 2)) m := by
  induction xs generalizing st rs L with
  | nil =>
    cases hr
    exact ⟨hreads, fun shared hi => ⟨(h shared hi).length_le.trans (le_max_left _ _),
      (h shared hi).card_le⟩⟩
  | cons x xs ih =>
    rw [List.mapM_cons] at hr
    obtain ⟨r, st₁, hx, hr⟩ := Engine.of_bind_ok hr
    obtain ⟨rs', st₂, hxs, hr⟩ := Engine.of_bind_ok hr
    cases hr
    obtain ⟨cell, hk⟩ := held_of_nth hx
    obtain ⟨s, slot, hc, hs⟩ := hreads.branch cell hk
    obtain ⟨j, hplace, hreads₁, h₁⟩ :=
      room_of_nth hk hc (fun f hf => Sequence.within_of_room h hs hf) hx
    obtain rfl : i = j := hplace _ hs
    obtain ⟨hreads₂, h₂⟩ := ih hreads₁ h₁ hxs
    rw [max_eq_left (le_max_right L (m + 2))] at h₂
    exact ⟨hreads₂, h₂⟩

theorem Leaf.within_of_nths (hk : st.cells[k]? = some (.held cell))
    (hc : cell.collection = .sequence s) (h : ∀ f, s.fanout? st = some f → f.Within ∅ L m)
    {xs : List Scalar} {rs : List Linked.Item}
    (hr : xs.mapM (Leaf.run (Drive.ofFuel n) (.reading k Operator.nthPlan)) st = .ok (rs, st'))
    {cell' : Cell} {s' : Linked.Sequence} {f : Fanout Linked.Item}
    (hk' : st'.cells[k]? = some (.held cell')) (hc' : cell'.collection = .sequence s')
    (hf : s'.fanout? st' = some f) :
    f.Within ∅ (max L (m + 2)) m := by
  cases xs with
  | nil =>
    cases hr
    cases hk.symm.trans hk'
    cases hc.symm.trans hc'
    exact ⟨(h f hf).length_le.trans (le_max_left _ _), (h f hf).card_le⟩
  | cons x xs =>
    rw [List.mapM_cons] at hr
    obtain ⟨r, st₁, hx, hr⟩ := Engine.of_bind_ok hr
    obtain ⟨rs', st₂, hxs, hr⟩ := Engine.of_bind_ok hr
    cases hr
    obtain ⟨i, -, hreads₁, h₁⟩ := room_of_nth hk hc h hx
    obtain ⟨hreads₂, h₂⟩ := room_of_nths hreads₁ h₁ hxs
    obtain ⟨s₂, slot, hc₂, hs₂⟩ := hreads₂.branch cell' hk'
    cases hc'.symm.trans hc₂
    rw [max_eq_left (le_max_right L (m + 2))] at h₂
    exact Sequence.within_of_room h₂ hs₂ hf

end

theorem Fanout.within_self {α : Type} (f : Fanout α) : f.Within ∅ f.slots.length f.taken.card :=
  ⟨le_rfl, (congrArg Finset.card Finset.sdiff_empty).le⟩

/-- In every state of a fan-out there is a threshold for each slot, every branch has a slot to
itself with just those items in it that the source has given and that it has not given itself, every
other slot is free, and there are as many slots as there ever were branches at one time; a fork
takes the first slot that is free. A pull gives something just if there is something left to give,
and what comes from the source comes as it is, but for the sequences in it, which are branches over
their own sources. However often a sequence, or a collection that is one, is searched for
elements, no more slots are added than the searches take at once. -/
theorem Charted.fanout_represents :
    (∀ {i : Nat} {c : Chart} {st : Store}, Charted i c st → c.Stands i st ∧
      ∀ {r : Nat} {reader : Reader} {hint : Hint} {finished : Bool} {hooks : List String}
        {s other : Linked.Sequence} {st' : Store}, at? c.readers r = some reader →
        Sequence.fork ⟨.branch ⟨i, reader.slot⟩, hint, finished, hooks⟩ st =
          .ok ((s, other), st') →
        ∃ shared, st.Shows i (.held shared) ∧ other.origin = .branch ⟨i, other.slot⟩ ∧
          IsLeast {slot | shared.fanout.slot? slot = none} other.slot) ∧
    (∀ {i : Nat} {c : Chart} {st : Store}, Charted i c st →
      ∀ {r : Nat} {reader : Reader} {n : Nat} {x : Option Linked.Item} {st' : Store},
        at? c.readers r = some reader →
        pullBranch (Drive.ofFuel n) ⟨i, reader.slot⟩ st = .ok (x, st') →
        (x.isSome = true ↔ reader.given.length <
          (c.next r reader (c.ask (Drive.ofFuel n) i reader st) x).produced.length) ∧
        ∀ item source, c.ask (Drive.ofFuel n) i reader st = some (some item, source) →
          ∃ item', x = some item' ∧ item.Becomes (fun j other => st'.Sources j other) item') ∧
    (∀ {n : Nat} {acts : List Readers.Act} {s : Linked.Sequence} {f : Fanout Linked.Item}
      {st st' : Store} {r : List (Readers.Reply Linked.Sequence) × Readers.Pool},
      (∀ a ∈ acts, a.Looks) → s.fanout? st = some f →
      Readers.run (Drive.ofFuel n) acts [some s] st = .ok (r, st') →
      ∃ s', r.2 = [some s'] ∧ ∀ f', s'.fanout? st' = some f' →
        f'.slots.length ≤ max f.slots.length (f.taken.card + 1) ∧
          f'.taken.card ≤ f.taken.card) ∧
    ∀ {n k : Nat} {xs : List Scalar} {cell : Cell} {s : Linked.Sequence} {f : Fanout Linked.Item}
      {st st' : Store} {rs : List Linked.Item},
      st.cells[k]? = some (.held cell) → cell.collection = .sequence s → s.fanout? st = some f →
      xs.mapM (Leaf.run (Drive.ofFuel n) (.reading k Operator.nthPlan)) st = .ok (rs, st') →
      ∀ {cell' : Cell} {s' : Linked.Sequence} {f' : Fanout Linked.Item},
        st'.cells[k]? = some (.held cell') → cell'.collection = .sequence s' →
        s'.fanout? st' = some f' →
        f'.slots.length ≤ max f.slots.length (f.taken.card + 2) ∧
          f'.taken.card ≤ f.taken.card := by
  refine ⟨fun h => ⟨h.stands, fun _ hfork => Store.isLeast_fork hfork⟩,
    fun h _ _ _ _ _ hr hpull => h.stands.gives hr hpull, ?_, ?_⟩
  · intro n acts s f st st' r hacts hf hr
    have hwithin : ∀ f', s.fanout? st = some f' → f'.Within ∅ f.slots.length f.taken.card := by
      intro f' hf'
      cases hf.symm.trans hf'
      exact f.within_self
    obtain ⟨s', hpool, h⟩ := Sequence.within_of_looks hwithin hacts hr
    refine ⟨s', hpool, fun f' hf' => ⟨(h f' hf').length_le, ?_⟩⟩
    simpa only [Finset.sdiff_empty] using (h f' hf').card_le
  · intro n k xs cell s f st st' rs hk hc hf hr cell' s' f' hk' hc' hf'
    have hwithin : ∀ f', s.fanout? st = some f' → f'.Within ∅ f.slots.length f.taken.card := by
      intro f' hf'
      cases hf.symm.trans hf'
      exact f.within_self
    have h := Leaf.within_of_nths hk hc hwithin hr hk' hc' hf'
    exact ⟨h.length_le, by simpa only [Finset.sdiff_empty] using h.card_le⟩

theorem exists_of_isOk {ε α : Type} {x : Except ε α} (h : x.isOk = true) : ∃ a, x = .ok a := by
  cases x with
  | error e => cases h
  | ok a => exact ⟨a, rfl⟩

/-- A fan-out over one item, which one of two branches has given, and two searches for that item. -/
theorem Charted.fanout_represents_single_item :
    (∃ (c : Chart) (st st' : Store) (reader : Reader) (x : Option Linked.Item), Charted 0 c st ∧
      at? c.readers 0 = some reader ∧
      pullBranch (Drive.ofFuel 0) ⟨0, reader.slot⟩ st = .ok (x, st') ∧ x.isSome = true ∧
      reader.given.length < (c.next 0 reader (c.ask (Drive.ofFuel 0) 0 reader st) x).produced.length ∧
      ∃ item item' source, c.ask (Drive.ofFuel 0) 0 reader st = some (some item, source) ∧
        x = some item' ∧ item.Becomes (fun j other => st'.Sources j other) item') ∧
    (∃ (c : Chart) (st st' : Store) (s other : Linked.Sequence), Charted 0 c st ∧ c.live = 2 ∧
      c.Stands 0 st ∧
      Sequence.fork ⟨.branch ⟨0, 1⟩, .exact 1, false, []⟩ st = .ok ((s, other), st') ∧
      ∃ shared, st.Shows 0 (.held shared) ∧ other.origin = .branch ⟨0, other.slot⟩ ∧
        IsLeast {slot | shared.fanout.slot? slot = none} other.slot) ∧
    (∃ st' r, Readers.run (Drive.ofFuel 3) [.index 0 0, .slice 0 0 1]
        [some (.ofValues [.scalar (.integer 7)] (.exact 1))] .empty = .ok (r, st') ∧
      ∃ s', r.2 = [some s'] ∧ ∀ f', s'.fanout? st' = some f' →
        f'.slots.length ≤ 2 ∧ f'.taken.card ≤ 1) ∧
    ∃ st' rs, [Scalar.integer 0, .integer 0].mapM
        (Leaf.run (Drive.ofFuel 3) (.reading 0 Operator.nthPlan))
        (Store.empty.addCell ⟨.sequence (.ofValues [.scalar (.integer 7)] (.exact 1)), 1⟩).2 =
          .ok (rs, st') ∧
      ∀ {cell' : Cell} {s' : Linked.Sequence} {f' : Fanout Linked.Item},
        st'.cells[0]? = some (.held cell') → cell'.collection = .sequence s' →
        s'.fanout? st' = some f' → f'.slots.length ≤ 3 ∧ f'.taken.card ≤ 1 := by
  obtain ⟨hchart, hgives, hlooks, hnths⟩ := Charted.fanout_represents
  rw [← and_assoc]
  refine ⟨?_, ?_, ?_⟩
  · let source : Linked.Source := .items [.ok (.scalar (.integer 7))]
    obtain ⟨st₁, st₂, st₃, hfork, hpull, hfork'⟩ : ∃ st₁ st₂ st₃,
        Sequence.fork ⟨.branch ⟨0, 0⟩, .exact 1, false, []⟩
          (Store.empty.addFanout ⟨source, .single, []⟩).2 =
            .ok ((⟨.branch ⟨0, 0⟩, .exact 1, false, []⟩, ⟨.branch ⟨0, 1⟩, .exact 1, false, []⟩),
              st₁) ∧
        pullBranch (Drive.ofFuel 0) ⟨0, 0⟩ st₁ =
          .ok (some (.ok (.scalar (.integer 7))), st₂) ∧
        Sequence.fork ⟨.branch ⟨0, 1⟩, .exact 1, false, []⟩ st₂ =
          .ok ((⟨.branch ⟨0, 1⟩, .exact 1, false, []⟩, ⟨.branch ⟨0, 2⟩, .exact 1, false, []⟩),
            st₃) :=
      ⟨_, _, _, rfl, rfl, rfl⟩
    have hstart : Charted 0 (.single source) (Store.empty.addFanout ⟨source, .single, []⟩).2 :=
      .new source [] rfl
    have hr : at? (Chart.single source).readers 0 = some ⟨0, []⟩ := rfl
    have hforked : Charted 0 ((Chart.single source).fork ⟨0, []⟩ 1) st₁ := hstart.fork hr hfork
    have hr₁ : at? ((Chart.single source).fork ⟨0, []⟩ 1).readers 0 = some ⟨0, []⟩ := rfl
    have hask : ((Chart.single source).fork ⟨0, []⟩ 1).ask (Drive.ofFuel 0) 0 ⟨0, []⟩ st₁ =
        some (some (.ok (.scalar (.integer 7))), .items []) := rfl
    obtain ⟨hsome, hitem⟩ := hgives hforked hr₁ hpull
    have hpulled := hforked.next hr₁ hpull
    rw [hask] at hpulled
    have hr₂ : at? (((Chart.single source).fork ⟨0, []⟩ 1).next 0 ⟨0, []⟩
        (some (some (.ok (.scalar (.integer 7))), .items []))
        (some (.ok (.scalar (.integer 7))))).readers 1 = some ⟨1, []⟩ := rfl
    obtain ⟨hstands, hleast⟩ := hchart hpulled
    refine ⟨⟨_, st₁, st₂, _, _, hforked, hr₁, hpull, rfl, hsome.mp rfl, ?_⟩,
      _, st₂, st₃, _, _, hpulled, rfl, hstands, hfork', hleast hr₂ hfork'⟩
    obtain ⟨item', hx, hbecomes⟩ := hitem _ _ hask
    exact ⟨_, item', _, hask, hx, hbecomes⟩
  · obtain ⟨⟨r, st'⟩, hrun⟩ := exists_of_isOk (x := Readers.run (Drive.ofFuel 3)
      [.index 0 0, .slice 0 0 1] [some (.ofValues [.scalar (.integer 7)] (.exact 1))] .empty)
      (by decide +kernel)
    obtain ⟨s', hpool, hbound⟩ := hlooks (by simp [Readers.Act.Looks]) rfl hrun
    refine ⟨st', r, hrun, s', hpool, fun f' hf' => ?_⟩
    have h := hbound f' hf'
    rw [Fanout.taken_single, Finset.card_singleton] at h
    exact h
  · obtain ⟨⟨rs, st'⟩, hrun⟩ := exists_of_isOk (x := [Scalar.integer 0, .integer 0].mapM
      (Leaf.run (Drive.ofFuel 3) (.reading 0 Operator.nthPlan))
      (Store.empty.addCell ⟨.sequence (.ofValues [.scalar (.integer 7)] (.exact 1)), 1⟩).2)
      (by decide +kernel)
    refine ⟨st', rs, hrun, fun hk' hc' hf' => ?_⟩
    have h := hnths rfl rfl rfl hrun hk' hc' hf'
    rw [Fanout.taken_single, Finset.card_singleton] at h
    exact h

end LazyCalc
