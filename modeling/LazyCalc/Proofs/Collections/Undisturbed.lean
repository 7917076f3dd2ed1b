import LazyCalc.Proofs.Collections.Apart
import LazyCalc.Proofs.Collections.Asked
import LazyCalc.Proofs.Collections.Copied
import LazyCalc.Proofs.Collections.Sole
import LazyCalc.Proofs.Desk.Standing
/-!
Operators on a collection and further arguments, called at any moment. Every call of the kernel sees
the whole collection, whatever else was read from it, every row of a batch is by itself, and a
source is asked once for each element, however many calls read it.
-/

namespace LazyCalc

/-- A copy of a sequence is one more branch over the same source, which is not asked for anything. -/
def Sequence.ForksShared (s : Linked.Sequence) (st : Store)
    (forks : Linked.Sequence × Linked.Sequence) (st' : Store) : Prop :=
  ∃ (i slot slot' : Nat) (shared : Shared), forks.1.origin = .branch ⟨i, slot⟩ ∧
    forks.2.origin = .branch ⟨i, slot'⟩ ∧ st'.fanouts[i]? = some (.held shared) ∧
    (s.origin = .direct shared.source ∨ s.origin = .branch ⟨i, slot⟩ ∧
      ∃ before : Shared, st.fanouts[i]? = some (.held before) ∧ before.source = shared.source)

theorem Sequence.forksShared {s : Linked.Sequence} {st st' : Store}
    {forks : Linked.Sequence × Linked.Sequence} (h : s.fork st = .ok (forks, st')) :
    s.ForksShared st forks st' := by
  obtain ⟨origin, hint, finished, hooks⟩ := s
  change forkWithin (st.fanouts.size + 1) _ st = _ at h
  cases origin with
  | direct source =>
    obtain ⟨i, st₁, hadd, h⟩ := Engine.of_bind_ok h
    obtain ⟨rfl, rfl⟩ := Prod.mk.inj (Except.ok.inj hadd)
    cases h
    exact ⟨_, _, _, _, rfl, rfl, (Store.getElem?_addFanout st _ _).trans (if_pos rfl), .inl rfl⟩
  | branch place =>
    obtain ⟨i, slot⟩ := place
    obtain ⟨⟨source, fanout, labels⟩, st₁, hlend, h⟩ := Engine.of_bind_ok h
    obtain ⟨hi, rfl⟩ := Store.of_lendFanout hlend
    obtain ⟨⟨own, seed⟩, st₂, hcopy, h⟩ := Engine.of_bind_ok h
    have hlent : (st.setFanout i .lent).Shows i .lent := Store.Shows.of_set hi
    have hlent₂ := Item.keeps_copyListWith
      (Store.keeps_forkWithin_shows Store.lent_ne_held st.fanouts.size) _ _ _ _ hlent hcopy
    cases h
    exact ⟨i, slot, _, _, rfl, rfl, hlent₂.of_set, .inr ⟨rfl, _, hi, rfl⟩⟩

theorem Rests.yields_apart_iff {G : Ledger} {st : Store} {taken : Twins.Desk} {B : Twins.Parts}
    (h : Rests G st (parts taken + B)) {vs : List Lone.Value} (hright : right taken = vs.map some)
    (name : String) (op : Operator) (acts : List (Nat × Act))
    (out : Except Failure (List (Nat × Showing))) :
    Yields (fun n => Prod.fst <$> Desk.apart (Drive.ofFuel n) Sequence.onClose name op
        (List.range vs.length) acts (left taken)) st out ↔
      Desk.ShowsApart (fun n => op.call (Drive.alone n) name vs) (List.replicate vs.length none) acts
        out := by
  have hsame : Yields (fun n => Prod.fst <$> Desk.apart (Drive.ofFuel n) Sequence.onClose name op
        (List.range vs.length) acts (left taken)) st out ↔
      Settles (fun n => (Desk.apart (Drive.alone n) (fun s _ => s) name op (List.range vs.length)
        acts (right taken)).map Prod.fst) out :=
    Concord.yields_iff (fun n => h.apart n name op _ acts) (by rintro ⟨_ | _, _⟩ <;> rfl) out
  rw [hsame, Desk.settles_apart_iff, hright, Desk.take_range]

namespace Moment

theorem askedOnce (M : Moment) : M.store.AskedOnce := by
  obtain ⟨labels, desk, st, reached⟩ := M
  change st.AskedOnce
  induction reached with
  | start => exact .empty
  | run n acts _ hrun ih => exact Store.AskedOnce.kept.run n acts _ _ _ _ ih hrun

theorem exists_apart (M : Moment) (numbers : List Nat) :
    ∃ vs, vs.length = (M.picked numbers).length ∧ M.Stands numbers vs ∧
      ∀ (name : String) (op : Operator) (acts : List (Nat × Act))
        (out : Except Failure (List (Nat × Showing))),
      Yields (fun n => Prod.fst <$> Desk.apart (Drive.ofFuel n) Sequence.onClose name op
          (List.range vs.length) acts (M.picked numbers)) M.store out ↔
        Desk.ShowsApart (fun n => op.call (Drive.alone n) name vs) (List.replicate vs.length none)
          acts out := by
  obtain ⟨desk, G, hdesk, h, -⟩ := M.rests
  obtain ⟨taken, B, hl, hr, hrest⟩ := h.exists_picked numbers
  refine ⟨(Desk.take numbers (right desk)).1, ?_, fun acts rs => ?_, fun name op acts out => ?_⟩
  · have hlength : (left taken).length = (right taken).length :=
      (List.length_map _).trans (List.length_map _).symm
    rw [hl, hr, hdesk, List.length_map, List.length_map] at hlength
    rw [picked, List.length_map]
    exact hlength.symm
  · rw [picked, ← hdesk]
    exact h.yields_picked_iff numbers acts rs
  · rw [picked, ← hdesk, ← hl]
    exact hrest.yields_apart_iff hr name op acts out

/-- What an operator on a collection gives at any moment, however the collection and the arguments
are shared, is what it gives where every call of the kernel reads a collection of its own from the
start, with rows that are each by themselves. What is read more than once is shared, and at every
moment all that comes of a sequence with a label of its own reads one source, asked just as often as
a reader would have asked it alone, and for what waits for that reader. -/
theorem collections_undisturbed (M : Moment) (numbers : List Nat) :
    (∃ vs, vs.length = (M.picked numbers).length ∧ M.Stands numbers vs ∧
      ∀ (op : Operator) (Y : Nat → Option Lone.Item), op.Afresh vs Y →
      ∀ (name : String) (acts : List (Nat × Act)) (out : Except Failure (List (Nat × Showing))),
        Yields (fun n => Prod.fst <$> Desk.apart (Drive.ofFuel n) Sequence.onClose name op
            (List.range vs.length) acts (M.picked numbers)) M.store out ↔
          Desk.ShowsApart Y (List.replicate vs.length none) acts out) ∧
    (∀ (n : Nat) (name : String) (op : Operator) (arguments : List Nat) (acts : List (Nat × Act))
        (c : Except Failure (List (Nat × Showing)) × List Linked.Desk) (st : Store),
      Desk.apart (Drive.ofFuel n) Sequence.onClose name op arguments acts (M.picked numbers)
        M.store = .ok (c, st) → st.AskedOnce) ∧
    (∀ (s : Linked.Sequence) (forks : Linked.Sequence × Linked.Sequence) (st : Store),
      s.fork M.store = .ok (forks, st) → s.ForksShared M.store forks st) ∧
    ReadsShared ∧ M.store.AskedOnce ∧
    (∃ lone, Remembered M.labels M.desk M.store lone) ∧
    ∀ lone, Remembered M.labels M.desk M.store lone →
      ∃ (desk : Twins.Desk) (R : Recollection), left desk = M.desk ∧ right desk = lone ∧
        R.Tells M.book M.store desk ∧ R.Counted M.store ∧
        ∀ label, M.labels.count label = 1 → R.OneSource M.book label := by
  refine ⟨?_, ?_, fun s forks st => Sequence.forksShared, readsShared, M.askedOnce,
    M.reached.remembered, fun lone h => ?_⟩
  · obtain ⟨vs, hlength, hvs, happly⟩ := M.exists_apart numbers
    refine ⟨vs, hlength, hvs, fun op Y hY name acts out => ?_⟩
    rw [happly name op acts out, show (fun n => op.call (Drive.alone n) name vs) = Y from
      funext (hY.call_eq name)]
  · intro n name op arguments acts c st hrun
    obtain ⟨x, st₁, hcall, hrun⟩ := Engine.of_bind_ok hrun
    have h₁ := Store.AskedOnce.kept.call n name op _ _ _ _ M.askedOnce hcall
    cases x with
    | error e =>
      cases hrun
      exact h₁
    | ok w => exact ((Store.AskedOnce.kept.run n acts _).bind fun _ => .pure _) _ _ _ h₁ hrun
  · obtain ⟨desk, R, hleft, hright, hR⟩ := M.recalled lone h
    exact ⟨desk, R, hleft, hright, hR, hR.counted, M.one_source R⟩

end Moment

end LazyCalc
