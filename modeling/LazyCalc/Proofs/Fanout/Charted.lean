import LazyCalc.Proofs.Fanout.Charts
namespace LazyCalc

open Readers (at?)

def Sequence.slot (s : Linked.Sequence) : Nat :=
  match s.origin with
  | .branch place => place.slot
  | .direct _ => 0

/-- The charts of the fan-out at the place `i`, over all that is done with its branches. Whatever
else goes on leaves the place alone. -/
inductive Charted (i : Nat) : Chart → Store → Prop
  | new {st : Store} (source : Linked.Source) (hooks : List String) (hi : i = st.fanouts.size) :
    Charted i (.single source) (st.addFanout ⟨source, .single, hooks⟩).2
  | fork {c : Chart} {st st' : Store} {r : Nat} {reader : Reader} {hint : Hint} {finished : Bool}
    {hooks : List String} {s other : Linked.Sequence} (h : Charted i c st)
    (hr : at? c.readers r = some reader)
    (hfork : Sequence.fork ⟨.branch ⟨i, reader.slot⟩, hint, finished, hooks⟩ st =
      .ok ((s, other), st')) :
    Charted i (c.fork reader other.slot) st'
  | next {c : Chart} {st st' : Store} {r : Nat} {reader : Reader} {n : Nat}
    {x : Option Linked.Item} (h : Charted i c st) (hr : at? c.readers r = some reader)
    (hpull : pullBranch (Drive.ofFuel n) ⟨i, reader.slot⟩ st = .ok (x, st')) :
    Charted i (c.next r reader (c.ask (Drive.ofFuel n) i reader st) x) st'
  | drop {c : Chart} {st st' : Store} {r : Nat} {reader : Reader} {hint : Hint} {finished : Bool}
    {hooks : List String} {u : Unit} (h : Charted i c st) (hr : at? c.readers r = some reader)
    (hdrop : Engine.dropValues [.sequence ⟨.branch ⟨i, reader.slot⟩, hint, finished, hooks⟩] st =
      .ok (u, st')) :
    Charted i (c.drop r) st'
  | elsewhere {c : Chart} {st st' : Store} (h : Charted i c st)
    (hplace : st'.fanouts[i]? = st.fanouts[i]?) : Charted i c st'

theorem Sequence.fork_direct (source : Linked.Source) (hint : Hint) (finished : Bool)
    (hooks : List String) (st : Store) :
    fork ⟨.direct source, hint, finished, hooks⟩ st =
      fork ⟨.branch ⟨st.fanouts.size, 0⟩, hint, finished, []⟩
        (st.addFanout ⟨source, .single, hooks⟩).2 := by
  have hi : (st.addFanout ⟨source, .single, hooks⟩).2.fanouts[st.fanouts.size]? =
      some (.held ⟨source, .single, hooks⟩) := by
    rw [Store.getElem?_addFanout, if_pos rfl]
  change _ = forkWithin _ _ _
  rw [forkWithin]
  dsimp only
  rw [Engine.bind_eq (Engine.lendFanout_eq hi)]
  change _ = Except.ok (_, ((st.addFanout ⟨source, .single, hooks⟩).2.setFanout _ _).setFanout _ _)
  rw [Store.setFanout_setFanout, Store.setFanout_addFanout, List.append_nil]
  rfl

/-- A fan-out is there as long as it has branches, and holds what its chart says, with the source
that the chart has. -/
structure Chart.Stands (c : Chart) (i : Nat) (st : Store) : Prop where
  there : 0 < c.live → ∃ shared, st.Shows i (.held shared) ∧ shared.source = c.source ∧
    c.Represents shared.fanout
  gone : c.live = 0 → st.Shows i .vacant

namespace Chart.Stands

variable {c : Chart} {i r : Nat} {st st' : Store} {reader : Reader} {hint : Hint} {finished : Bool}
  {hooks : List String}

theorem represents (h : c.Stands i st) (hr : at? c.readers r = some reader) {shared : Shared}
    (hi : st.Shows i (.held shared)) : shared.source = c.source ∧ c.Represents shared.fanout := by
  obtain ⟨shared', hi', hsource, hrep⟩ := h.there (live_pos hr)
  cases hi.symm.trans hi'
  exact ⟨hsource, hrep⟩

theorem fork (h : c.Stands i st) (hr : at? c.readers r = some reader) {s other : Linked.Sequence}
    (hfork : Sequence.fork ⟨.branch ⟨i, reader.slot⟩, hint, finished, hooks⟩ st =
      .ok ((s, other), st')) : (c.fork reader other.slot).Stands i st' := by
  obtain ⟨shared, own, seed, place, fanout, hi, hforked, hresult, hi'⟩ := Store.of_fork_branch hfork
  obtain ⟨-, rfl⟩ := Prod.mk.inj hresult
  obtain ⟨hsource, hrep⟩ := h.represents hr hi
  have hlive : (c.fork reader place).live = c.live + 1 := live_append _ _
  exact ⟨fun _ => ⟨_, hi', hsource, hrep.fork hr hforked⟩,
    fun hgone => (Nat.succ_ne_zero _ (hlive.symm.trans hgone)).elim⟩

theorem next (h : c.Stands i st) (hr : at? c.readers r = some reader) {n : Nat}
    {x : Option Linked.Item}
    (hpull : pullBranch (Drive.ofFuel n) ⟨i, reader.slot⟩ st = .ok (x, st')) :
    (c.next r reader (c.ask (Drive.ofFuel n) i reader st) x).Stands i st' := by
  obtain ⟨shared, shared', hi, hpulls, hi'⟩ := Store.of_pullBranch hpull
  obtain ⟨hsource, hrep⟩ := h.represents hr hi
  exact ⟨fun _ => ⟨_, hi', hrep.next hsource hr hpulls⟩, fun hgone =>
    ((live_pos hr).ne' ((live_next hr _ x).symm.trans hgone)).elim⟩

theorem gives (h : c.Stands i st) (hr : at? c.readers r = some reader) {n : Nat}
    {x : Option Linked.Item}
    (hpull : pullBranch (Drive.ofFuel n) ⟨i, reader.slot⟩ st = .ok (x, st')) :
    (x.isSome = true ↔ reader.given.length <
      (c.next r reader (c.ask (Drive.ofFuel n) i reader st) x).produced.length) ∧
    ∀ item source, c.ask (Drive.ofFuel n) i reader st = some (some item, source) →
      ∃ item', x = some item' ∧ item.Becomes (fun j other => st'.Sources j other) item' := by
  obtain ⟨shared, shared', hi, hpulls, -⟩ := Store.of_pullBranch hpull
  obtain ⟨hsource, hrep⟩ := h.represents hr hi
  exact hrep.gives hsource hr hpulls

theorem drop (h : c.Stands i st) (hr : at? c.readers r = some reader) {u : Unit}
    (hdrop : Engine.dropValues [.sequence ⟨.branch ⟨i, reader.slot⟩, hint, finished, hooks⟩] st =
      .ok (u, st')) : (c.drop r).Stands i st' := by
  obtain ⟨shared, hi, hi'⟩ := Store.of_drop_branch hdrop
  obtain ⟨hsource, hrep⟩ := (h.represents hr hi).imp_right fun hrep => hrep.drop hr
  have hlast : (shared.fanout.leave reader.slot).isDeserted = true ↔ (c.drop r).live = 0 := by
    rw [Fanout.isDeserted_iff_taken, ← Finset.card_eq_zero, hrep.live]
  constructor
  · intro hpos
    rw [if_neg (by rw [hlast]; omega)] at hi'
    exact ⟨_, hi', hsource, hrep⟩
  · intro hgone
    rwa [if_pos (hlast.mpr hgone)] at hi'

end Chart.Stands

theorem Charted.stands {i : Nat} {c : Chart} {st : Store} (h : Charted i c st) : c.Stands i st := by
  induction h with
  | @new st source hooks hi =>
    refine ⟨fun _ => ⟨⟨source, .single, hooks⟩, ?_, rfl, .single source⟩, fun hgone => (Nat.one_ne_zero hgone).elim⟩
    rw [Store.Shows, Store.getElem?_addFanout, if_pos hi]
  | fork _ hr hfork ih => exact ih.fork hr hfork
  | next _ hr hpull ih => exact ih.next hr hpull
  | drop _ hr hdrop ih => exact ih.drop hr hdrop
  | elsewhere _ hplace ih =>
    constructor
    · intro hpos
      obtain ⟨shared, hi, hsource, hrep⟩ := ih.there hpos
      exact ⟨shared, hplace.trans hi, hsource, hrep⟩
    · intro hgone
      exact hplace.trans (ih.gone hgone)

end LazyCalc
