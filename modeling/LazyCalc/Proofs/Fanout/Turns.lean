import LazyCalc.Proofs.Engine.Logs
import LazyCalc.Proofs.Fanout.Becoming
import LazyCalc.Proofs.Fanout.Lags
import LazyCalc.Proofs.Fanout.Taken
/-!
What a fork, a pull and a drop of a branch do to its fan-out. The fan-out is lent in the meantime,
and nothing else that is done then can get at it.
-/

namespace LazyCalc

namespace Fanout

/-- The branch in a slot is forked. What was a copy of its backlog is a copy of both. -/
structure Forked (slot : Nat) (f : Fanout Linked.Item) (own seed : List Linked.Item) (place : Nat)
    (g : Fanout Linked.Item) : Prop where
  join_eq : (f.setBacklog slot own).join seed = (place, g)
  copies : ∀ {xs : List Linked.Item}, List.Forall₂ Item.Copies xs (f.backlog slot) →
    List.Forall₂ Item.Copies xs own ∧ List.Forall₂ Item.Copies xs seed

inductive Pulled (slot : Nat) (f : Fanout Linked.Item) :
    Option Linked.Item → Fanout Linked.Item → Prop
  | waiting {item : Linked.Item} {g : Fanout Linked.Item} (hpop : f.pop? slot = some (item, g)) :
    Pulled slot f (some item) g
  | ended {g : Fanout Linked.Item} (hpop : f.pop? slot = none) (hslots : g.slots = f.slots) :
    Pulled slot f none g
  /-- The item comes from the source, and every other branch has a copy added to its backlog. -/
  | produced {item : Linked.Item} {g : Fanout Linked.Item} (hpop : f.pop? slot = none)
    (hlength : g.slots.length = f.slots.length)
    (hfree : ∀ j, f.slot? j = none → g.slot? j = none)
    (hown : g.slot? slot = f.slot? slot)
    (hother : ∀ j s, j ≠ slot → f.slot? j = some s →
      ∃ other, item.Copies other ∧ g.slot? j = some (s.push other).1) :
    Pulled slot f (some item) g

end Fanout

/-- What a pull of the branch in a slot comes to, and the fan-out after it. Where the branch has
something before it, or the source is done, the source is not asked. -/
inductive Shared.Pulls (d : Linked.Drive) (i slot : Nat) (st st' : Store) :
    Shared → Option Linked.Item → Shared → Prop
  | waiting {shared : Shared} {item : Linked.Item} {fanout : Fanout Linked.Item}
    (hpop : shared.fanout.pop? slot = some (item, fanout)) :
    Pulls d i slot st st' shared (some item) { shared with fanout }
  | drained {shared : Shared} (hpop : shared.fanout.pop? slot = none)
    (hdone : shared.fanout.done = true) : Pulls d i slot st st' shared none shared
  | ended {shared : Shared} {source : Linked.Source} {st₁ : Store}
    (hpop : shared.fanout.pop? slot = none) (hdone : ¬ shared.fanout.done = true)
    (hstep : shared.source.step d (st.setFanout i .lent) = .ok ((none, source), st₁)) :
    Pulls d i slot st st' shared none
      ⟨source, { shared.fanout with done := true }, shared.hooks⟩
  /-- The puller is given what the copying for the others leaves of the item. -/
  | produced {shared : Shared} {source : Linked.Source} {item item' : Linked.Item} {st₁ : Store}
    {slots : List (Option (Slot Linked.Item))} (hpop : shared.fanout.pop? slot = none)
    (hdone : ¬ shared.fanout.done = true)
    (hstep : shared.source.step d (st.setFanout i .lent) = .ok ((some item, source), st₁))
    (hbecomes : item.Becomes (fun j source => st'.Sources j source) item')
    (hslots : Fanout.Pulled slot shared.fanout (some item') ⟨slots, Item.isFailure item⟩) :
    Pulls d i slot st st' shared (some item')
      ⟨source, ⟨slots, Item.isFailure item⟩, shared.hooks⟩

theorem Shared.Pulls.pulled {d : Linked.Drive} {i slot : Nat} {st st' : Store}
    {shared shared' : Shared} {x : Option Linked.Item} (h : shared.Pulls d i slot st st' x shared') :
    Fanout.Pulled slot shared.fanout x shared'.fanout := by
  cases h with
  | waiting hpop => exact .waiting hpop
  | drained hpop => exact .ended hpop rfl
  | ended hpop => exact .ended hpop rfl
  | produced _ _ _ _ hslots => exact hslots

namespace Fanout

variable {fork : Linked.Sequence → Engine (Linked.Sequence × Linked.Sequence)}

theorem of_deliver (hfork : Forks fork) {puller k : Nat} {x x' : Linked.Item}
    {slots slots' : List (Option (Slot Linked.Item))} {lags : List Lag} {st st' : Store}
    (h : deliver (Item.copyWith fork) puller x k slots st = .ok ((x', slots', lags), st')) :
    slots'.length = slots.length ∧ (∀ y, x.Copies y → x'.Copies y) ∧
      ∀ j, (slots[j]?.join = none → slots'[j]?.join = none) ∧
        (k + j = puller → slots'[j]?.join = slots[j]?.join) ∧
        ∀ s, k + j ≠ puller → slots[j]?.join = some s →
          ∃ other, x'.Copies other ∧ slots'[j]?.join = some (s.push other).1 := by
  -- what goes on from slot to slot is what the copying left, and copies of that are copies of `x`
  induction slots generalizing k x slots' lags st with
  | nil =>
    cases h
    exact ⟨rfl, fun _ hy => hy, fun j => ⟨id, fun _ => rfl, fun _ _ hs => by cases hs⟩⟩
  | cons t slots ih =>
    have hshift (j : Nat) : k + 1 + j = k + (j + 1) := by omega
    cases t with
    | none =>
      obtain ⟨⟨x₁, slots₁, lags₁⟩, st₁, hrest, h⟩ := Engine.of_bind_ok h
      cases h
      obtain ⟨hlength, hcopies, hslots⟩ := ih hrest
      refine ⟨congrArg Nat.succ hlength, hcopies, fun j => ?_⟩
      cases j with
      | zero => exact ⟨id, fun _ => rfl, fun _ _ hs => by cases hs⟩
      | succ j => exact hshift j ▸ hslots j
    | some s =>
      rw [deliver] at h
      by_cases hk : k = puller
      · rw [if_pos hk] at h
        obtain ⟨⟨x₁, slots₁, lags₁⟩, st₁, hrest, h⟩ := Engine.of_bind_ok h
        cases h
        obtain ⟨hlength, hcopies, hslots⟩ := ih hrest
        refine ⟨congrArg Nat.succ hlength, hcopies, fun j => ?_⟩
        cases j with
        | zero =>
          exact ⟨fun hnone => (Option.some_ne_none _ hnone).elim, fun _ => rfl,
            fun _ hne => (hne hk).elim⟩
        | succ j => exact hshift j ▸ hslots j
      · rw [if_neg hk] at h
        obtain ⟨⟨x₁, other⟩, st₁, hcopy, h⟩ := Engine.of_bind_ok h
        obtain ⟨⟨x₂, slots₂, lags₂⟩, st₂, hrest, h⟩ := Engine.of_bind_ok h
        cases h
        obtain ⟨hown, hleft⟩ := hfork.copies hcopy
        obtain ⟨hlength, hcopies, hslots⟩ := ih hrest
        refine ⟨congrArg Nat.succ hlength, fun y hy => hcopies y (hleft y hy), fun j => ?_⟩
        cases j with
        | zero =>
          refine ⟨fun hnone => (Option.some_ne_none _ hnone).elim, fun he => (hk he).elim,
            fun t _ ht => ?_⟩
          cases ht
          exact ⟨other, hcopies other hown, rfl⟩
        | succ j => exact hshift j ▸ hslots j

end Fanout

namespace Store

variable {st st' : Store} {i slot : Nat} {hint : Hint} {finished : Bool} {hooks : List String}

theorem of_forkWithin_branch {depth : Nat} {r : Linked.Sequence × Linked.Sequence}
    (h : Sequence.forkWithin depth ⟨.branch ⟨i, slot⟩, hint, finished, hooks⟩ st = .ok (r, st')) :
    ∃ shared own seed place fanout, st.Shows i (.held shared) ∧
      Fanout.Forked slot shared.fanout own seed place fanout ∧
      r = (⟨.branch ⟨i, slot⟩, hint, finished, []⟩, ⟨.branch ⟨i, place⟩, hint, finished, []⟩) ∧
      st'.Shows i (.held ⟨shared.source, fanout, shared.hooks ++ hooks⟩) ∧
      own.length = (shared.fanout.backlog slot).length ∧
      seed.length = (shared.fanout.backlog slot).length := by
  cases depth with
  | zero => cases h
  | succ depth =>
    obtain ⟨shared, st₁, hlend, h⟩ := Engine.of_bind_ok h
    obtain ⟨hi, rfl⟩ := of_lendFanout hlend
    obtain ⟨⟨own, seed⟩, st₂, hcopy, h⟩ := Engine.of_bind_ok h
    have hlent : (st.setFanout i .lent).Shows i .lent := Shows.of_set hi
    have hlent₂ := Item.keeps_copyListWith (keeps_forkWithin_shows lent_ne_held _) _ _ _ _ hlent
      hcopy
    cases h
    have hforked : Fanout.Forked slot shared.fanout own seed _ _ :=
      ⟨rfl, fun hxs => (Sequence.forks_forkWithin _).copies_items hxs hcopy⟩
    exact ⟨shared, own, seed, _, _, hi, hforked, rfl, hlent₂.of_set,
      Item.length_copyListWith hcopy⟩

theorem of_fork_branch {r : Linked.Sequence × Linked.Sequence}
    (h : Sequence.fork ⟨.branch ⟨i, slot⟩, hint, finished, hooks⟩ st = .ok (r, st')) :
    ∃ shared own seed place fanout, st.Shows i (.held shared) ∧
      Fanout.Forked slot shared.fanout own seed place fanout ∧
      r = (⟨.branch ⟨i, slot⟩, hint, finished, []⟩, ⟨.branch ⟨i, place⟩, hint, finished, []⟩) ∧
      st'.Shows i (.held ⟨shared.source, fanout, shared.hooks ++ hooks⟩) := by
  obtain ⟨shared, own, seed, place, fanout, hi, hforked, hr, hi', -⟩ := of_forkWithin_branch h
  exact ⟨shared, own, seed, place, fanout, hi, hforked, hr, hi'⟩

/-- The store once a pull of a branch has asked the source. It does not ask where the branch has
something before it, or where the source is done. -/
inductive Asked (d : Linked.Drive) (i slot : Nat) (st : Store) : Store → Prop
  | needless {shared : Shared} (hi : st.Shows i (.held shared))
    (hready : shared.fanout.pop? slot ≠ none ∨ shared.fanout.done = true) : Asked d i slot st st
  | step {shared : Shared} {r : Option Linked.Item × Linked.Source} {st' : Store}
    (hi : st.Shows i (.held shared)) (hpop : shared.fanout.pop? slot = none)
    (hdone : ¬ shared.fanout.done = true)
    (hstep : shared.source.step d (st.setFanout i .lent) = .ok (r, st')) : Asked d i slot st st'

theorem Asked.unique {d : Linked.Drive} {st₁ st₂ : Store} (h₁ : st.Asked d i slot st₁)
    (h₂ : st.Asked d i slot st₂) : st₁ = st₂ := by
  cases h₁ with
  | needless hi hready =>
    cases h₂ with
    | needless => rfl
    | step hi' hpop hdone =>
      cases hi.symm.trans hi'
      exact (hready.elim (fun hpop' => hpop' hpop) hdone).elim
  | step hi hpop hdone hstep =>
    cases h₂ with
    | needless hi' hready =>
      cases hi.symm.trans hi'
      exact (hready.elim (fun hpop' => hpop' hpop) hdone).elim
    | step hi' _ _ hstep' =>
      cases hi.symm.trans hi'
      cases hstep.symm.trans hstep'
      rfl

theorem of_pullBranch_warns {n : Nat} {x : Option Linked.Item}
    (h : pullBranch (Drive.ofFuel n) ⟨i, slot⟩ st = .ok (x, st')) :
    ∃ shared shared', st.Shows i (.held shared) ∧
      shared.Pulls (Drive.ofFuel n) i slot st st' x shared' ∧ st'.Shows i (.held shared') ∧
      ∃ st₁ lags, st.Asked (Drive.ofFuel n) i slot st₁ ∧
        Fanout.Warns slot shared.fanout shared'.fanout lags ∧
        st'.log.toList = st₁.log.toList ++ lags.map .lagging := by
  obtain ⟨⟨source, fanout, hooks⟩, st₁, hlend, h⟩ := Engine.of_bind_ok h
  obtain ⟨hi, rfl⟩ := of_lendFanout hlend
  have hlent : (st.setFanout i .lent).Shows i .lent := Shows.of_set hi
  refine ⟨⟨source, fanout, hooks⟩, ?_⟩
  cases hpop : fanout.pop? slot with
  | some popped =>
    simp only [hpop] at h
    cases h
    exact ⟨_, hi, .waiting hpop, hlent.of_set, st, [],
      .needless hi (.inl (by rw [hpop]; exact Option.some_ne_none _)), .of_pop hpop,
      (List.append_nil _).symm⟩
  | none =>
    simp only [hpop] at h
    by_cases hdone : fanout.done = true
    · rw [if_pos hdone] at h
      cases h
      exact ⟨_, hi, .drained hpop hdone, hlent.of_set, st, [], .needless hi (.inr hdone),
        .of_slots_eq rfl, (List.append_nil _).symm⟩
    · rw [if_neg hdone] at h
      obtain ⟨⟨_ | item, source'⟩, st₂, hstep, h⟩ := Engine.of_bind_ok h
      · cases h
        have hlent₂ := (kept_shows lent_ne_held).step n source _ _ _ hlent hstep
        exact ⟨_, hi, .ended hpop hdone hstep, hlent₂.of_set, st₂, [], .step hi hpop hdone hstep,
          .of_slots_eq rfl, (List.append_nil _).symm⟩
      · have hlent₂ := (kept_shows lent_ne_held).step n source _ _ _ hlent hstep
        obtain ⟨⟨item', slots, lags⟩, st₃, hdeliver, h⟩ := Engine.of_bind_ok h
        have hlent₃ := Fanout.keeps_deliver (Item.keeps_copyWith (keeps_fork_shows lent_ne_held))
          slot item 0 fanout.slots _ _ _ hlent₂ hdeliver
        have hlog : st₃.log = st₂.log := Fanout.keeps_deliver
          (Item.keeps_copyWith Sequence.keeps_log_fork) slot item 0 fanout.slots _ _ _ rfl hdeliver
        have hbecomes := Fanout.becomes_deliver hdeliver
        obtain ⟨hlength, -, hslots⟩ := Fanout.of_deliver Sequence.forks_fork hdeliver
        obtain ⟨hordered, hlags⟩ := Fanout.lags_of_deliver hdeliver
        simp only [zero_add] at hslots
        have hlent₄ : (st₃.record (lags.map .lagging)).Shows i .lent := hlent₃
        cases h
        refine ⟨_, hi, .produced hpop hdone hstep (hbecomes.mono fun j other hj => ?_)
          (.produced hpop hlength (fun j => (hslots j).1) ((hslots slot).2.1 rfl)
            fun j => (hslots j).2.2),
          hlent₄.of_set, st₂, lags, .step hi hpop hdone hstep, ?_, ?_⟩
        · -- the fan-out itself is lent all along, so that it is none of those
          obtain ⟨shared, hj, rfl⟩ := hj
          exact Sources.setFanout_ne ⟨shared, hj, rfl⟩ (hlent₃.ne_of_held lent_ne_held hj).symm _
        · refine .of_push ((hslots slot).2.1 rfl) (fun j s hne hs => ?_) hordered hlags
          obtain ⟨other, -, hpushed⟩ := (hslots j).2.2 s hne hs
          exact ⟨other, hpushed⟩
        · rw [log_setFanout, toList_log_record, hlog]

theorem of_pullBranch {n : Nat} {x : Option Linked.Item}
    (h : pullBranch (Drive.ofFuel n) ⟨i, slot⟩ st = .ok (x, st')) :
    ∃ shared shared', st.Shows i (.held shared) ∧
      shared.Pulls (Drive.ofFuel n) i slot st st' x shared' ∧ st'.Shows i (.held shared') := by
  obtain ⟨shared, shared', hi, hpulls, hi', -⟩ := of_pullBranch_warns h
  exact ⟨shared, shared', hi, hpulls, hi'⟩

theorem of_drop_branch {u : Unit}
    (h : Engine.dropValues [.sequence ⟨.branch ⟨i, slot⟩, hint, finished, hooks⟩] st =
      .ok (u, st')) :
    ∃ shared, st.Shows i (.held shared) ∧
      st'.Shows i (if (shared.fanout.leave slot).isDeserted = true then .vacant
        else .held { shared with fanout := shared.fanout.leave slot }) := by
  cases Releases.of_drop h with
  | sequence h =>
    cases h with
    | @branch _ _ _ _ _ shared _ _ _ hi h =>
      -- While the backlog is dropped the fan-out is lent, so that nothing reaches it.
      obtain ⟨st₂, hitems, hfanout⟩ := h.of_append
      have hlent := (guard_shows lent_ne_held).of_releases hitems (Shows.of_set hi)
        (Debris.guarded_ofItems _ _)
      refine ⟨shared, hi, ?_⟩
      cases hfanout with
      | fanoutLast hlast h =>
        rw [if_pos hlast]
        exact (guard_shows vacant_ne_held).of_releases h hlent.of_set
          (List.forall_mem_singleton.mpr trivial)
      | fanout hmore h =>
        cases h
        rw [if_neg hmore]
        exact hlent.of_set

end Store

end LazyCalc
