import LazyCalc.Proofs.Engine.Guards
import LazyCalc.Proofs.Fanout.Branches
/-!
Shared sources are asked once for each element. Of a fan-out over a source that counts how often it
is asked, every branch has the last answers before it that it has not given yet, and none of them is
asked for again.
-/

namespace LazyCalc

open Engine (Keeps)

/-- From one number on, up to another, the answers are the items. -/
inductive Answers (answer : Nat → Option PlainItem) : Nat → List Linked.Item → Nat → Prop
  | nil (k : Nat) : Answers answer k [] k
  | cons {k last : Nat} {x : PlainItem} {xs : List Linked.Item} (h : answer k = some x)
    (hxs : Answers answer (k + 1) xs last) : Answers answer k (.ofPlain x :: xs) last

namespace Answers

variable {answer : Nat → Option PlainItem} {first last : Nat} {x : PlainItem}
  {xs : List Linked.Item}

theorem concat (h : Answers answer first xs last) (hx : answer last = some x) :
    Answers answer first (xs ++ [.ofPlain x]) (last + 1) := by
  induction h with
  | nil k => exact .cons hx (.nil _)
  | cons h _ ih => exact .cons h (ih hx)

theorem exists_plain (h : Answers answer first xs last) :
    ∃ ys : List PlainItem, xs = ys.map Item.ofPlain := by
  induction h with
  | nil => exact ⟨[], rfl⟩
  | @cons k last x xs h _ ih =>
    obtain ⟨ys, rfl⟩ := ih
    exact ⟨x :: ys, rfl⟩

theorem of_cons {y : Linked.Item} (h : Answers answer first (y :: xs) last) :
    Answers answer (first + 1) xs last := by
  cases h with
  | cons _ hxs => exact hxs

end Answers

/-- What a branch has before it are answers, up to the last one that the source was asked for. -/
def Shared.AskedOnce (shared : Shared) : Prop :=
  ∀ answer asked, shared.source = .generated (.answers answer asked) →
    ∀ slot s, shared.fanout.slot? slot = some s →
      ∃ first last, Answers answer first s.backlog.toList last ∧ last ≤ asked ∧
        (shared.fanout.done = false → last = asked)

def Store.AskedOnce (st : Store) : Prop :=
  ∀ (i : Nat) (shared : Shared), st.fanouts[i]? = some (.held shared) → shared.AskedOnce

namespace Store.AskedOnce

variable {st st' : Store}

theorem congr (h : st.AskedOnce) (he : st'.fanouts = st.fanouts) : st'.AskedOnce := by
  intro i shared hi
  rw [he] at hi
  exact h i shared hi

theorem setFanout (h : st.AskedOnce) (i : Nat) {place : Place Shared}
    (hplace : ∀ shared, place = .held shared → shared.AskedOnce) :
    (st.setFanout i place).AskedOnce := by
  intro j shared hj
  rw [Store.getElem?_setFanout] at hj
  split at hj
  · split at hj
    · exact hplace shared (Option.some.inj hj)
    · cases hj
  · exact h j shared hj

theorem empty : Store.empty.AskedOnce := by
  rintro i shared ⟨⟩

end Store.AskedOnce

section

variable {st st' : Store}

/-- A source that counts how often it is asked gives its next answer, and nothing else does. -/
theorem Source.of_step_answers {d : Linked.Drive} {source : Linked.Source}
    {item : Option Linked.Item} {answer : Nat → Option PlainItem} {asked : Nat}
    (h : source.step d st = .ok ((item, .generated (.answers answer asked)), st')) :
    ∃ k, source = .generated (.answers answer k) ∧ asked = k + 1 ∧
      item = (answer k).map Item.ofPlain := by
  cases source with
  | generated g =>
    cases g with
    | answers answer' k =>
      obtain ⟨hpair, -⟩ := Prod.mk.inj (Except.ok.inj h)
      obtain ⟨hitem, hsource⟩ := Prod.mk.inj hpair
      obtain ⟨rfl, rfl⟩ := Generator.answers.inj (Source.generated.inj hsource)
      exact ⟨k, rfl, rfl, hitem.symm⟩
    | bounded _ | counted _ | permutations _ _ _ | product _ _ _ => cases h
  | items remaining => cases remaining <;> cases h
  | mapped inner mapping =>
    obtain ⟨⟨_ | _ | _, _⟩, _, -, h⟩ := Engine.of_bind_ok h
    · cases h
    · cases h
    · obtain ⟨_, _, -, h⟩ := Engine.of_bind_ok h
      cases h
  | filtered inner test held invert =>
    obtain ⟨⟨_ | _, _⟩, _, -, h⟩ := Engine.of_bind_ok h <;> cases h
  | zipped left right pairing =>
    obtain ⟨⟨_ | _ | _, _⟩, _, -, h⟩ := Engine.of_bind_ok h
    · cases h
    · cases h
    · obtain ⟨⟨_ | _ | _, _⟩, _, -, h⟩ := Engine.of_bind_ok h
      all_goals
        obtain ⟨_, _, -, h⟩ := Engine.of_bind_ok h
        cases h
  | window inner skip take =>
    cases take with
    | zero => cases h
    | succ take =>
      obtain ⟨_, _, -, h⟩ := Engine.of_bind_ok h
      obtain ⟨_, _, -, h⟩ := Engine.of_bind_ok h
      cases h

end

namespace Shared.AskedOnce

variable {source : Linked.Source} {fanout : Fanout Linked.Item} {hooks hooks' : List String}

theorem single (source : Linked.Source) (hooks : List String) :
    AskedOnce ⟨source, (Fanout.single.join []).2, hooks⟩ := by
  intro answer asked _ slot s hs
  have hnil : s.backlog.toList = [] := by
    rw [Fanout.slot?_join, Fanout.slot?_single] at hs
    split at hs
    · rw [← Option.some.inj hs, Fanout.toList_ofList_backlog]
    · split at hs
      · rw [← Option.some.inj hs, Fanout.toList_ofList_backlog]
      · cases hs
  rw [hnil]
  exact ⟨asked, asked, .nil _, le_refl _, fun _ => rfl⟩

theorem leave (h : AskedOnce ⟨source, fanout, hooks⟩) (slot : Nat) :
    AskedOnce ⟨source, fanout.leave slot, hooks⟩ := by
  intro answer asked hsource j s hs
  rw [Fanout.slot?_leave] at hs
  split at hs
  · cases hs
  · exact h answer asked hsource j s hs

theorem pop {slot : Nat} {item : Linked.Item} {fanout' : Fanout Linked.Item}
    (h : AskedOnce ⟨source, fanout, hooks⟩) (hp : fanout.pop? slot = some (item, fanout')) :
    AskedOnce ⟨source, fanout', hooks⟩ := by
  obtain ⟨hdone, s, t, hs, hitems, -, hslots⟩ := Fanout.pop?_eq_some hp
  intro answer asked hsource j u hu
  rw [hslots] at hu
  split at hu
  · obtain rfl := Option.some.inj hu
    obtain ⟨first, last, hanswers, hle, hlast⟩ := h answer asked hsource slot s hs
    rw [hitems] at hanswers
    exact ⟨first + 1, last, hanswers.of_cons, hle, hdone ▸ hlast⟩
  · rw [hdone]
    exact h answer asked hsource j u hu

theorem join {slot : Nat} (h : AskedOnce ⟨source, fanout, hooks⟩) {own seed : List Linked.Item}
    {depth : Nat} {st st' : Store}
    (hcopy : Item.copyListWith (Sequence.forkWithin depth) (fanout.backlog slot) st =
      .ok ((own, seed), st')) :
    AskedOnce ⟨source, ((fanout.setBacklog slot own).join seed).2, hooks'⟩ := by
  intro answer asked hsource j s hs
  rw [Fanout.slot?_join, Fanout.slot?_setBacklog] at hs
  rw [Fanout.done_join, Fanout.done_setBacklog]
  cases ht : fanout.slot? slot with
  | none =>
    -- there is no such branch: both copies are empty, and the new one starts at the next answer
    have hnone : fanout.backlog slot = [] := by simp [Fanout.backlog, ht]
    rw [hnone] at hcopy
    cases hcopy
    split at hs
    · rw [← Option.some.inj hs, Fanout.toList_ofList_backlog]
      exact ⟨asked, asked, .nil _, le_refl _, fun _ => rfl⟩
    · split at hs
      · next hj => rw [hj, ht] at hs; cases hs
      · exact h answer asked hsource j s hs
  | some t =>
    have hanswers := h answer asked hsource slot t ht
    obtain ⟨rfl, rfl⟩ : own = t.backlog.toList ∧ seed = t.backlog.toList := by
      obtain ⟨first, last, hanswers, -⟩ := hanswers
      obtain ⟨ys, hys⟩ := hanswers.exists_plain
      rw [Fanout.backlog_eq ht, hys, Item.copyListWith_ofPlain] at hcopy
      rw [hys]
      cases hcopy
      exact ⟨rfl, rfl⟩
    split at hs
    · rwa [← Option.some.inj hs, Fanout.toList_ofList_backlog]
    · split at hs
      · next hj =>
        rw [hj, ht] at hs
        rw [← Option.some.inj hs]
        exact (Backlog.toList_ofList t.backlog.toList).symm ▸ hanswers
      · exact h answer asked hsource j s hs

theorem finish {item : Option Linked.Item} {d : Linked.Drive} {st st' : Store}
    {source' : Linked.Source} (h : AskedOnce ⟨source, fanout, hooks⟩)
    (hstep : source.step d st = .ok ((item, source'), st')) :
    AskedOnce ⟨source', { fanout with done := true }, hooks⟩ := by
  intro answer asked hsource j s hs
  obtain rfl : source' = .generated (.answers answer asked) := hsource
  obtain ⟨k, rfl, rfl, -⟩ := Source.of_step_answers hstep
  obtain ⟨first, last, hanswers, hle, -⟩ := h answer k rfl j s hs
  exact ⟨first, last, hanswers, hle.trans (Nat.le_succ k), nofun⟩

theorem deliver {x x' : Linked.Item} {n slot : Nat} {st st' st'' : Store}
    {source' : Linked.Source} {slots : List (Option (Slot Linked.Item))} {lags : List Lag}
    (h : AskedOnce ⟨source, fanout, hooks⟩) (hdone : ¬ fanout.done = true)
    (hpop : fanout.pop? slot = none)
    (hstep : source.step (Drive.ofFuel n) st = .ok ((some x, source'), st'))
    (hdeliver : Fanout.deliver (Item.copyWith (Drive.ofFuel n).fork) slot x 0 fanout.slots st' =
      .ok ((x', slots, lags), st'')) :
    AskedOnce ⟨source', ⟨slots, Item.isFailure x⟩, hooks⟩ := by
  intro answer asked hsource j s hs
  obtain rfl : source' = .generated (.answers answer asked) := hsource
  obtain ⟨k, rfl, rfl, hitem⟩ := Source.of_step_answers hstep
  obtain ⟨y, hy, rfl⟩ := Option.map_eq_some_iff.mp hitem.symm
  obtain ⟨slots', lags', hd, hslots⟩ := Fanout.deliver_of_copy
    (Item.copyWith_ofPlain (Drive.ofFuel n).fork y) slot 0 fanout.slots
  rw [hd] at hdeliver
  cases hdeliver
  have hs : slots[j]?.join = some s := hs
  rw [hslots, zero_add] at hs
  split at hs
  · next hj =>
    -- the branch that pulls has nothing before it, or the source would not have been asked
    have hnone : s.backlog.toList = [] :=
      (Fanout.backlog_eq (hj ▸ hs)).symm.trans (Fanout.pop?_eq_none_iff.mp hpop)
    rw [hnone]
    exact ⟨k + 1, k + 1, .nil _, le_refl _, fun _ => rfl⟩
  · obtain ⟨t, ht, rfl⟩ := Option.map_eq_some_iff.mp hs
    obtain ⟨first, last, hanswers, -, hlast⟩ := h answer k rfl j t ht
    obtain rfl := hlast (Bool.eq_false_iff.mpr hdone)
    rw [Fanout.toList_push_backlog]
    exact ⟨first, last + 1, hanswers.concat hy, le_refl _, fun _ => rfl⟩

end Shared.AskedOnce

namespace Store.AskedOnce

theorem guard : Guard AskedOnce fun _ shared => shared.AskedOnce where
  record events h := h.congr (fanouts_record _ events)
  lend h hi := ⟨h.setFanout _ (by rintro _ ⟨⟩), h _ _ hi⟩
  leave slot h := h.leave slot
  put h hshared := h.setFanout _ fun _ heq => Place.held.inj heq ▸ hshared
  vacate h _ := h.setFanout _ (by rintro _ ⟨⟩)
  lendCell h _ := ⟨h, h, fun _ => h⟩

theorem keeps_fork (depth : Nat) (s : Linked.Sequence) :
    Keeps AskedOnce (Sequence.forkWithin depth s) := by
  induction depth generalizing s with
  | zero => exact .fault .outOfFuel
  | succ depth ih =>
    intro st r st' h hr
    obtain ⟨origin, hint, finished, hooks⟩ := s
    cases origin with
    | direct source =>
      obtain ⟨_, st₁, hadd, hr⟩ := Engine.of_bind_ok hr
      obtain rfl : _ = st₁ := congrArg Prod.snd (Except.ok.inj hadd)
      cases hr
      intro i shared hi
      rw [getElem?_addFanout] at hi
      split at hi
      · cases hi
        exact .single source hooks
      · exact h i shared hi
    | branch place =>
      obtain ⟨i, slot⟩ := place
      obtain ⟨⟨source, fanout, labels⟩, st₁, hlend, hr⟩ := Engine.of_bind_ok hr
      obtain ⟨hi, rfl⟩ := of_lendFanout hlend
      obtain ⟨⟨own, seed⟩, st₂, hcopy, hr⟩ := Engine.of_bind_ok hr
      have h₂ := Item.keeps_copyListWith ih _ _ _ _ (h.setFanout i (by rintro _ ⟨⟩)) hcopy
      cases hr
      refine h₂.setFanout i fun _ hshared => ?_
      cases hshared
      exact (h i _ hi).join hcopy

/-- A pull of a branch asks the source only where the branch has given all that it was asked for. -/
theorem keeps_pullBranch (n : Nat)
    (hstep : ∀ source : Linked.Source, Keeps AskedOnce (source.step (Drive.ofFuel n)))
    (place : Branch) : Keeps AskedOnce (pullBranch (Drive.ofFuel n) place) := by
  obtain ⟨i, slot⟩ := place
  intro st r st' h hr
  obtain ⟨⟨source, fanout, hooks⟩, st₁, hlend, hr⟩ := Engine.of_bind_ok hr
  obtain ⟨hi, rfl⟩ := of_lendFanout hlend
  have hasked := h i _ hi
  have hlent : (st.setFanout i .lent).AskedOnce := h.setFanout i (by rintro _ ⟨⟩)
  cases hpop : fanout.pop? slot with
  | some popped =>
    simp only [hpop] at hr
    cases hr
    exact hlent.setFanout i fun _ heq => Place.held.inj heq ▸ hasked.pop hpop
  | none =>
    simp only [hpop] at hr
    by_cases hdone : fanout.done = true
    · rw [if_pos hdone] at hr
      cases hr
      exact hlent.setFanout i fun _ heq => Place.held.inj heq ▸ hasked
    · rw [if_neg hdone] at hr
      obtain ⟨⟨_ | x, source'⟩, st₂, hs, hr⟩ := Engine.of_bind_ok hr
      · cases hr
        exact (hstep source _ _ _ hlent hs).setFanout i
          fun _ heq => Place.held.inj heq ▸ hasked.finish hs
      · obtain ⟨⟨x', slots, lags⟩, st₃, hdeliver, hr⟩ := Engine.of_bind_ok hr
        have h₃ := Fanout.keeps_deliver (Item.keeps_copyWith fun s st => keeps_fork _ s st) slot x 0
          fanout.slots _ _ _ (hstep source _ _ _ hlent hs) hdeliver
        cases hr
        exact (h₃.congr (fanouts_record _ _)).setFanout i
          fun _ heq => Place.held.inj heq ▸ hasked.deliver hdone hpop hs hdeliver

theorem kept : Kept AskedOnce where
  fork s := fun st => keeps_fork _ s st
  drop := guard.keeps_dropValues
  note texts := by
    rintro st _ _ h ⟨⟩
    exact h
  keep c := by
    rintro st _ _ h ⟨⟩
    exact h
  read := Engine.keeps_read (fun _ _ h => h) fun s st => keeps_fork _ s st
  retain := Engine.keeps_retain fun _ _ h => h
  dismiss i := guard.keeps_drop (List.forall_mem_singleton.mpr trivial)
  branch := keeps_pullBranch

end Store.AskedOnce

end LazyCalc
