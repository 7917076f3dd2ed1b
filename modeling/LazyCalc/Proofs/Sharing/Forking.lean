import LazyCalc.Engine.Fork
import LazyCalc.Proofs.Sharing.Amending
import Mathlib.Data.Finset.Card
/-!
Forking goes through in every sound store, whatever is lent above: both sequences that come of it
stand for what the one stood for.
-/

namespace LazyCalc

namespace Twins

def ofSource (source : Source) (hint : Hint) (finished : Bool) (hooks : Hooks) : Sequence :=
  ⟨⟨.direct (left source), hint, finished, hooks.left⟩,
    ⟨.direct (right source), hint, finished, hooks.right⟩⟩

def ofBranch (place : Branch) (stream : Lone.Source) (hint : Hint) (finished : Bool)
    (hooks : Hooks) : Sequence :=
  ⟨⟨.branch place, hint, finished, hooks.left⟩, ⟨.direct stream, hint, finished, hooks.right⟩⟩

@[simp]
theorem ownedBy_ofSource (source : Source) (hint : Hint) (finished : Bool) (hooks : Hooks) :
    ownedBy (parts (ofSource source hint finished hooks)) =
      {.hooks .direct hooks.left} + ownedBy (parts source) := by
  rw [ownedBy_twin, ownedBy_source]
  rfl

@[simp]
theorem ownedBy_ofBranch (place : Branch) (stream : Lone.Source) (hint : Hint) (finished : Bool)
    (hooks : Hooks) :
    ownedBy (parts (ofBranch place stream hint finished hooks)) =
      {.hooks (.branch place) hooks.left} + {.branch place} := ownedBy_twin _

theorem branch_mem_ofBranch (place : Branch) (stream : Lone.Source) (hint : Hint) (finished : Bool)
    (hooks : Hooks) :
    .branch place ∈ ownedBy (parts (ofBranch place stream hint finished hooks)) := by
  rw [ownedBy_ofBranch]
  exact Multiset.mem_add.mpr (.inr (Multiset.mem_singleton_self _))

end Twins

theorem Ledger.Guards.not_lent {G : Ledger} {r : ℚ} (h : G.Guards r) {x : Spot}
    (hx : G.rank x < r) : G.lent x = false := by
  cases hl : G.lent x with
  | false => rfl
  | true => exact absurd (h x hl) (not_le_of_gt hx)

theorem Ledger.Guards.lend {G : Ledger} {r : ℚ} (h : G.Guards r) {x : Spot} (hx : G.rank x ≤ r) :
    (G.setLent x true).Guards (G.rank x) := by
  intro y hy
  rw [G.lent_setLent] at hy
  split at hy
  · next he => exact he ▸ le_refl _
  · exact hx.trans (h y hy)

namespace Sound

variable {G : Ledger} {st : Store} {own : Assets} {p : Branch}

theorem held_of_mem (h : Sound G st own) (hp : .branch p ∈ st.assets + own)
    (hx : G.lent (.fanout p.fanout) = false) :
    ∃ shared s, st.fanouts[p.fanout]? = some (.held shared) ∧
      shared.fanout.slot? p.slot = some s := by
  have hlive := h.live_of_mem hp
  obtain hl | ⟨shared, hi⟩ := h.present p hlive
  · rw [← h.lentFanout, hx] at hl
    cases hl
  · rw [(h.shared _ _ hi).1.live] at hlive
    obtain ⟨s, hs⟩ := Option.isSome_iff_exists.mp hlive
    exact ⟨shared, s, hi, hs⟩

end Sound

theorem Ready.reader {G : Ledger} {st : Store} {F : Assets} {r : ℚ} {i slot : Nat}
    {stream : Lone.Source} {hint : Hint} {finished : Bool} {hooks : Twins.Hooks}
    (h : Ready G st (parts (Twins.ofBranch ⟨i, slot⟩ stream hint finished hooks)) F r) :
    ∃ shared s, st.fanouts[i]? = some (.held shared) ∧ shared.fanout.slot? slot = some s ∧
      shared.Sound G i ∧ G.rank (.fanout i) < r ∧ G.lent (.fanout i) = false := by
  have hmem := Twins.branch_mem_ofBranch ⟨i, slot⟩ stream hint finished hooks
  have hrank : G.rank (.fanout i) < r := h.below _ hmem _ rfl
  have hlent := h.guards.not_lent hrank
  obtain ⟨shared, s, hi, hs⟩ := h.sound.held_of_mem (p := ⟨i, slot⟩) (Multiset.mem_add.mpr
    (.inr (Multiset.mem_add.mpr (.inl hmem)))) hlent
  exact ⟨shared, s, hi, hs, (h.sound.shared i shared hi).1, hrank, hlent⟩

def Shared.leave (shared : Shared) (slot : Nat) : Shared :=
  { shared with fanout := shared.fanout.leave slot }

theorem Shared.assets_leave (shared : Shared) (i slot : Nat) :
    shared.assets i =
      Source.itemAssets (shared.fanout.backlog slot) + (shared.leave slot).assets i := by
  rw [assets, assets, shared.fanout.assets_leave slot]
  simp only [leave]
  abel

theorem Fanout.assets_setBacklog_eq {f : Fanout Linked.Item} {slot : Nat} {s : Slot Linked.Item}
    (h : f.slot? slot = some s) (items : List Linked.Item) :
    (f.setBacklog slot items).assets = (f.leave slot).assets + Source.itemAssets items := by
  have := assets_setBacklog h items
  rw [f.assets_leave slot, backlog_eq h, add_right_comm] at this
  exact add_right_cancel this

theorem Fanout.slot?_setBacklog_join {α : Type} (f : Fanout α) (slot : Nat) (own seed : List α) :
    f.slot? ((f.setBacklog slot own).join seed).1 = none := by
  have h := slot?_join_fst (f.setBacklog slot own) seed
  rw [slot?_setBacklog] at h
  split at h
  · rwa [Option.map_eq_none_iff] at h
  · exact h

/-- What a fan-out is after a branch with the labels `hooks` was forked: the branch keeps `own` for
its backlog, and the new one starts with `seed`. -/
def Shared.forked (shared : Shared) (slot : Nat) (own seed : List Linked.Item)
    (hooks : List String) : Shared :=
  { shared with
    fanout := ((shared.fanout.setBacklog slot own).join seed).2
    hooks := shared.hooks ++ hooks }

theorem Shared.assets_forked {shared : Shared} {i slot : Nat} {s : Slot Linked.Item}
    (h : shared.fanout.slot? slot = some s) (own seed : List Linked.Item) (hooks : List String) :
    (shared.forked slot own seed hooks).assets i =
      shared.source.assets + (shared.fanout.leave slot).assets +
        (Source.itemAssets own + Source.itemAssets seed) +
        {.hooks (.fanout i) (shared.hooks ++ hooks)} := by
  simp only [forked, assets, Fanout.assets_join, Fanout.assets_setBacklog_eq h]
  abel

theorem Shared.isSome_forked (shared : Shared) (slot : Nat) (own seed : List Linked.Item)
    (hooks : List String) (j : Nat) :
    ((shared.forked slot own seed hooks).fanout.slot? j).isSome =
      if j = ((shared.fanout.setBacklog slot own).join seed).1 then true
      else (shared.fanout.slot? j).isSome := by
  rw [forked, Fanout.slot?_join]
  split
  · rfl
  · rw [Fanout.slot?_setBacklog]
    split <;> simp

/-- Where the forked branch and the new one have the labels of the forked one over, and the others
what they had, all of them are with the fan-out. -/
theorem Shared.before_forked {shared : Shared} {slot other : Nat} {own seed : List Linked.Item}
    {hooks : List String} {before before' : Nat → List String}
    (hother : ((shared.fanout.setBacklog slot own).join seed).1 = other)
    (hbefore : ∀ j t, shared.fanout.slot? j = some t → (before j).Sublist shared.hooks)
    {s : Slot Linked.Item} (hs : shared.fanout.slot? slot = some s)
    (htwo : ∀ j, j = slot ∨ j = other → before' j = before slot ++ hooks)
    (hrest : ∀ j, ¬ (j = slot ∨ j = other) → before' j = before j) (j : Nat) (t : Slot Linked.Item)
    (ht : (shared.forked slot own seed hooks).fanout.slot? j = some t) :
    (before' j).Sublist (shared.hooks ++ hooks) := by
  by_cases hj : j = slot ∨ j = other
  · rw [htwo j hj]
    exact (hbefore slot s hs).append (.refl _)
  · have hsome := shared.isSome_forked slot own seed hooks j
    rw [ht, hother, if_neg (not_or.mp hj).2] at hsome
    obtain ⟨u, hu⟩ := Option.isSome_iff_exists.mp hsome.symm
    rw [hrest j hj]
    exact (hbefore j u hu).trans (List.sublist_append_left _ _)

theorem Shared.not_isDeserted_forked (shared : Shared) (slot : Nat) (own seed : List Linked.Item)
    (hooks : List String) : ¬ (shared.forked slot own seed hooks).fanout.isDeserted = true :=
  Fanout.not_isDeserted ((shared.isSome_forked slot own seed hooks _).trans (if_pos rfl))

section

variable {G : Ledger} {st : Store} {F : Assets} {r : ℚ}

theorem Shared.below_forked {shared : Shared} {i slot : Nat} {s : Slot Linked.Item}
    (hs : shared.fanout.slot? slot = some s) {own seed : List Linked.Item} (hooks : List String)
    (hleave : G.Below r ((shared.leave slot).assets i))
    (hcopies : G.Below r (Source.itemAssets own + Source.itemAssets seed)) :
    G.Below r ((shared.forked slot own seed hooks).assets i) := by
  rw [assets, Ledger.below_add] at hleave
  rw [assets_forked hs, Ledger.below_add, Ledger.below_add]
  exact ⟨⟨hleave.1, hcopies⟩, Ledger.below_hooks⟩

section

variable {i a b : Nat} {stream : Lone.Source} {hint : Hint} {finished : Bool} {past : List String}

theorem Twins.fits_branches (ha : finished = false → G.stream ⟨i, a⟩ = some stream)
    (hb : finished = false → G.stream ⟨i, b⟩ = some stream)
    (hpast : G.tracked = true → G.before ⟨i, a⟩ = past ∧ G.before ⟨i, b⟩ = past) :
    Twins.Fits G (parts (Twins.ofBranch ⟨i, a⟩ stream hint finished ⟨[], past⟩) +
      parts (Twins.ofBranch ⟨i, b⟩ stream hint finished ⟨[], past⟩)) := by
  refine Twins.fits_add.mpr ⟨Twins.fits_twin.mpr (.branch _ _ _ _ ⟨[], past⟩ ha fun ht => ?_),
    Twins.fits_twin.mpr (.branch _ _ _ _ ⟨[], past⟩ hb fun ht => ?_)⟩
  · exact (hpast ht).1.symm.trans (List.append_nil _).symm
  · exact (hpast ht).2.symm.trans (List.append_nil _).symm

theorem Ledger.below_branches (h : G.rank (.fanout i) < r) :
    G.Below r (ownedBy (parts (Twins.ofBranch ⟨i, a⟩ stream hint finished ⟨[], past⟩) +
      parts (Twins.ofBranch ⟨i, b⟩ stream hint finished ⟨[], past⟩))) := by
  intro asset hasset x hx
  simp only [ownedBy_add, Twins.ownedBy_ofBranch, Multiset.mem_add, Multiset.mem_singleton] at hasset
  obtain (rfl | rfl) | (rfl | rfl) := hasset <;> cases hx
  · exact h
  · exact h

end

theorem Sound.enter {own : Assets} {p : Branch} (h : Sound G st own)
    (hx : G.lent (.fanout p.fanout) = true) (hp : G.live p = false)
    (stream : Option Lone.Source) (before : List String) :
    ∃ G', Sound G' st ({.hooks (.branch p) []} + ({.branch p} + own)) ∧
      G.Amends (.fanout p.fanout) own G' ∧
      G'.live = Function.update G.live p true ∧ G'.stream = Function.update G.stream p stream ∧
      G'.before = Function.update G.before p before := by
  have hnot : .branch p ∉ own := by
    intro hmem
    rw [h.live_of_mem (Multiset.mem_add.mpr (.inr hmem))] at hp
    cases hp
  obtain ⟨book, hbook, hopened⟩ := (h.enrol hx hp stream before).joined p
  exact ⟨_, hopened, (Ledger.Amends.enrol stream before hnot).trans (.turn _ _ hbook), rfl, rfl, rfl⟩

theorem Ledger.Amends.below {G' : Ledger} {x : Spot} {A : Assets} (h : G.Amends x F G')
    (hA : G.Below r A) : G'.Below r A := by
  intro a ha y hy
  rw [h.rank]
  exact hA a ha y hy

theorem Shared.backlog_forked {shared : Shared} (h : ∀ slot, shared.fanout.backlog slot = [])
    {slot : Nat} {hooks : List String} (j : Nat) :
    (shared.forked slot [] [] hooks).fanout.backlog j = [] := by
  have hj := h j
  rw [Fanout.backlog] at hj ⊢
  rw [forked, Fanout.slot?_join]
  split
  · next t ht =>
    split at ht
    · obtain rfl := Option.some.inj ht
      rfl
    · rw [Fanout.slot?_setBacklog] at ht
      split at ht
      · obtain ⟨u, hu, rfl⟩ := Option.map_eq_some_iff.mp ht
        rfl
      · rwa [ht] at hj
  · rfl

def Shared.pair (source : Linked.Source) (hooks : List String) : Shared :=
  ⟨source, (Fanout.single.join []).2, hooks⟩

namespace Shared

variable {source : Linked.Source} {hooks : List String}

theorem slot?_pair (slot : Nat) : (pair source hooks).fanout.slot? slot =
    if slot = 1 ∨ slot = 0 then some (.ofList []) else none := by
  rw [pair, Fanout.slot?_join, Fanout.slot?_single]
  change (if slot = 1 then _ else _) = _
  split <;> simp [*]

theorem of_slot?_pair {slot : Nat} {s : Slot Linked.Item}
    (hs : (pair source hooks).fanout.slot? slot = some s) : slot = 1 ∨ slot = 0 := by
  rw [slot?_pair] at hs
  by_contra hn
  rw [if_neg hn] at hs
  cases hs

theorem backlog_pair (slot : Nat) : (pair source hooks).fanout.backlog slot = [] := by
  rw [Fanout.backlog, slot?_pair]
  split
  · next h =>
    split at h
    · obtain rfl := Option.some.inj h
      rfl
    · cases h
  · rfl

theorem assets_pair (i : Nat) :
    (pair source hooks).assets i = {.hooks (.fanout i) hooks} + source.assets := by
  have hfanout : (pair source hooks).fanout.assets = 0 := by
    rw [pair, Fanout.assets_join]
    rfl
  rw [assets, hfanout]
  simp only [pair]
  abel

theorem not_isDeserted_pair : ¬ (pair source hooks).fanout.isDeserted = true :=
  Fanout.not_isDeserted (by rw [slot?_pair 0]; rfl)

theorem sound_pair {source : Twins.Source} {i : Nat}
    (hlive : ∀ slot, G.live ⟨i, slot⟩ = true ↔ slot = 1 ∨ slot = 0)
    (hstream : ∀ slot, slot = 1 ∨ slot = 0 → G.stream ⟨i, slot⟩ = some (right source))
    (hbefore : ∀ slot, slot = 1 ∨ slot = 0 → G.before ⟨i, slot⟩ = hooks)
    (hbelow : G.Below (G.rank (.fanout i)) (ownedBy (parts source)))
    (hfits : Twins.Fits G (parts source)) : (pair (left source) hooks).Sound G i where
  live slot := by
    rw [Bool.eq_iff_iff, hlive, slot?_pair]
    split <;> simp [*]
  below := by
    rw [assets_pair, ← ownedBy_source, Ledger.below_add]
    exact ⟨Ledger.below_hooks, hbelow⟩
  streams := by
    refine ⟨source, rfl, hfits, fun slot s hs => ⟨[], ?_, Twins.fits_zero, ?_⟩⟩
    · rw [← Fanout.backlog_eq hs, backlog_pair]
      rfl
    · intro S hS
      rw [hstream slot (of_slot?_pair hs)] at hS
      obtain rfl := Option.some.inj hS
      exact .caught _
  before slot s hs := by
    rw [hbefore slot (of_slot?_pair hs)]
    exact .refl hooks

end Shared

theorem Sound.addPair {source : Twins.Source} {hooks past : List String} (hint : Hint)
    (finished : Bool) (hpast : G.tracked = true → past = hooks) (hsound : Sound G st
      ({.hooks (.fanout G.fanouts) hooks} + ownedBy (parts source) + F))
    (hbelow : G.Below r (ownedBy (parts source))) (hguards : G.Guards r)
    (hfits : Twins.Fits G (parts source)) :
    Reaches G F r
      (parts (Twins.ofBranch ⟨G.fanouts, 0⟩ (right source) hint finished ⟨[], past⟩) +
        parts (Twins.ofBranch ⟨G.fanouts, 1⟩ (right source) hint finished ⟨[], past⟩))
      (st.addFanout (.pair (left source) hooks)).2 := by
  obtain ⟨q, hq, hbelow⟩ := hbelow.between
  have hknows {a : Asset} (ha : a ∈ ownedBy (parts source)) (x : Spot)
      (hx : a.spot? = some x) : G.Knows x :=
    hsound.knows (by simp [ha]) hx
  have hnew : ¬ G.Knows (.fanout G.fanouts) := fun hk => Nat.lt_irrefl _ hk
  have hlent : G.lent (.fanout G.fanouts) = false :=
    Bool.eq_false_of_not_eq_true fun hl => hnew (hsound.knows_lent hl)
  -- The new place and its two branches.
  have hopen := hsound.openFanout q
  have hlent' : (G.openFanout q).lent (.fanout G.fanouts) = true := Function.update_self ..
  have hlive' (slot : Nat) : (G.openFanout q).live ⟨G.fanouts, slot⟩ = false :=
    hsound.not_live_fresh slot
  obtain ⟨G₁, h₁, hG₁, hlive₁, hstream₁, hbefore₁⟩ := hopen.enter (p := ⟨G.fanouts, 0⟩) hlent'
    (hlive' 0) (some (right source)) hooks
  obtain ⟨G₂, h₂, hG₂, hlive₂, hstream₂, hbefore₂⟩ := h₁.enter (p := ⟨G.fanouts, 1⟩)
    ((congrFun hG₁.lent _).trans hlent') (by
      rw [hlive₁, Function.update_of_ne (by simp)]
      exact hlive' 1) (some (right source)) hooks
  have hG : (G.openFanout q).Amends (.fanout G.fanouts) ({.hooks (.fanout G.fanouts) hooks} +
      ownedBy (parts source) + F) G₂ := by
    refine hG₁.trans (hG₂.sub ?_)
    rw [← add_assoc]
    exact Multiset.le_add_left _ _
  have hevolves : Evolves F G (G₂.setLent (.fanout G.fanouts) false) :=
    .opening hlent (hG.sub (Multiset.le_add_left _ _))
  have hrank : G₂.rank = Function.update G.rank (.fanout G.fanouts) q := hG.rank
  have hlive (slot : Nat) : G₂.live ⟨G.fanouts, slot⟩ = true ↔ slot = 1 ∨ slot = 0 := by
    rw [hlive₂, hlive₁, Function.update_apply, Function.update_apply]
    by_cases h1 : slot = 1
    · simp [h1]
    · by_cases h0 : slot = 0
      · simp [h0]
      · simp [h1, h0, hlive']
  have hstream (slot : Nat) (hslot : slot = 1 ∨ slot = 0) :
      G₂.stream ⟨G.fanouts, slot⟩ = some (right source) := by
    rw [hstream₂, hstream₁, Function.update_apply, Function.update_apply]
    rcases hslot with rfl | rfl <;> simp
  have hbefore (slot : Nat) (hslot : slot = 1 ∨ slot = 0) : G₂.before ⟨G.fanouts, slot⟩ = hooks := by
    rw [hbefore₂, hbefore₁, Function.update_apply, Function.update_apply]
    rcases hslot with rfl | rfl <;> simp
  have hshared : (Shared.pair (left source) hooks).Sound G₂ G.fanouts := by
    refine Shared.sound_pair hlive hstream hbefore ?_
      (hfits.mono ((G.agrees_openFanout q _).trans (hG.agrees.subset fun a ha => ?_)))
    · rw [hrank, Function.update_self, Ledger.Below, hrank]
      exact hbelow.update hnew fun a ha => hknows ha
    · simp [ha]
  have hplace : st.openFanout.fanouts[G.fanouts]? = some .lent :=
    (h₂.lentFanout _).mp ((congrFun hG.lent _).trans hlent')
  refine ⟨G₂.setLent (.fanout G.fanouts) false, ⟨?_, Twins.fits_branches
    (fun _ => hstream 0 (.inr rfl)) (fun _ => hstream 1 (.inl rfl)) fun ht => ?_,
    Ledger.below_branches ?_, hevolves.guards (fun x => hsound.knows_lent) hguards⟩, hevolves⟩
  · rw [← Store.setFanout_openFanout, ← hsound.fanouts]
    refine (h₂.of_eq ?_).returnFanout hplace hshared Shared.not_isDeserted_pair
    simp only [Shared.assets_pair, ← ownedBy_source, ownedBy_add, Twins.ownedBy_ofBranch]
    abel
  · rw [hpast (hG.tracked.symm.trans ht)]
    exact ⟨hbefore 0 (.inr rfl), hbefore 1 (.inl rfl)⟩
  · change G₂.rank (.fanout G.fanouts) < r
    rwa [hrank, Function.update_self]

/-- The first fork of a sequence: its source moves into a fan-out of its own, with its labels. -/
theorem Ready.addFanout (source : Twins.Source) {hint : Hint} {finished : Bool}
    {hooks : Twins.Hooks} (h : Ready G st (parts (Twins.ofSource source hint finished hooks)) F r)
    (hfits : Twins.Fits G (parts source)) (hhooks : G.tracked = true → hooks.right = hooks.left) :
    Reaches G F r
      (parts (Twins.ofBranch ⟨G.fanouts, 0⟩ (right source) hint finished ⟨[], hooks.right⟩) +
        parts (Twins.ofBranch ⟨G.fanouts, 1⟩ (right source) hint finished ⟨[], hooks.right⟩))
      (st.addFanout (.pair (left source) hooks.left)).2 := by
  have hsound := h.sound
  have hbelow := h.below
  rw [Twins.ownedBy_ofSource] at hsound hbelow
  obtain ⟨book, hbook, hmoved⟩ := (hsound.of_eq (add_assoc _ _ _)).moved G.fanouts
  have hevolves := Evolves.turn F hbook
  refine Reaches.trans hevolves ((hmoved.of_eq (add_assoc _ _ _).symm).addPair hint finished
    hhooks (Ledger.below_add.mp hbelow).2 ?_
    (hfits.mono ⟨fun _ _ => rfl, fun _ _ => rfl, rfl, fun _ _ => rfl⟩))
  exact hevolves.guards (fun x => hsound.knows_lent) h.guards

theorem Ready.lend {A B : Twins.Parts} {rest : Assets} {i : Nat} {shared : Shared}
    (h : Ready G st A F r) (hi : st.fanouts[i]? = some (.held shared))
    (hr : G.rank (.fanout i) ≤ r) (hB : shared.assets i = ownedBy B + rest)
    (hfits : Twins.Fits G B) :
    Ready (G.setLent (.fanout i) true) (st.setFanout i .lent) B (rest + (ownedBy A + F))
      (G.rank (.fanout i)) where
  sound := (h.sound.lendFanout hi).of_eq (by rw [hB, add_assoc])
  fits := hfits.mono (G.agrees_setLent _ _ _)
  below := by
    have hbelow := (h.sound.shared i shared hi).1.below
    rw [hB, Ledger.below_add] at hbelow
    exact hbelow.1
  guards := h.guards.lend hr

theorem Shared.sound_forked {G' : Ledger} {i slot : Nat} {shared : Shared}
    {s : Slot Linked.Item} {source : Twins.Source} {xs ys zs : List Twins.Item}
    {hooks : List String} (hs : shared.fanout.slot? slot = some s)
    (hsource : left source = shared.source)
    (hfits : Twins.Fits G (parts source)) (hslots : ∀ slot s, shared.fanout.slot? slot = some s →
      Backlogged G shared.fanout.done (right source) (G.stream ⟨i, slot⟩) s.backlog.toList)
    (hleads : ∀ S, G.stream ⟨i, slot⟩ = some S → Leads shared.fanout.done (right source) S (right xs))
    (hagree : G.Agrees G' ((shared.leave slot).assets i))
    (hys : Twins.Fits G' (parts ys)) (hzs : Twins.Fits G' (parts zs))
    (hys' : right ys = right xs) (hzs' : right zs = right xs)
    (hlive : ∀ j, G'.live ⟨i, j⟩ = ((shared.forked slot (left ys) (left zs) hooks).fanout.slot? j).isSome)
    (hstream : ∀ j t, shared.fanout.slot? j = some t → G'.stream ⟨i, j⟩ = G.stream ⟨i, j⟩)
    (hother : G'.stream ⟨i, ((shared.fanout.setBacklog slot (left ys)).join (left zs)).1⟩ =
      G.stream ⟨i, slot⟩)
    (hbefore : ∀ j t, (shared.forked slot (left ys) (left zs) hooks).fanout.slot? j = some t →
      (G'.before ⟨i, j⟩).Sublist (shared.hooks ++ hooks))
    (hbelow : G'.Below (G'.rank (.fanout i)) ((shared.forked slot (left ys) (left zs) hooks).assets i)) :
    (shared.forked slot (left ys) (left zs) hooks).Sound G' i where
  live := hlive
  below := hbelow
  before := hbefore
  streams := by
    refine ⟨source, hsource, hfits.mono (hagree.sub ?_), fun j t ht => ?_⟩
    · rw [ownedBy_source, hsource]
      exact (shared.leave slot).source_assets_le i
    · rw [forked, Fanout.slot?_join] at ht
      split at ht
      · next hj =>
        obtain rfl := Option.some.inj ht
        refine ⟨zs, (Fanout.toList_ofList_backlog _).symm, hzs, fun S hS => ?_⟩
        rw [hj, hother] at hS
        rw [hzs']
        exact hleads S hS
      · rw [Fanout.slot?_setBacklog] at ht
        split at ht
        · next hj =>
          subst hj
          rw [hs] at ht
          obtain rfl := Option.some.inj ht
          refine ⟨ys, (Backlog.toList_ofList _).symm, hys, fun S hS => ?_⟩
          rw [hstream j s hs] at hS
          rw [hys']
          exact hleads S hS
        · next hj =>
          rw [hstream j t ht]
          refine (hslots j t ht).mono (hagree.sub ?_)
          have hleft : (shared.leave slot).fanout.slot? j = some t := by
            rw [leave, Fanout.slot?_leave, if_neg hj, ht]
          exact Shared.slot_assets_le hleft

/-- A new branch takes its slot in a fan-out that is lent, and the labels of the branch that is forked
go to the fan-out. -/
theorem Sound.entered {i slot other : Nat} {shared : Shared} {hooks : List String} {copies : Assets}
    (h : Sound G st (copies + ((shared.leave slot).assets i +
      ({.hooks (.branch ⟨i, slot⟩) hooks} + {.branch ⟨i, slot⟩} + F))))
    (hlent : G.lent (.fanout i) = true) (hfree : G.live ⟨i, other⟩ = false)
    (stream : Option Lone.Source) (before : List String) :
    ∃ G', Sound G' st ({.hooks (.fanout i) (shared.hooks ++ hooks)} +
        ({.hooks (.branch ⟨i, slot⟩) []} + (shared.source.assets +
          (shared.fanout.leave slot).assets + copies + {.hooks (.branch ⟨i, other⟩) []} +
          {.branch ⟨i, slot⟩} + {.branch ⟨i, other⟩} + F))) ∧
      G.Amends (.fanout i) (copies + ((shared.leave slot).assets i + F)) G' ∧
      G'.live = Function.update G.live ⟨i, other⟩ true ∧
      G'.stream = Function.update G.stream ⟨i, other⟩ stream ∧
      G'.before = Function.update (Function.update G.before ⟨i, slot⟩ before) ⟨i, other⟩ before := by
  have hfree' : .branch ⟨i, slot⟩ ∉ copies + ((shared.leave slot).assets i + F) := by
    have hnot := (h.of_eq (show _ = {.branch ⟨i, slot⟩} + (copies + ((shared.leave slot).assets i + F) +
      {.hooks (.branch ⟨i, slot⟩) hooks}) by abel)).not_mem_frame
    exact fun hmem => hnot (Multiset.mem_add.mpr (.inr (Multiset.mem_add.mpr (.inl hmem))))
  have hhanded := h.hand hlent (p := ⟨i, slot⟩) (by simp) before
  obtain ⟨G₁, h₁, hG₁, hlive, hstream, hbefore⟩ :=
    hhanded.enter (p := ⟨i, other⟩) hlent hfree stream before
  obtain ⟨book, hbook, h₂⟩ := (h₁.of_eq (show _ = {.hooks (.fanout i) shared.hooks} +
      ({.hooks (.branch ⟨i, slot⟩) hooks} + (shared.source.assets +
        (shared.fanout.leave slot).assets + copies + {.hooks (.branch ⟨i, other⟩) []} +
        {.branch ⟨i, slot⟩} + {.branch ⟨i, other⟩} + F)) by
    simp only [Shared.assets, Shared.leave]
    abel)).merged ⟨i, slot⟩
  refine ⟨G₁.turn book, h₂, (Ledger.Amends.hand before hfree').trans ((hG₁.sub ?_).trans
    (.turn _ _ hbook)), hlive, hstream, hbefore⟩
  exact add_le_add_right (add_le_add_right (Multiset.le_add_left _ _) _) _

theorem Ready.forked {G' : Ledger} {st' : Store} {i slot : Nat} {stream : Lone.Source}
    {hint : Hint} {finished : Bool} {hooks : Twins.Hooks} {shared : Shared} {s : Slot Linked.Item}
    {source : Twins.Source} {xs ys zs : List Twins.Item}
    (h : Ready G st (parts (Twins.ofBranch ⟨i, slot⟩ stream hint finished hooks)) F r)
    (hstream : finished = false → G.stream ⟨i, slot⟩ = some stream)
    (hi : st.fanouts[i]? = some (.held shared)) (hs : shared.fanout.slot? slot = some s)
    (hsource : left source = shared.source)
    (hfits : Twins.Fits G (parts source)) (hslots : ∀ slot s, shared.fanout.slot? slot = some s →
      Backlogged G shared.fanout.done (right source) (G.stream ⟨i, slot⟩) s.backlog.toList)
    (hleads : ∀ S, G.stream ⟨i, slot⟩ = some S → Leads shared.fanout.done (right source) S (right xs))
    (hready : Ready G' st' (parts ys + parts zs) ((shared.leave slot).assets i +
      ({.hooks (.branch ⟨i, slot⟩) hooks.left} + {.branch ⟨i, slot⟩} + F)) (G.rank (.fanout i)))
    (hevolves : Evolves ((shared.leave slot).assets i + ({.hooks (.branch ⟨i, slot⟩) hooks.left} + {.branch ⟨i, slot⟩} + F))
      (G.setLent (.fanout i) true) G')
    (hys : right ys = right xs) (hzs : right zs = right xs)
    (hhooks : G.tracked = true → hooks.right = G.before ⟨i, slot⟩ ++ hooks.left) :
    Reaches G F r
      (parts (Twins.ofBranch ⟨i, slot⟩ stream hint finished ⟨[], hooks.right⟩) +
        parts (Twins.ofBranch
          ⟨i, ((shared.fanout.setBacklog slot (left ys)).join (left zs)).1⟩ stream hint finished ⟨[], hooks.right⟩))
      (st'.setFanout i (.held (shared.forked slot (left ys) (left zs) hooks.left))) := by
  have hrank : G.rank (.fanout i) < r := h.below _ (Twins.branch_mem_ofBranch ..) _ rfl
  have hlent : G.lent (.fanout i) = false := h.guards.not_lent hrank
  have hself : (G.setLent (.fanout i) true).lent (.fanout i) = true := Function.update_self ..
  have hlent' : G'.lent (.fanout i) = true := by rw [hevolves.lent, hself]
  have hfree := shared.fanout.slot?_setBacklog_join slot (left ys) (left zs)
  have hisSome := shared.isSome_forked slot (left ys) (left zs) hooks.left
  generalize hother : ((shared.fanout.setBacklog slot (left ys)).join (left zs)).1 = other at *
  have hlive' (j : Nat) : G'.live ⟨i, j⟩ = (shared.fanout.slot? j).isSome :=
    (hevolves.live ⟨i, j⟩ hself).trans ((h.sound.shared i shared hi).1.live j)
  obtain ⟨G₂, h₂, hG, hlive₂, hstream₂, hbefore₂⟩ := hready.sound.entered hlent'
    (by rw [hlive', hfree]; rfl) (G.stream ⟨i, slot⟩) (G.before ⟨i, slot⟩ ++ hooks.left)
  have hend : Evolves F G (G₂.setLent (.fanout i) false) := by
    refine .lending hlent (hevolves.sub ?_) (hG.sub ?_)
    · simp only [← add_assoc]
      exact Multiset.le_add_left _ _
    · simp only [← add_assoc]
      exact Multiset.le_add_left _ _
  -- The other branches read on as before, and the new one reads what the forked one reads.
  have hstream' (j : Nat) (hj : j ≠ other) : G₂.stream ⟨i, j⟩ = G.stream ⟨i, j⟩ := by
    rw [hstream₂, Function.update_of_ne (by simpa using hj)]
    exact hevolves.stream _ (.inr hself)
  have hother' : G₂.stream ⟨i, other⟩ = G.stream ⟨i, slot⟩ := by
    rw [hstream₂, Function.update_self]
  have hne {j : Nat} {t : Slot Linked.Item} (hj : shared.fanout.slot? j = some t) : j ≠ other := by
    rintro rfl
    rw [hj] at hfree
    cases hfree
  -- The two branches come from the same ones; the others have no more labels over than before.
  have hbefore (j : Nat) (hj : j = slot ∨ j = other) :
      G₂.before ⟨i, j⟩ = G.before ⟨i, slot⟩ ++ hooks.left := by
    rw [hbefore₂, Function.update_apply, Function.update_apply]
    rcases hj with rfl | rfl <;> simp
  have hbefore' (j : Nat) (hj : ¬ (j = slot ∨ j = other)) : G₂.before ⟨i, j⟩ = G.before ⟨i, j⟩ := by
    rw [not_or] at hj
    rw [hbefore₂, Function.update_of_ne (by simpa using hj.2),
      Function.update_of_ne (by simpa using hj.1)]
    exact hevolves.before _ (.inr hself)
  have hagree : G.Agrees G₂ ((shared.leave slot).assets i) :=
    ((G.agrees_setLent (.fanout i) true _).trans
      (hevolves.agrees.sub (Multiset.le_add_right _ _))).trans
        (hG.agrees.subset fun a ha => by simp [ha])
  have hcopies : Twins.Fits G₂ (parts ys + parts zs) :=
    hready.fits.mono (hG.agrees.sub (Multiset.le_add_right _ _))
  have hbelow : G'.Below (G.rank (.fanout i))
      ((shared.forked slot (left ys) (left zs) hooks.left).assets i) := by
    refine Shared.below_forked hs hooks.left (hevolves.below (fun a ha x hx => h.sound.knows ?_ hx) ?_) ?_
    · refine Sound.mem_of_held hi ?_
      rw [shared.assets_leave i slot]
      exact Multiset.mem_add.mpr (.inr ha)
    · have hbelow := (h.sound.shared i shared hi).1.below
      rw [Shared.assets_leave, Ledger.below_add] at hbelow
      exact hbelow.2
    · rw [← ownedBy_items, ← ownedBy_items, ← ownedBy_add]
      exact hready.below
  have hshared : (shared.forked slot (left ys) (left zs) hooks.left).Sound G₂ i := by
    refine Shared.sound_forked hs hsource hfits hslots hleads hagree (Twins.fits_add.mp hcopies).1
      (Twins.fits_add.mp hcopies).2 hys hzs (fun j => ?_) (fun j t hj => hstream' j (hne hj))
      (by rw [hother]; exact hother')
      (Shared.before_forked hother (h.sound.shared i shared hi).1.before hs hbefore hbefore') ?_
    · rw [hlive₂, hisSome, Function.update_apply, ← hlive']
      by_cases hj : j = other
      · simp [hj]
      · rw [if_neg (by simpa using hj), if_neg hj]
    · have hrank' : G'.rank (.fanout i) = G.rank (.fanout i) :=
        hevolves.rank _ (h.sound.knowsFanout hi)
      rw [hG.rank, hrank']
      exact hG.below hbelow
  refine ⟨_, ⟨(h₂.of_eq ?_).returnFanout ?_ hshared (shared.not_isDeserted_forked slot _ _ hooks.left),
    Twins.fits_branches (fun hf => ?_) (fun hf => ?_) fun ht => ?_, Ledger.below_branches ?_,
    hend.guards (fun x => h.sound.knows_lent) h.guards⟩, hend⟩
  · rw [Shared.assets_forked hs, ownedBy_add, ownedBy_add, ownedBy_items, ownedBy_items,
      Twins.ownedBy_ofBranch, Twins.ownedBy_ofBranch]
    abel
  · exact (h₂.lentFanout i).mp ((congrFun hG.lent _).trans hlent')
  · exact (hstream' slot (hne hs)).trans (hstream hf)
  · exact hother'.trans (hstream hf)
  · rw [hhooks ((hG.tracked.trans hevolves.tracked).symm.trans ht)]
    exact ⟨hbefore slot (.inl rfl), hbefore other (.inr rfl)⟩
  · rw [hend.rank _ (h.sound.knowsFanout hi)]
    exact hrank

end

def Ledger.lentBelow (G : Ledger) (N : Nat) : Nat :=
  ((Finset.range N).filter fun i => G.lent (.fanout i) = true).card

theorem Ledger.lentBelow_setLent {G : Ledger} {N i : Nat} (hi : i < N)
    (h : G.lent (.fanout i) = false) :
    (G.setLent (.fanout i) true).lentBelow N = G.lentBelow N + 1 := by
  have hfilter : (Finset.range N).filter (fun j => (G.setLent (.fanout i) true).lent (.fanout j) = true) =
      insert i ((Finset.range N).filter fun j => G.lent (.fanout j) = true) := by
    ext j
    simp only [Finset.mem_filter, Finset.mem_range, Finset.mem_insert, G.lent_setLent, Spot.fanout.injEq]
    by_cases hj : j = i
    · simp [hj, hi]
    · simp [hj]
  rw [lentBelow, hfilter, Finset.card_insert_of_notMem]
  · rfl
  · simp [h]

theorem Ledger.lentBelow_le (G : Ledger) (N : Nat) : G.lentBelow N ≤ N :=
  (Finset.card_filter_le _ _).trans (Finset.card_range N).le

/-- From the place `N` on there are no backlogs, and more than the first `N` places can not be lent
before `depth` is used up. -/
structure Shallow (N depth : Nat) (G : Ledger) (st : Store) : Prop where
  bare : ∀ (i : Nat) (shared : Shared), N ≤ i → st.fanouts[i]? = some (.held shared) →
    ∀ slot, shared.fanout.backlog slot = []
  depth : N < depth + G.lentBelow N

theorem Shallow.mono {N depth : Nat} {G G' : Ledger} {st st' : Store} (h : Shallow N depth G st)
    (hlent : G'.lent = G.lent)
    (hbare : ∀ (i : Nat) (shared : Shared), N ≤ i → st'.fanouts[i]? = some (.held shared) →
      st.fanouts[i]? = some (.held shared) ∨ ∀ slot, shared.fanout.backlog slot = []) :
    Shallow N depth G' st' where
  bare i shared hN hi := (hbare i shared hN hi).elim (h.bare i shared hN) id
  depth := by
    have := h.depth
    rwa [Ledger.lentBelow, hlent]

theorem copyBacklog {N depth i slot : Nat} {G : Ledger} {st : Store} {F : Assets} {r : ℚ}
    {xs : List Twins.Item}
    (hfork : ∀ s : Twins.Sequence, (serving (Shallow N depth)).Triple (Twins.Sequence × Twins.Sequence)
      (parts s) (fun _ => s.left.forkWithin depth) (fun _ => some (s.right, s.right)) 0)
    (hP : Shallow N (depth + 1) G st) {shared : Shared} (hi : st.fanouts[i]? = some (.held shared))
    (hlent : G.lent (.fanout i) = false) (hxs : left xs = shared.fanout.backlog slot)
    (h : Ready (G.setLent (.fanout i) true) (st.setFanout i .lent) (parts xs) F r) :
    ∃ (ys zs : List Twins.Item) (st' : Store),
      Item.copyListWith (Sequence.forkWithin depth) (shared.fanout.backlog slot)
        (st.setFanout i .lent) = .ok ((left ys, left zs), st') ∧
      right ys = right xs ∧ right zs = right xs ∧ (N ≤ i → left ys = [] ∧ left zs = []) ∧
      ∃ G', Ready G' st' (parts ys + parts zs) F r ∧ Evolves F (G.setLent (.fanout i) true) G' ∧
        ∀ (j : Nat) (shared : Shared), N ≤ j → st'.fanouts[j]? = some (.held shared) →
          ∀ slot, shared.fanout.backlog slot = [] := by
  have hbare (j : Nat) (shared : Shared) (hN : N ≤ j)
      (hj : (st.setFanout i .lent).fanouts[j]? = some (.held shared)) (slot : Nat) :
      shared.fanout.backlog slot = [] := by
    rw [Store.getElem?_setFanout] at hj
    split at hj
    · split at hj <;> cases hj
    · exact hP.bare j shared hN hj slot
  -- from `N` on there are no backlogs; below it this fan-out is one less that can be lent
  by_cases hN : N ≤ i
  · have hempty := hP.bare i shared hN hi slot
    rw [hempty] at hxs ⊢
    have hnil : xs = [] := List.map_eq_nil_iff.mp hxs
    subst hnil
    refine ⟨[], [], st.setFanout i .lent, ?_, rfl, rfl, fun _ => ⟨rfl, rfl⟩, _, ?_, .refl _ _, hbare⟩
    · rw [Item.copyListWith_nil]
      rfl
    · exact h
  · have hdepth := hP.depth
    have hshallow : Shallow N depth (G.setLent (.fanout i) true) (st.setFanout i .lent) :=
      ⟨hbare, by rw [Ledger.lentBelow_setLent (Nat.lt_of_not_le hN) hlent]; omega⟩
    obtain ⟨⟨ys, zs⟩, st', hcopy, hlone, G', h', hG, hP'⟩ := (serving (Shallow N depth)).copyItems
      (f := fun _ => Sequence.forkWithin depth) (g := fun _ s => some (s, s)) hfork xs 0 _ _ F r
      hshallow h
    replace hlone := (Item.copyListWith_twice (fun _ => rfl) (right xs)).symm.trans hlone
    obtain ⟨hys, hzs⟩ := Prod.mk.inj (Option.some.inj hlone)
    rw [hxs] at hcopy
    exact ⟨ys, zs, st', hcopy, hys.symm, hzs.symm, fun hN' => absurd hN' hN, G', by simpa using h', hG,
      hP'.bare⟩

theorem forkWithin (N depth : Nat) (s : Twins.Sequence) :
    (serving (Shallow N depth)).Triple (Twins.Sequence × Twins.Sequence) (parts s)
      (fun _ => s.left.forkWithin depth) (fun _ => some (s.right, s.right)) 0 := by
  -- on the depth, which stays above the number of fan-outs that a backlog can still lead to
  induction depth generalizing s with
  | zero =>
    intro n G st F r hP h
    have := G.lentBelow_le N
    have := hP.depth
    omega
  | succ depth ih =>
    intro n G st F r hP h
    cases Twins.fits_twin.mp h.fits with
    | direct source hint finished hooks hsequence hcell hhooks =>
      have hsound := h.sound.fanouts
      obtain ⟨G', h', hG⟩ := Ready.addFanout source h ⟨hsequence, hcell⟩ hhooks
      refine ⟨(Twins.ofBranch ⟨G.fanouts, 0⟩ (right source) hint finished ⟨[], hooks.right⟩,
        Twins.ofBranch ⟨G.fanouts, 1⟩ (right source) hint finished ⟨[], hooks.right⟩),
        (st.addFanout (.pair (left source) hooks.left)).2, ?_, rfl, G', h', hG,
        hP.mono hG.lent fun i shared hN hi => ?_⟩
      · rw [hsound]
        rfl
      · rw [Store.getElem?_addFanout] at hi
        split at hi
        · obtain rfl := Place.held.inj (Option.some.inj hi)
          exact .inr Shared.backlog_pair
        · exact .inl hi
    | branch place stream hint finished hooks hstream hhooks =>
      obtain ⟨i, slot⟩ := place
      obtain ⟨shared, sl, hi, hs, hshared, hrank, hlent⟩ :=
        (show Ready G st (parts (Twins.ofBranch ⟨i, slot⟩ stream hint finished hooks)) F r from h).reader
      obtain ⟨source, hsource, hfits, hslots⟩ := hshared.streams
      obtain ⟨xs, hxs, hxfits, hleads⟩ := hslots slot sl hs
      rw [← Fanout.backlog_eq hs] at hxs
      have hlend := h.lend hi hrank.le (by rw [shared.assets_leave i slot, ← hxs, ownedBy_items]) hxfits
      obtain ⟨ys, zs, st', hcopy, hys, hzs, hempty, G', h', hG, hbare⟩ :=
        copyBacklog ih hP hi hlent hxs hlend
      have hframe := Twins.ownedBy_ofBranch ⟨i, slot⟩ stream hint finished hooks
      obtain ⟨G'', h'', hG'⟩ := h.forked hstream hi hs hsource hfits hslots hleads
        (by rwa [← hframe]) (by rwa [← hframe]) hys hzs hhooks
      refine ⟨(Twins.ofBranch ⟨i, slot⟩ stream hint finished ⟨[], hooks.right⟩, Twins.ofBranch
        ⟨i, ((shared.fanout.setBacklog slot (left ys)).join (left zs)).1⟩ stream hint finished
          ⟨[], hooks.right⟩),
        st'.setFanout i (.held (shared.forked slot (left ys) (left zs) hooks.left)), ?_, rfl, G'', h'',
        hG',
        hP.mono hG'.lent fun j held hN hj => ?_⟩
      · refine (Engine.bind_eq (Engine.lendFanout_eq hi)).trans ?_
        exact (Engine.bind_eq hcopy).trans rfl
      · rw [Store.getElem?_setFanout] at hj
        split at hj
        · next hij =>
          subst hij
          split at hj
          · obtain rfl := Place.held.inj (Option.some.inj hj)
            obtain ⟨hown, hseed⟩ := hempty hN
            rw [hown, hseed]
            exact .inr (Shared.backlog_forked (hP.bare i shared hN hi))
          · cases hj
        · exact .inr (hbare j held hN hj)

theorem Ready.fork {G : Ledger} {st : Store} {F : Assets} {r : ℚ} {s : Twins.Sequence}
    (h : Ready G st (parts s) F r) :
    ∃ (c : Twins.Sequence × Twins.Sequence) (st' : Store), s.left.fork st = .ok (left c, st') ∧
      right c = (s.right, s.right) ∧ Reaches G F r (parts c) st' := by
  have hshallow : Shallow st.fanouts.size (st.fanouts.size + 1) G st :=
    ⟨fun i shared hN hi => absurd (Store.lt_of_getElem? hi) (Nat.not_lt_of_le hN), by omega⟩
  obtain ⟨c, st', hfork, hlone, G', h', hG, hP⟩ := forkWithin _ _ s 0 G st F r hshallow h
  exact ⟨c, st', hfork, (Option.some.inj hlone).symm, G', by simpa using h', hG⟩

end LazyCalc
