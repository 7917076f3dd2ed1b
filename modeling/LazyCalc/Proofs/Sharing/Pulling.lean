import LazyCalc.Proofs.Fanout.Branches
import LazyCalc.Proofs.Sharing.Serving
/-!
Pulling a branch: it gives what is in its backlog, or nothing more after the end, or what a step of
the source gives, of which every other branch is handed a copy.
-/

namespace LazyCalc

/-- Every slot but the puller's has an item of its own pushed that stands for `X`. -/
inductive Delivered (puller : Nat) (X : Lone.Item) : Nat → List (Option (Slot Linked.Item)) →
    List Twins.Item → List (Option (Slot Linked.Item)) → Prop
  | nil (k : Nat) : Delivered puller X k [] [] []
  | free {k : Nat} {slots slots' : List (Option (Slot Linked.Item))} {ys : List Twins.Item}
    (h : Delivered puller X (k + 1) slots ys slots') :
    Delivered puller X k (none :: slots) ys (none :: slots')
  | own {slots slots' : List (Option (Slot Linked.Item))} {ys : List Twins.Item}
    (s : Slot Linked.Item) (h : Delivered puller X (puller + 1) slots ys slots') :
    Delivered puller X puller (some s :: slots) ys (some s :: slots')
  | other {k : Nat} {slots slots' : List (Option (Slot Linked.Item))} {y : Twins.Item}
    {ys : List Twins.Item} (s : Slot Linked.Item) (hk : k ≠ puller) (hy : right y = X)
    (h : Delivered puller X (k + 1) slots ys slots') :
    Delivered puller X k (some s :: slots) (y :: ys) (some (s.push (left y)).1 :: slots')

namespace Delivered

variable {puller k : Nat} {X : Lone.Item} {slots slots' : List (Option (Slot Linked.Item))}
  {ys : List Twins.Item}

theorem assets (h : Delivered puller X k slots ys slots') :
    (slots'.map Fanout.slotAssets).sum = (slots.map Fanout.slotAssets).sum + ownedBy (parts ys) := by
  induction h with
  | nil k => rfl
  | free h ih => simpa [Fanout.slotAssets] using ih
  | own s h ih =>
    simp only [List.map_cons, List.sum_cons, ih]
    abel
  | @other k slots slots' y ys s hk hy h ih =>
    have hpush : Fanout.slotAssets (some (s.push (left y)).1) =
        Fanout.slotAssets (some s) + ownedBy (parts y) := by
      rw [Fanout.slotAssets, Fanout.toList_push_backlog, Source.itemAssets_append,
        itemAssets_left]
      rfl
    simp only [List.map_cons, List.sum_cons, ih, hpush, parts_items_cons, ownedBy_add]
    abel

theorem slot (h : Delivered puller X k slots ys slots') (j : Nat) :
    if k + j = puller then slots'[j]?.join = slots[j]?.join
    else (slots[j]?.join = none ∧ slots'[j]?.join = none) ∨
      ∃ s y, slots[j]?.join = some s ∧ slots'[j]?.join = some (s.push (left y)).1 ∧ y ∈ ys ∧
        right y = X := by
  induction h generalizing j with
  | nil k => simp
  | @free k slots slots' ys h ih =>
    cases j with
    | zero => simp
    | succ j => simpa [Nat.add_assoc, Nat.add_comm 1 j] using ih j
  | own s h ih =>
    cases j with
    | zero => simp
    | succ j => simpa [Nat.add_assoc, Nat.add_comm 1 j] using ih j
  | @other k slots slots' y ys s hk hy h ih =>
    cases j with
    | zero =>
      rw [if_neg (by simpa using hk)]
      exact .inr ⟨s, y, rfl, rfl, List.mem_cons_self, hy⟩
    | succ j =>
      have hj := ih j
      rw [Nat.add_assoc, Nat.add_comm 1 j] at hj
      split
      · next he => simpa [he] using hj
      · next he =>
        rw [if_neg he] at hj
        obtain hnone | ⟨t, z, ht, ht', hz, hzX⟩ := hj
        · exact .inl hnone
        · exact .inr ⟨t, z, ht, ht', List.mem_cons_of_mem _ hz, hzX⟩

end Delivered

section

variable {G : Ledger} {st : Store} {F : Assets} {r : ℚ}

theorem Ready.deliver {x : Twins.Item} (h : Ready G st (parts x) F r) (puller k : Nat)
    (slots : List (Option (Slot Linked.Item))) :
    ∃ (x' : Twins.Item) (ys : List Twins.Item) (slots' : List (Option (Slot Linked.Item)))
      (lags : List Lag) (st' : Store),
      Fanout.deliver (Item.copyWith Sequence.fork) puller (left x) k slots st =
        .ok ((left x', slots', lags), st') ∧ right x' = right x ∧
      Delivered puller (right x) k slots ys slots' ∧ Reaches G F r (parts x' + parts ys) st' := by
  -- each copy that is pushed joins what is kept aside, and the other one goes on to the next slot
  induction slots generalizing k G st x F with
  | nil => exact ⟨x, [], [], [], st, rfl, rfl, .nil k, G, by simpa using h, .refl F G⟩
  | cons s slots ih =>
    cases s with
    | none =>
      obtain ⟨x', ys, slots', lags, st', hd, hx, hys, hr⟩ := ih h (k + 1)
      exact ⟨x', ys, none :: slots', lags, st', (Engine.bind_eq hd).trans rfl, hx, .free hys, hr⟩
    | some s =>
      by_cases hk : k = puller
      · obtain ⟨x', ys, slots', lags, st', hd, hx, hys, hr⟩ := ih h (k + 1)
        subst hk
        refine ⟨x', ys, some s :: slots', lags, st', ?_, hx, .own s hys, hr⟩
        rw [Fanout.deliver, if_pos rfl]
        exact (Engine.bind_eq hd).trans rfl
      · obtain ⟨y, z, st₁, hcopy, hy, hz, G₁, h₁, hG₁⟩ := h.copyItem
        obtain ⟨x', ys, slots', lags, st', hd, hx, hys, hr⟩ := ih h₁.focus (k + 1)
        refine ⟨x', z :: ys, some (s.push (left z)).1 :: slots',
          if (s.push (left z)).2 then ⟨k, (s.push (left z)).1.backlog.length⟩ :: lags else lags, st',
          ?_, hx.trans hy, .other s hk hz (hy ▸ hys), ?_⟩
        · rw [Fanout.deliver, if_neg hk]
          refine (Engine.bind_eq hcopy).trans ?_
          exact (Engine.bind_eq hd).trans rfl
        · obtain ⟨G₂, h₂, hG₂⟩ := Reaches.frame h₁ hr
          refine ⟨G₂, ?_, hG₁.trans hG₂⟩
          have : parts x' + parts (z :: ys) = (parts x' + parts ys + parts z : Twins.Parts) := by
            rw [parts_items_cons]
            abel
          rwa [this]

/-- What a branch still has to give once it has given `o`. -/
def streamAfter (o : Option Twins.Item) (S : Lone.Source) : Option Lone.Source :=
  if Sequence.closes (left o) then none else some S

theorem Ready.giveBack {G' : Ledger} {st' : Store} {i slot : Nat} {S S' : Lone.Source} {hint : Hint}
    {hooks : Twins.Hooks}
    (h : Ready G st (parts (Twins.ofBranch ⟨i, slot⟩ S hint false hooks)) F r)
    (hG : Evolves ({.hooks (.branch ⟨i, slot⟩) hooks.left} + {.branch ⟨i, slot⟩} + F)
      (G.setLent (.fanout i) true) G')
    {o : Option Twins.Item} {shared : Shared}
    (hsound : Sound G' st' (shared.assets i + (ownedBy (parts o) +
      ({.hooks (.branch ⟨i, slot⟩) hooks.left} + {.branch ⟨i, slot⟩} + F))))
    (hfits : Twins.Fits G' (parts o)) (hbelow : G'.Below r (ownedBy (parts o)))
    (hshared : shared.Sound (G'.advance ⟨i, slot⟩ (streamAfter o S')) i)
    (hd : ¬ shared.fanout.isDeserted = true) :
    Reaches G F r (parts (o, Twins.ofBranch ⟨i, slot⟩ S' hint (Sequence.closes (left o)) hooks))
      (st'.setFanout i (.held shared)) := by
  obtain ⟨shared₀, s, hi, hs, hshared₀, hrank, hlent⟩ := h.reader
  have hself : (G.setLent (.fanout i) true).lent (.fanout i) = true := Function.update_self ..
  have hlent' : G'.lent (.fanout i) = true := by rw [hG.lent, hself]
  -- the branch is at hand, so that no other one reads from its slot
  have hfree : .branch ⟨i, slot⟩ ∉ st'.assets + (shared.assets i + (ownedBy (parts o) +
      ({.hooks (.branch ⟨i, slot⟩) hooks.left} + F))) := by
    refine (hsound.of_eq ?_).not_mem_frame
    abel
  simp only [Multiset.mem_add, not_or] at hfree
  have hadvance := hsound.advance hlent' (p := ⟨i, slot⟩) (by simp) (streamAfter o S')
  have hend : Evolves F G ((G'.advance ⟨i, slot⟩ (streamAfter o S')).setLent (.fanout i) false) := by
    refine .lending hlent (hG.sub (Multiset.le_add_left _ _)) (.advance (p := ⟨i, slot⟩) _ ?_)
    exact hfree.2.2.2.2
  have hplace : st'.fanouts[i]? = some .lent := (hsound.lentFanout i).mp hlent'
  refine ⟨_, ⟨(hadvance.returnFanout hplace hshared hd).of_eq ?_, ?_, ?_, ?_⟩, hend⟩
  · rw [parts_pair, ownedBy_add, Twins.ownedBy_ofBranch]
    abel
  · refine Twins.fits_add.mpr ⟨hfits.mono ⟨fun p hp => ?_, fun _ _ => rfl, rfl, fun j _ => rfl⟩,
      Twins.fits_twin.mpr (.branch _ _ _ _ _ (fun hf => ?_) fun ht => ?_)⟩
    · refine Function.update_of_ne ?_ _ _
      rintro rfl
      exact hfree.2.2.1 hp
    · refine (Function.update_self ..).trans ?_
      rw [streamAfter, hf]
      rfl
    · change G'.tracked = true at ht
      change hooks.right = G'.before ⟨i, slot⟩ ++ hooks.left
      rw [hG.before _ (.inr hself)]
      exact (Twins.fits_twin.mp h.fits).hooks_branch rfl (hG.tracked.symm.trans ht)
  · rw [parts_pair, ownedBy_add, Ledger.below_add]
    refine ⟨hbelow, fun a ha x hx => ?_⟩
    rw [Twins.ownedBy_ofBranch, Multiset.mem_add, Multiset.mem_singleton, Multiset.mem_singleton] at ha
    obtain rfl | rfl := ha <;> cases hx
    rw [hend.rank _ (h.sound.knowsFanout hi)]
    exact hrank
  · exact hend.guards (fun x => h.sound.knows_lent) h.guards

theorem Shared.sound_advance {i slot : Nat} {shared : Shared} {stream : Option Lone.Source}
    (hfree : .branch ⟨i, slot⟩ ∉ shared.assets i)
    (hlive : ∀ j, G.live ⟨i, j⟩ = (shared.fanout.slot? j).isSome)
    (hbelow : G.Below (G.rank (.fanout i)) (shared.assets i)) {source : Twins.Source}
    (hsource : left source = shared.source) (hfits : Twins.Fits G (parts source))
    (hpuller : ∀ s, shared.fanout.slot? slot = some s →
      Backlogged G shared.fanout.done (right source) stream s.backlog.toList)
    (hothers : ∀ j s, j ≠ slot → shared.fanout.slot? j = some s →
      Backlogged G shared.fanout.done (right source) (G.stream ⟨i, j⟩) s.backlog.toList)
    (hbefore : ∀ j s, shared.fanout.slot? j = some s → (G.before ⟨i, j⟩).Sublist shared.hooks) :
    shared.Sound (G.advance ⟨i, slot⟩ stream) i where
  live := hlive
  below := hbelow
  before := hbefore
  streams := by
    have hagree : G.Agrees (G.advance ⟨i, slot⟩ stream) (shared.assets i) := by
      refine ⟨fun q hq => Function.update_of_ne ?_ _ _, fun _ _ => rfl, rfl, fun _ _ => rfl⟩
      rintro rfl
      exact hfree hq
    refine ⟨source, hsource, hfits.mono (hagree.sub ?_), fun j s hj => ?_⟩
    · rw [ownedBy_source, hsource]
      exact (shared.source_assets_le i)
    · by_cases hjs : j = slot
      · subst hjs
        have hself : (G.advance ⟨i, j⟩ stream).stream ⟨i, j⟩ = stream := Function.update_self ..
        rw [hself]
        exact (hpuller s hj).mono (hagree.sub (slot_assets_le hj))
      · have hother : (G.advance ⟨i, slot⟩ stream).stream ⟨i, j⟩ = G.stream ⟨i, j⟩ :=
          Function.update_of_ne (by simpa using hjs) _ _
        rw [hother]
        exact (hothers j s hjs hj).mono (hagree.sub (slot_assets_le hj))

theorem Ready.not_mem_shared {i slot j : Nat} {S : Lone.Source} {hint : Hint} {finished : Bool}
    {hooks : Twins.Hooks} {shared : Shared}
    (h : Ready G st (parts (Twins.ofBranch ⟨i, slot⟩ S hint finished hooks)) F r)
    (hj : st.fanouts[j]? = some (.held shared)) : .branch ⟨i, slot⟩ ∉ shared.assets j := fun hmem =>
  h.sound.not_mem_assets (Multiset.mem_add.mpr (.inl (Twins.branch_mem_ofBranch ..)))
    (Multiset.mem_of_le (Store.shared_assets_le hj) hmem)

theorem Leads.of_item {done : Bool} {Z S : Lone.Source} {x : Twins.Item} {Xs : List Lone.Item}
    (h : Leads done Z S (right x :: Xs)) :
    ∃ S', Settles (fun n => S.step (Drive.alone n)) (some (right x), S') ∧
      ∀ T, streamAfter (some x) S' = some T → Leads done Z T Xs := by
  cases x with
  | error e =>
    obtain ⟨S', hsettles⟩ := h.of_error
    exact ⟨S', hsettles, fun T hT => by cases hT⟩
  | ok v =>
    obtain ⟨S', hsettles, hrest⟩ := h.of_ok
    refine ⟨S', hsettles, fun T hT => ?_⟩
    obtain rfl := Option.some.inj hT
    exact hrest

theorem Ready.popBranch {i slot : Nat} {S : Lone.Source} {hint : Hint} {hooks : Twins.Hooks}
    {shared : Shared} {fanout : Fanout Linked.Item} {item : Linked.Item}
    (h : Ready G st (parts (Twins.ofBranch ⟨i, slot⟩ S hint false hooks)) F r)
    (hstream : G.stream ⟨i, slot⟩ = some S)
    (hi : st.fanouts[i]? = some (.held shared)) (hpop : shared.fanout.pop? slot = some (item, fanout)) :
    ∃ (x : Twins.Item) (S' : Lone.Source), left x = item ∧
      Settles (fun n => S.step (Drive.alone n)) (some (right x), S') ∧
      Reaches G F r (parts (some x, Twins.ofBranch ⟨i, slot⟩ S' hint (Sequence.closes (some item)) hooks))
        (st.setFanout i (.held { shared with fanout })) := by
  obtain ⟨hdone, s, t, hs, hst, hwarn, hslot⟩ := Fanout.pop?_eq_some hpop
  have hshared := (h.sound.shared i shared hi).1
  obtain ⟨source, hsource, hfits, hslots⟩ := hshared.streams
  obtain ⟨xs, hxs, hxfits, hleads⟩ := hslots slot s hs
  have hleads := hleads S hstream
  obtain ⟨_, _, _, _, _, hrank, hlent⟩ := h.reader
  cases xs with
  | nil =>
    rw [hst] at hxs
    cases hxs
  | cons x xs =>
    rw [hst] at hxs
    obtain ⟨rfl, htail⟩ := List.cons.inj hxs
    obtain ⟨S', hsettles, hrest⟩ := hleads.of_item
    have hassets : shared.fanout.assets = ownedBy (parts x) + fanout.assets :=
      (Fanout.assets_pop hpop).trans (congrArg (· + _) (itemAssets_left x))
    have hall : shared.assets i = ownedBy (parts x) + Shared.assets i { shared with fanout } := by
      rw [Shared.assets, hassets]
      simp only [Shared.assets]
      abel
    have hfitted := Twins.fits_add.mp (parts_items_cons x xs ▸ hxfits)
    have hsbelow := hshared.below
    rw [hall, Ledger.below_add] at hsbelow
    have hlend (A : Assets) : G.Agrees (G.setLent (.fanout i) true) A := G.agrees_setLent _ _ _
    have hafter : Shared.Sound ((G.setLent (.fanout i) true).advance ⟨i, slot⟩
        (streamAfter (some x) S')) i { shared with fanout } := by
      refine Shared.sound_advance (fun hmem => h.not_mem_shared hi ?_) (fun j => ?_) hsbelow.2 hsource
        (hfits.mono (hlend _)) (fun u hu => ?_) (fun j u hj hu => ?_) fun j u hu => ?_
      · rw [hall]
        exact Multiset.mem_add.mpr (.inr hmem)
      · refine (hshared.live j).trans ?_
        rw [hslot j]
        split
        · next hj => rw [hj, hs]; rfl
        · rfl
      · rw [hslot slot, if_pos rfl] at hu
        obtain rfl := Option.some.inj hu
        rw [hdone]
        exact ⟨xs, htail, hfitted.2.mono (hlend _), hrest⟩
      · rw [hslot j, if_neg hj] at hu
        rw [hdone]
        exact (hslots j u hu).mono (hlend _)
      · rw [hslot j] at hu
        split at hu
        · next hj => exact hj ▸ hshared.before slot s hs
        · exact hshared.before j u hu
    refine ⟨x, S', rfl, hsettles, ?_⟩
    have hback := h.giveBack (.refl _ _) (o := some x) ((h.sound.lendFanout hi).of_eq ?_)
      (hfitted.1.mono ⟨fun _ _ => rfl, fun _ _ => rfl, rfl, fun _ _ => rfl⟩)
      (hsbelow.1.mono hrank.le) hafter ?_
    · rwa [Store.setFanout_setFanout] at hback
    · rw [hall, Twins.ownedBy_ofBranch, parts_some]
      abel
    · exact Fanout.not_isDeserted (by rw [hslot slot, if_pos rfl]; rfl)

theorem Fanout.backlog_eq_nil {f : Fanout Linked.Item} {slot : Nat} {s : Slot Linked.Item}
    (hpop : f.pop? slot = none) (hs : f.slot? slot = some s) : s.backlog.toList = [] := by
  rwa [pop?_eq_none_iff, backlog_eq hs] at hpop

theorem Ready.pastEnd {i slot : Nat} {S : Lone.Source} {hint : Hint} {hooks : Twins.Hooks}
    {shared : Shared} (h : Ready G st (parts (Twins.ofBranch ⟨i, slot⟩ S hint false hooks)) F r)
    (hstream : G.stream ⟨i, slot⟩ = some S)
    (hi : st.fanouts[i]? = some (.held shared)) (hpop : shared.fanout.pop? slot = none)
    (hdone : shared.fanout.done = true) :
    ∃ S' : Lone.Source, Settles (fun n => S.step (Drive.alone n)) (none, S') ∧
      Reaches G F r (parts ((none : Option Twins.Item), Twins.ofBranch ⟨i, slot⟩ S' hint true hooks))
        (st.setFanout i (.held shared)) := by
  obtain ⟨shared', s, hi', hs, hshared, hrank, hlent⟩ := h.reader
  obtain rfl : shared = shared' := Place.held.inj (Option.some.inj (hi.symm.trans hi'))
  obtain ⟨source, hsource, hfits, hslots⟩ := hshared.streams
  obtain ⟨xs, hxs, hxfits, hleads⟩ := hslots slot s hs
  obtain rfl : xs = [] := List.map_eq_nil_iff.mp (hxs.trans (Fanout.backlog_eq_nil hpop hs))
  have hended := hleads S hstream
  rw [hdone] at hended
  obtain ⟨S', hsettles⟩ := hended.of_ended
  have hafter : shared.Sound ((G.setLent (.fanout i) true).advance ⟨i, slot⟩ (streamAfter none S')) i := by
    have hlend (A : Assets) : G.Agrees (G.setLent (.fanout i) true) A := G.agrees_setLent _ _ _
    refine Shared.sound_advance (h.not_mem_shared hi) hshared.live hshared.below hsource
      (hfits.mono (hlend _)) (fun u hu => ?_) (fun j u hj hu => (hslots j u hu).mono (hlend _))
      hshared.before
    rw [hs] at hu
    obtain rfl := Option.some.inj hu
    exact ⟨[], hxs, Twins.fits_zero, fun T hT => by cases hT⟩
  refine ⟨S', hsettles, ?_⟩
  have hback := h.giveBack (.refl _ _) (o := none) ((h.sound.lendFanout hi).of_eq ?_) Twins.fits_zero
    Ledger.below_zero hafter (h.sound.shared i shared hi).2
  · rwa [Store.setFanout_setFanout] at hback
  · rw [Twins.ownedBy_ofBranch, parts_none, ownedBy_zero, zero_add]

theorem Ready.afterStep {G' : Ledger} {st' : Store} {i slot : Nat} {S : Lone.Source} {hint : Hint}
    {hooks : Twins.Hooks} {shared : Shared} {source : Twins.Source} {fanout : Fanout Linked.Item}
    (o : Option Twins.Item) (ys : List Twins.Item)
    (h : Ready G st (parts (Twins.ofBranch ⟨i, slot⟩ S hint false hooks)) F r)
    (hi : st.fanouts[i]? = some (.held shared))
    (h' : Ready G' st' (parts o + parts ys + parts source) (shared.fanout.assets +
      {.hooks (.fanout i) shared.hooks} + (ownedBy (parts (Twins.ofBranch ⟨i, slot⟩ S hint false hooks)) + F))
      (G.rank (.fanout i)))
    (hG : Evolves (shared.fanout.assets + {.hooks (.fanout i) shared.hooks} +
      (ownedBy (parts (Twins.ofBranch ⟨i, slot⟩ S hint false hooks)) + F))
      (G.setLent (.fanout i) true) G')
    (hassets : fanout.assets = shared.fanout.assets + ownedBy (parts ys))
    (hlive : ∀ j, (fanout.slot? j).isSome = (shared.fanout.slot? j).isSome)
    (hpuller : ∀ s, fanout.slot? slot = some s →
      Backlogged G' fanout.done (right source) (streamAfter o (right source)) s.backlog.toList)
    (hothers : ∀ j s, j ≠ slot → fanout.slot? j = some s →
      Backlogged G' fanout.done (right source) (G.stream ⟨i, j⟩) s.backlog.toList) :
    Reaches G F r (parts (o, Twins.ofBranch ⟨i, slot⟩ (right source) hint
      (Sequence.closes (left o)) hooks))
      (st'.setFanout i (.held ⟨left source, fanout, shared.hooks⟩)) := by
  obtain ⟨shared', s, hi', hs, hshared, hrank, hlent⟩ := h.reader
  obtain rfl : shared = shared' := Place.held.inj (Option.some.inj (hi.symm.trans hi'))
  have hself : (G.setLent (.fanout i) true).lent (.fanout i) = true := Function.update_self ..
  have hknown : G.Knows (.fanout i) := h.sound.knowsFanout hi
  have hrank' : G'.rank (.fanout i) = G.rank (.fanout i) := hG.rank _ hknown
  have hfull : Shared.assets i ⟨left source, fanout, shared.hooks⟩ =
      ownedBy (parts ys) + ownedBy (parts source) + (shared.fanout.assets + {.hooks (.fanout i) shared.hooks}) := by
    rw [Shared.assets, hassets, ← ownedBy_source]
    abel
  have hframe := Twins.ownedBy_ofBranch ⟨i, slot⟩ S hint false hooks
  have hsound := h'.sound
  rw [hframe] at hsound hG
  have hbelow := h'.below
  rw [ownedBy_add, ownedBy_add, Ledger.below_add, Ledger.below_add] at hbelow
  have hold : G'.Below (G.rank (.fanout i)) (shared.fanout.assets + {.hooks (.fanout i) shared.hooks}) := by
    have hsub : shared.fanout.assets + {.hooks (.fanout i) shared.hooks} ≤ shared.assets i := by
      rw [Shared.assets, add_assoc]
      exact Multiset.le_add_left _ _
    refine hG.below (fun a ha x hx => h.sound.knows ?_ hx) (hshared.below.sub hsub)
    exact Sound.mem_of_held hi (Multiset.mem_of_le hsub ha)
  have hall : G'.Below (G.rank (.fanout i)) (Shared.assets i ⟨left source, fanout, shared.hooks⟩) := by
    rw [hfull]
    exact Ledger.below_add.mpr ⟨Ledger.below_add.mpr ⟨hbelow.1.2, hbelow.2⟩, hold⟩
  have hfree : .branch ⟨i, slot⟩ ∉ Shared.assets i ⟨left source, fanout, shared.hooks⟩ := by
    have hnot := (hsound.of_eq (show _ = {.branch ⟨i, slot⟩} + (Shared.assets i ⟨left source, fanout,
      shared.hooks⟩ + (ownedBy (parts o) + {.hooks (.branch ⟨i, slot⟩) hooks.left} + F)) by
        rw [hfull, ownedBy_add, ownedBy_add]
        abel)).not_mem_frame
    exact fun hmem => hnot (Multiset.mem_add.mpr (.inr (Multiset.mem_add.mpr (.inl hmem))))
  refine h.giveBack (hG.sub (Multiset.le_add_left _ _)) (hsound.of_eq ?_)
    (Twins.fits_add.mp (Twins.fits_add.mp h'.fits).1).1 (hbelow.1.1.mono hrank.le)
    (Shared.sound_advance hfree (fun j => ?_) (hrank' ▸ hall) rfl (Twins.fits_add.mp h'.fits).2
      hpuller (fun j t hj ht => ?_) fun j t ht => ?_) ?_
  · rw [hfull, ownedBy_add, ownedBy_add]
    abel
  · exact (hG.live _ hself).trans ((hshared.live j).trans (hlive j).symm)
  · rw [hG.stream _ (.inr hself)]
    exact hothers j t hj ht
  · have hsome := hlive j
    rw [ht] at hsome
    obtain ⟨u, hu⟩ := Option.isSome_iff_exists.mp hsome.symm
    rw [hG.before _ (.inr hself)]
    exact hshared.before j u hu
  · exact Fanout.not_isDeserted (by rw [hlive slot, hs]; rfl)

theorem caught_of_streamAfter {x x' : Twins.Item} {Z T : Lone.Source} (hx : right x' = right x)
    (hT : streamAfter (some x') Z = some T) : Leads (Item.isFailure (left x)) Z T [] := by
  cases x' with
  | error e => cases hT
  | ok v =>
    obtain rfl := Option.some.inj hT
    cases x with
    | error e => cases hx
    | ok w => exact .caught Z

theorem Leads.deliver {Z Z' S : Lone.Source} {Xs : List Lone.Item} (h : Leads false Z S Xs)
    {x : Twins.Item} (hZ : Settles (fun n => Z.step (Drive.alone n)) (some (right x), Z')) :
    Leads (Item.isFailure (left x)) Z' S (Xs ++ [right x]) := by
  cases x with
  | error e => exact h.fail hZ
  | ok v => exact h.push hZ

theorem parts_le_of_mem {y : Twins.Item} {ys : List Twins.Item} (h : y ∈ ys) :
    (parts y : Twins.Parts) ≤ parts ys := by
  obtain ⟨zs, zs', rfl⟩ := List.append_of_mem h
  rw [parts_items_append, parts_items_cons, add_left_comm]
  exact Multiset.le_add_right _ _

theorem Twins.Fits.of_le {G : Ledger} {A B : Twins.Parts} (h : Fits G A) (hB : B ≤ A) : Fits G B :=
  ⟨fun s hs => h.sequence s (Multiset.mem_of_le hB hs),
    fun k hk => h.cell k (Multiset.mem_of_le hB hk)⟩

def aroundSource (shared : Shared) (slot i : Nat) (hooks : List String) (F : Assets) : Assets :=
  shared.fanout.assets + {.hooks (.fanout i) shared.hooks} +
    ({.hooks (.branch ⟨i, slot⟩) hooks} + {.branch ⟨i, slot⟩} + F)

theorem Ready.caughtUp {i slot : Nat} {S : Lone.Source} {hint : Hint} {hooks : Twins.Hooks}
    {shared : Shared} (h : Ready G st (parts (Twins.ofBranch ⟨i, slot⟩ S hint false hooks)) F r)
    (hstream : G.stream ⟨i, slot⟩ = some S)
    (hi : st.fanouts[i]? = some (.held shared)) (hpop : shared.fanout.pop? slot = none)
    (hdone : shared.fanout.done = false) :
    ∃ source : Twins.Source, left source = shared.source ∧ right source = S ∧
      (∀ j s, shared.fanout.slot? j = some s →
        Backlogged G false S (G.stream ⟨i, j⟩) s.backlog.toList) ∧
      Ready (G.setLent (.fanout i) true) (st.setFanout i .lent) (parts source)
        (aroundSource shared slot i hooks.left F) (G.rank (.fanout i)) := by
  obtain ⟨shared', s, hi', hs, hshared, hrank, hlent⟩ := h.reader
  obtain rfl : shared = shared' := Place.held.inj (Option.some.inj (hi.symm.trans hi'))
  obtain ⟨source, hsource, hfits, hslots⟩ := hshared.streams
  obtain ⟨xs, hxs, hxfits, hleads⟩ := hslots slot s hs
  obtain rfl : xs = [] := List.map_eq_nil_iff.mp (hxs.trans (Fanout.backlog_eq_nil hpop hs))
  have hcaught := hleads S hstream
  rw [hdone] at hcaught hslots
  obtain rfl := hcaught.of_caught
  refine ⟨source, hsource, rfl, hslots, ?_⟩
  have hassets : shared.assets i =
      ownedBy (parts source) + (shared.fanout.assets + {.hooks (.fanout i) shared.hooks}) := by
    rw [ownedBy_source, hsource, Shared.assets, add_assoc]
  have hlend := h.lend hi hrank.le hassets hfits
  rwa [Twins.ownedBy_ofBranch] at hlend

section

variable {G' : Ledger} {st' : Store} {i slot : Nat} {S : Lone.Source} {hint : Hint}
  {hooks : Twins.Hooks} {shared : Shared} {source : Twins.Source}

theorem Evolves.fits_backlog (hG : Evolves (aroundSource shared slot i hooks.left F)
      (G.setLent (.fanout i) true) G') {j : Nat} {s : Slot Linked.Item}
    (hs : shared.fanout.slot? j = some s) {xs : List Twins.Item} (hxs : left xs = s.backlog.toList)
    (hfits : Twins.Fits G (parts xs)) : Twins.Fits G' (parts xs) := by
  have hle : Source.itemAssets s.backlog.toList ≤ aroundSource shared slot i hooks.left F := by
    rw [aroundSource, shared.fanout.assets_leave j, Fanout.backlog_eq hs]
    exact (Multiset.le_add_left _ _).trans
      ((Multiset.le_add_right _ _).trans (Multiset.le_add_right _ _))
  refine hfits.mono ?_
  rw [ownedBy_items, hxs]
  exact ⟨fun p hp => hG.stream p (.inl (Multiset.mem_of_le hle hp)),
    fun p hp => hG.before p (.inl (Multiset.mem_of_le hle hp)), hG.tracked,
    fun k hk => hG.snapshot k (.inl (Multiset.mem_of_le hle hk))⟩

variable (h : Ready G st (parts (Twins.ofBranch ⟨i, slot⟩ S hint false hooks)) F r)
  (hi : st.fanouts[i]? = some (.held shared)) (hpop : shared.fanout.pop? slot = none)
  (hslots : ∀ j s, shared.fanout.slot? j = some s →
    Backlogged G false S (G.stream ⟨i, j⟩) s.backlog.toList)
  (hG : Evolves (aroundSource shared slot i hooks.left F) (G.setLent (.fanout i) true) G')

include h hi hpop hslots hG

theorem Ready.pulledEnd (hc : Settles (fun n => S.step (Drive.alone n)) (none, right source))
    (h' : Ready G' st' (parts source) (aroundSource shared slot i hooks.left F) (G.rank (.fanout i))) :
    Reaches G F r
      (parts ((none : Option Twins.Item), Twins.ofBranch ⟨i, slot⟩ (right source) hint true hooks))
      (st'.setFanout i (.held ⟨left source, { shared.fanout with done := true }, shared.hooks⟩)) := by
  have hpulled := hG
  rw [aroundSource, ← Twins.ownedBy_ofBranch ⟨i, slot⟩ S hint false hooks] at h' hG
  refine h.afterStep none [] hi (by simpa using h') hG (add_zero _).symm (fun j => rfl)
    (fun s hs => ?_) fun j s hj hs => ?_
  · exact ⟨[], (Fanout.backlog_eq_nil hpop hs).symm, Twins.fits_zero, fun T hT => by cases hT⟩
  · obtain ⟨xs, hxs, hxfits, hleads⟩ := hslots j s hs
    exact ⟨xs, hxs, hpulled.fits_backlog hs hxs hxfits, fun T hT => (hleads T hT).finish hc⟩

theorem Ready.pulledItem {x : Twins.Item}
    (hc : Settles (fun n => S.step (Drive.alone n)) (some (right x), right source))
    (h' : Ready G' st' (parts x + parts source) (aroundSource shared slot i hooks.left F)
      (G.rank (.fanout i))) :
    ∃ (x' : Twins.Item) (slots : List (Option (Slot Linked.Item))) (lags : List Lag) (st₁ : Store),
      right x' = right x ∧
      Fanout.deliver (Item.copyWith Sequence.fork) slot (left x) 0 shared.fanout.slots st' =
        .ok ((left x', slots, lags), st₁) ∧
      Reaches G F r (parts (some x', Twins.ofBranch ⟨i, slot⟩ (right source) hint
          (Sequence.closes (some (left x'))) hooks))
        ((st₁.record (lags.map .lagging)).setFanout i
          (.held ⟨left source, ⟨slots, Item.isFailure (left x)⟩, shared.hooks⟩)) := by
  obtain ⟨x', ys, slots, lags, st₁, hdeliver, hx, hys, hr⟩ :=
    Ready.deliver (Ready.focus h') slot 0 shared.fanout.slots
  obtain ⟨G₁, h₁, hG₁⟩ := Reaches.frame h' hr
  have hG := hG.trans hG₁
  have hrecord := h₁.note (lags.map .lagging) (by
    simp [List.filterMap_map, Event.label?, Function.comp_def])
  have hslot (j : Nat) : if j = slot then slots[j]?.join = shared.fanout.slot? j
      else (shared.fanout.slot? j = none ∧ slots[j]?.join = none) ∨
        ∃ s y, shared.fanout.slot? j = some s ∧ slots[j]?.join = some (s.push (left y)).1 ∧
          y ∈ ys ∧ right y = right x := by
    have hj := hys.slot j
    rwa [Nat.zero_add] at hj
  have hpulled := hG
  refine ⟨x', slots, lags, st₁, hx, hdeliver, ?_⟩
  rw [aroundSource, ← Twins.ownedBy_ofBranch ⟨i, slot⟩ S hint false hooks] at hrecord hG
  refine h.afterStep (some x') ys hi hrecord hG hys.assets (fun j => ?_) (fun s hs => ?_)
    fun j s hj hs => ?_
  · have hj := hslot j
    split at hj
    · exact congrArg Option.isSome hj
    · obtain ⟨hnone, hnone'⟩ | ⟨s, y, hs, hs', -⟩ := hj
      · rw [hnone]
        exact congrArg Option.isSome hnone'
      · rw [hs]
        exact (congrArg Option.isSome hs').trans rfl
  · have hj := hslot slot
    rw [if_pos rfl] at hj
    exact ⟨[], (Fanout.backlog_eq_nil hpop (hj.symm.trans hs)).symm, Twins.fits_zero,
      fun T hT => caught_of_streamAfter hx hT⟩
  · have hdelivered := hslot j
    rw [if_neg hj] at hdelivered
    obtain ⟨-, hnone⟩ | ⟨t, y, ht, ht', hy, hyx⟩ := hdelivered
    · cases hnone.symm.trans hs
    · obtain rfl : (t.push (left y)).1 = s := Option.some.inj (ht'.symm.trans hs)
      obtain ⟨xs, hxs, hxfits, hleads⟩ := hslots j t ht
      refine ⟨xs ++ [y], ?_, ?_, fun T hT => ?_⟩
      · rw [Fanout.toList_push_backlog, ← hxs]
        exact List.map_append
      · rw [parts_items_append, parts_items_cons, parts_items_nil, add_zero]
        refine Twins.fits_add.mpr ⟨hpulled.fits_backlog ht hxs hxfits, ?_⟩
        exact (Twins.fits_add.mp (Twins.fits_add.mp h₁.fits).1).2.of_le (parts_le_of_mem hy)
      · rw [show right (xs ++ [y]) = right xs ++ [right y] from List.map_append, hyx]
        exact (hleads T hT).deliver hc

theorem Ready.pulled {c : Option Twins.Item × Twins.Source} (hdone : shared.fanout.done = false)
    (hc : Settles (fun n => S.step (Drive.alone n)) (right c))
    (h' : Ready G' st' (parts c) (aroundSource shared slot i hooks.left F) (G.rank (.fanout i))) :
    ∃ (o : Option Twins.Item) (st'' : Store), right o = (right c).1 ∧
      (∀ d : Linked.Drive, d.fork = Sequence.fork →
        shared.source.step d (st.setFanout i .lent) = .ok (left c, st') →
        pullBranch d ⟨i, slot⟩ st = .ok (left o, st'')) ∧
      Reaches G F r (parts (o, Twins.ofBranch ⟨i, slot⟩ (right c).2 hint
        (Sequence.closes (left o)) hooks)) st'' := by
  obtain ⟨_ | x, source⟩ := c
  · rw [parts_pair, parts_none, zero_add] at h'
    exact ⟨none, _, rfl, fun d _ hs => pullBranch_of_end hi hpop hdone hs,
      h.pulledEnd hi hpop hslots hG hc h'⟩
  · obtain ⟨x', slots, lags, st₁, hx, hdeliver, hr⟩ := h.pulledItem hi hpop hslots hG hc h'
    refine ⟨some x', _, congrArg some hx, fun d hd hs => ?_, hr⟩
    exact pullBranch_of_item hi hpop hdone hs (by rw [hd]; exact hdeliver)

end

end

end LazyCalc
