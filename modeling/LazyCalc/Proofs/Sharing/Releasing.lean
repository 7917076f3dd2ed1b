import LazyCalc.Proofs.Engine.Dropping
import LazyCalc.Proofs.Sharing.Forking
/-!
Dropping goes through in every sound store: whatever is reached is given up, and nothing else is
touched.
-/

namespace LazyCalc

namespace Debris

def assets : Debris → Assets
  | .value v => v.assets
  | .sequence s => s.assets
  | .source s => s.assets
  | .fanout i shared => shared.assets i
  | .cell i => {.cell i}

def assetsOf (ds : List Debris) : Assets := (ds.map assets).sum

def Loose : Debris → Prop
  | .fanout _ _ => False
  | .value _ | .sequence _ | .source _ | .cell _ => True

theorem assetsOf_nil : assetsOf [] = 0 := rfl

theorem assetsOf_cons (d : Debris) (ds : List Debris) :
    assetsOf (d :: ds) = d.assets + assetsOf ds := rfl

theorem assetsOf_append (ds es : List Debris) :
    assetsOf (ds ++ es) = assetsOf ds + assetsOf es := by
  simp [assetsOf]

theorem assetsOf_ofValues (vs : List Linked.Value) : assetsOf (ofValues vs) = Tree.assetsList vs := by
  induction vs with
  | nil => rfl
  | cons v vs ih => exact congrArg (v.assets + ·) ih

theorem assetsOf_ofItems (items : List Linked.Item) :
    assetsOf (ofItems items) = Source.itemAssets items := by
  induction items with
  | nil => rfl
  | cons item items ih =>
    cases item with
    | ok v => exact congrArg (v.assets + ·) ih
    | error e => exact ih

theorem assetsOf_cells (cell : Option Nat) :
    assetsOf (cell.toList.map .cell) = Asset.ofCell? cell := by
  cases cell <;> rfl

theorem assetsOf_ofSource (s : Linked.Source) : assetsOf (ofSource s) = s.assets := by
  cases s with
  | generated g => rfl
  | items remaining => exact assetsOf_ofItems remaining
  | mapped inner mapping => rw [ofSource, assetsOf_cons, assetsOf_cells]; rfl
  | filtered inner test held invert => rw [ofSource, assetsOf_cons, assetsOf_ofValues]; rfl
  | zipped left right pairing =>
    rw [ofSource, assetsOf_cons, assetsOf_cons, assetsOf_cells, ← add_assoc]
    rfl
  | window inner skip take => exact add_zero _

theorem loose_ofValues (vs : List Linked.Value) : ∀ d ∈ ofValues vs, d.Loose := by
  intro d hd
  obtain ⟨v, -, rfl⟩ := List.mem_map.mp hd
  trivial

theorem loose_ofItems (items : List Linked.Item) : ∀ d ∈ ofItems items, d.Loose := by
  intro d hd
  obtain ⟨item, -, hitem⟩ := List.mem_filterMap.mp hd
  cases item with
  | ok v =>
    obtain rfl := Option.some.inj hitem
    trivial
  | error e => cases hitem

theorem loose_ofSource (s : Linked.Source) : ∀ d ∈ ofSource s, d.Loose := by
  have hcells (cell : Option Nat) : ∀ d ∈ cell.toList.map Debris.cell, d.Loose := by
    intro d hd
    obtain ⟨i, -, rfl⟩ := List.mem_map.mp hd
    trivial
  cases s with
  | generated g => simp [ofSource]
  | items remaining => exact loose_ofItems remaining
  | mapped inner mapping => exact List.forall_mem_cons.mpr ⟨trivial, hcells _⟩
  | filtered inner test held invert => exact List.forall_mem_cons.mpr ⟨trivial, loose_ofValues held⟩
  | zipped left right pairing =>
    exact List.forall_mem_cons.mpr ⟨trivial, List.forall_mem_cons.mpr ⟨trivial, hcells _⟩⟩
  | window inner skip take => exact List.forall_mem_cons.mpr ⟨trivial, by simp⟩

end Debris

/-- Everything in the list can be dropped, whatever is to be dropped after it, and what is around it
stays as it is. -/
def Released (G : Ledger) (st : Store) (ds : List Debris) (F : Assets) : Prop :=
  ∃ st' G', (∀ rest, release (ds ++ rest) st = release rest st') ∧
    st'.weight ≤ Debris.weights ds + st.weight ∧ Sound G' st' F ∧ Evolves F G G'

/-- Every list with at most this weight in its store can be dropped. -/
def ReleasedBelow (n : Nat) : Prop :=
  ∀ ds G st F r, Debris.weights ds + st.weight < n → (∀ d ∈ ds, d.Loose) →
    Sound G st (Debris.assetsOf ds + F) → G.Below r (Debris.assetsOf ds) → G.Guards r →
    Released G st ds F

section

variable {n : Nat} {G : Ledger} {st : Store} {ds : List Debris} {F : Assets} {r : ℚ}

theorem Released.of_step {G' : Ledger} {st' : Store} {ds' : List Debris}
    (h : Released G' st' ds' F) (hstep : ∀ rest, release (ds ++ rest) st = release (ds' ++ rest) st')
    (hweight : Debris.weights ds' + st'.weight ≤ Debris.weights ds + st.weight)
    (hG : Evolves F G G') : Released G st ds F := by
  obtain ⟨st'', G'', hrel, hw, hsound, hG'⟩ := h
  exact ⟨st'', G'', fun rest => (hstep rest).trans (hrel rest), hw.trans hweight, hsound,
    hG.trans hG'⟩

theorem Fanout.assets_of_isDeserted {f : Fanout Linked.Item} (h : f.isDeserted = true) :
    f.assets = 0 := by
  refine Multiset.eq_zero_of_forall_notMem fun x hx => ?_
  obtain ⟨j, s, hj, -⟩ := mem_assets.mp hx
  rw [isDeserted_iff] at h
  rw [h j] at hj
  cases hj

theorem Shared.Sound.leave {G' : Ledger} {i slot : Nat} {shared : Shared} (h : shared.Sound G i)
    (hagree : G.Agrees G' ((shared.leave slot).assets i))
    (hlive : ∀ j, G'.live ⟨i, j⟩ = G.live ⟨i, j⟩)
    (hstream : ∀ j, G'.stream ⟨i, j⟩ = G.stream ⟨i, j⟩)
    (hbefore : ∀ j, G'.before ⟨i, j⟩ = G.before ⟨i, j⟩)
    (hbelow : G'.Below (G'.rank (.fanout i)) ((shared.leave slot).assets i)) :
    (shared.leave slot).Sound (G'.leave ⟨i, slot⟩) i where
  live j := by
    change Function.update G'.live ⟨i, slot⟩ false ⟨i, j⟩ = _
    rw [Function.update_apply, Shared.leave, Fanout.slot?_leave]
    by_cases hj : j = slot
    · simp [hj]
    · rw [if_neg (by simpa using hj), if_neg hj, hlive, h.live]
  below := hbelow
  streams := by
    have hagree' : G.Agrees (G'.leave ⟨i, slot⟩) ((shared.leave slot).assets i) :=
      ⟨hagree.stream, hagree.before, hagree.tracked, hagree.snapshot⟩
    obtain ⟨source, hsource, hfits, hslots⟩ := h.streams
    refine ⟨source, hsource, hfits.mono (hagree'.sub ?_), fun j s hj => ?_⟩
    · rw [ownedBy_source, hsource]
      exact (shared.leave slot).source_assets_le i
    · have hle := Shared.slot_assets_le (i := i) hj
      rw [Shared.leave, Fanout.slot?_leave] at hj
      split at hj
      · cases hj
      · change Backlogged _ _ _ (G'.stream ⟨i, j⟩) _
        rw [hstream]
        exact (hslots j s hj).mono (hagree'.sub hle)
  before j s hj := by
    rw [Shared.leave, Fanout.slot?_leave] at hj
    split at hj
    · cases hj
    · change (G'.before ⟨i, j⟩).Sublist shared.hooks
      rw [hbefore]
      exact h.before j s hj

theorem Sound.cell_held_of_mem {own : Assets} {i : Nat} (h : Sound G st own)
    (hi : .cell i ∈ st.assets + own) (hx : G.lent (.cell i) = false) :
    ∃ cell, st.cells[i]? = some (.held cell) := by
  obtain hl | hheld := h.occupied i (h.holders_of_mem hi)
  · rw [← h.lentCell, hx] at hl
    cases hl
  · exact hheld

theorem released_cell (ih : ReleasedBelow n) {i : Nat}
    (hn : Debris.weights (.cell i :: ds) + st.weight ≤ n) (hloose : ∀ d ∈ ds, d.Loose)
    (h : Sound G st (Debris.assetsOf (.cell i :: ds) + F))
    (hbelow : G.Below r (Debris.assetsOf (.cell i :: ds))) (hguards : G.Guards r) :
    Released G st (.cell i :: ds) F := by
  rw [Debris.assetsOf_cons, Ledger.below_add] at hbelow
  rw [Debris.assetsOf_cons, add_assoc] at h
  have hrank : G.rank (.cell i) < r := hbelow.1 (.cell i) (Multiset.mem_singleton_self _) _ rfl
  have hlent := hguards.not_lent hrank
  obtain ⟨cell, hi⟩ := h.cell_held_of_mem (by
    exact Multiset.mem_add.mpr (.inr (Multiset.mem_add.mpr (.inl (Multiset.mem_singleton_self _))))) hlent
  have hcell := h.cell i cell hi
  have hself : (G.setLent (.cell i) true).lent (.cell i) = true := Function.update_self ..
  have hlend := ((h.lendCell hi).of_eq (add_left_comm _ _ _)).dismiss hself
  have hG : Evolves F G (((G.setLent (.cell i) true).count i
      ((G.setLent (.cell i) true).holders i - 1)).setLent (.cell i) false) :=
    .lending hlent (.refl F _) (.count i _)
  have hplace : (st.setCell i .lent).cells[i]? = some .lent := (h.lendCell hi).lentCell i |>.mp hself
  have hweight := Store.weight_lendCell (Store.lendCell_eq hi)
  have hguards' := hG.guards (fun x => h.knows_lent) hguards
  rw [Debris.weights_cons, Debris.weight] at hn
  have hcounted := hcell.holders
  by_cases hlast : cell.holders ≤ 1
  · have hvacant := Store.weight_setCell_le i .vacant (st.setCell i .lent)
    rw [Place.weight, add_zero] at hvacant
    have hless : Debris.weights (.value cell.collection.toValue :: ds) +
        ((st.setCell i .lent).setCell i .vacant).weight < 1 + Debris.weights ds + st.weight := by
      rw [Debris.weights_cons, Debris.weight]
      rw [Cell.weight] at hweight
      omega
    refine (ih (.value cell.collection.toValue :: ds) _ _ F r (by omega)
      (List.forall_mem_cons.mpr ⟨trivial, hloose⟩) ((hlend.vacateCell hplace ?_).of_eq ?_) ?_
      hguards').of_step (fun rest => release_cell_last hi hlast) ?_ hG
    · change Function.update G.holders i (G.holders i - 1) i = 0
      rw [Function.update_self]
      omega
    · rw [Debris.assetsOf_cons, add_assoc]
      rfl
    · rw [Debris.assetsOf_cons, Ledger.below_add]
      exact ⟨hcell.below.mono hrank.le, hbelow.2⟩
    · rw [Debris.weights_cons (.cell i), Debris.weight]
      exact hless.le
  · have hheld := Store.weight_setCell_le i (.held { cell with holders := cell.holders - 1 })
      (st.setCell i .lent)
    have hless : Debris.weights ds + ((st.setCell i .lent).setCell i
        (.held { cell with holders := cell.holders - 1 })).weight <
          1 + Debris.weights ds + st.weight := by
      simp only [Place.weight, Cell.weight] at hheld hweight
      omega
    refine (ih ds _ _ F r (by omega) hloose ((hlend.of_eq ?_).returnCell hplace ?_) hbelow.2
      hguards').of_step (fun rest => release_cell hi hlast) ?_ hG
    · rfl
    · refine { holders := ?_, held := ?_, below := hcell.below, snapshot := ?_ }
      · change _ = Function.update G.holders i (G.holders i - 1) i
        rw [Function.update_self, ← hcounted]
      · dsimp only
        omega
      · obtain ⟨c, hc, hsnapshot, hfits⟩ := hcell.snapshot
        exact ⟨c, hc, hsnapshot, hfits.mono ⟨fun _ _ => rfl, fun _ _ => rfl, rfl, fun _ _ => rfl⟩⟩
    · rw [Debris.weights_cons, Debris.weight]
      exact hless.le

theorem released_fanout (ih : ReleasedBelow n) {i : Nat} {shared : Shared}
    (hn : Debris.weights (.fanout i shared :: ds) + st.weight ≤ n) (hloose : ∀ d ∈ ds, d.Loose)
    (h : Sound G st (shared.assets i + (Debris.assetsOf ds + F)))
    (hlent : G.lent (.fanout i) = true) (hshared : shared.Sound G i)
    (hbelow : (G.setLent (.fanout i) false).Below r (shared.source.assets + Debris.assetsOf ds))
    (hguards : (G.setLent (.fanout i) false).Guards r) :
    Released (G.setLent (.fanout i) false) st (.fanout i shared :: ds) F := by
  have hplace : st.fanouts[i]? = some .lent := (h.lentFanout i).mp hlent
  rw [Debris.weights_cons, Debris.weight, Shared.weight] at hn
  by_cases hd : shared.fanout.isDeserted = true
  · have hvacant := Store.weight_setFanout_le i .vacant st
    rw [Place.weight, add_zero] at hvacant
    have hleft : shared.assets i + (Debris.assetsOf ds + F) =
        {.hooks (.fanout i) shared.hooks} + (Debris.assetsOf (.source shared.source :: ds) + F) := by
      rw [Shared.assets, Fanout.assets_of_isDeserted hd, Debris.assetsOf_cons, Debris.assets]
      abel
    have hnone (j : Nat) : G.live ⟨i, j⟩ = false := by
      rw [hshared.live, (shared.fanout.isDeserted_iff.mp hd) j]
      rfl
    obtain ⟨book, hbook, hclosed⟩ := ((h.vacateFanout hplace hnone).of_eq hleft).closed
    refine (ih (.source shared.source :: ds) _ _ F r ?_ (List.forall_mem_cons.mpr ⟨trivial, hloose⟩)
      hclosed hbelow hguards).of_step (fun rest => release_fanout_last hd) ?_ (.turn F hbook)
    · rw [Debris.weights_cons, Debris.weight, Store.weight_record]
      omega
    · rw [Debris.weights_cons, Debris.weights_cons, Debris.weight, Debris.weight, Shared.weight,
        Store.weight_record]
      omega
  · have hheld := Store.weight_setFanout_le i (.held shared) st
    rw [Place.weight, Shared.weight] at hheld
    exact (ih ds _ _ F r (by omega) hloose (h.returnFanout hplace hshared hd)
      (Ledger.below_add.mp hbelow).2 hguards).of_step (fun rest => release_fanout hd)
      (by rw [Debris.weights_cons, Debris.weight, Shared.weight]; omega) (.refl F _)

theorem released_branch (ih : ReleasedBelow n) {i slot : Nat} {hint : Hint} {finished : Bool}
    {hooks : List String}
    (hn : Debris.weights (.sequence ⟨.branch ⟨i, slot⟩, hint, finished, hooks⟩ :: ds) + st.weight ≤ n)
    (hloose : ∀ d ∈ ds, d.Loose)
    (h : Sound G st (Debris.assetsOf (.sequence ⟨.branch ⟨i, slot⟩, hint, finished, hooks⟩ :: ds) + F))
    (hbelow : G.Below r
      (Debris.assetsOf (.sequence ⟨.branch ⟨i, slot⟩, hint, finished, hooks⟩ :: ds)))
    (hguards : G.Guards r) :
    Released G st (.sequence ⟨.branch ⟨i, slot⟩, hint, finished, hooks⟩ :: ds) F := by
  rw [Debris.assetsOf_cons] at h
  rw [Debris.assetsOf_cons, Ledger.below_add] at hbelow
  have hassets : (Debris.sequence ⟨.branch ⟨i, slot⟩, hint, finished, hooks⟩).assets =
    {.hooks (.branch ⟨i, slot⟩) hooks} + {.branch ⟨i, slot⟩} := rfl
  rw [hassets, add_assoc] at h
  rw [hassets, Ledger.below_add] at hbelow
  have hrank : G.rank (.fanout i) < r :=
    hbelow.1.2 (.branch ⟨i, slot⟩) (Multiset.mem_singleton_self _) _ rfl
  have hlent := hguards.not_lent hrank
  obtain ⟨book, hbook, hclosed⟩ := (h.of_eq (add_assoc _ _ _)).closed
  obtain ⟨shared, s, hi, hs⟩ := hclosed.held_of_mem (p := ⟨i, slot⟩) (by simp) hlent
  have hi' : st.fanouts[i]? = some (.held shared) := by simpa using hi
  have hshared := (h.shared i shared hi').1
  have hsbelow := hshared.below
  rw [shared.assets_leave i slot, Ledger.below_add] at hsbelow
  have hself : ((G.turn book).setLent (.fanout i) true).lent (.fanout i) = true :=
    Function.update_self ..
  have hweight := Store.weight_lendFanout (Store.lendFanout_eq hi)
  rw [Store.weight_record, Shared.weight] at hweight
  have hleave := shared.fanout.weight_leave slot
  rw [Debris.weights_cons, Debris.weight, Sequence.weight, Origin.weight] at hn
  -- The backlog goes first, while the fan-out is lent and without the slot.
  obtain ⟨st₂, G₂, hrel, hw, h₂, hG₂⟩ := ih (Debris.ofItems (shared.fanout.backlog slot)) _ _
    ((shared.leave slot).assets i + ({.branch ⟨i, slot⟩} + (Debris.assetsOf ds + F)))
    (G.rank (.fanout i)) (by rw [Debris.weights_ofItems]; omega) (Debris.loose_ofItems _)
    ((hclosed.lendFanout hi).of_eq (by
      rw [Debris.assetsOf_ofItems, shared.assets_leave i slot, add_assoc]))
    (by rw [Debris.assetsOf_ofItems]; exact hsbelow.1)
    (hguards.lend hrank.le)
  rw [Debris.weights_ofItems] at hw
  have hlent₂ : G₂.lent (.fanout i) = true := by rw [hG₂.lent, hself]
  have hG : Evolves F G ((G₂.leave ⟨i, slot⟩).setLent (.fanout i) false) := by
    refine (Evolves.turn F hbook).trans (.lending hlent (hG₂.sub ?_) (.leave ⟨i, slot⟩))
    simp only [← add_assoc]
    exact Multiset.le_add_left _ _
  have hsound : (shared.leave slot).Sound (G₂.leave ⟨i, slot⟩) i := by
    have hagree : G.Agrees G₂ ((shared.leave slot).assets i) :=
      ((G.agrees_turn book _).trans (Ledger.agrees_setLent _ (.fanout i) true _)).trans
        (hG₂.agrees.sub (Multiset.le_add_right _ _))
    refine hshared.leave hagree (fun j => hG₂.live _ hself) (fun j => hG₂.stream _ (.inr hself))
      (fun j => hG₂.before _ (.inr hself)) ?_
    have hrank₂ : G₂.rank (.fanout i) = G.rank (.fanout i) := hG₂.rank _ (h.knowsFanout hi')
    rw [hrank₂]
    refine hG₂.below (fun a ha x hx => h.knows (Sound.mem_of_held hi' ?_) hx) hsbelow.2
    rw [shared.assets_leave i slot]
    exact Multiset.mem_add.mpr (.inr ha)
  have hbelow₂ : ((G₂.leave ⟨i, slot⟩).setLent (.fanout i) false).Below r
      (shared.source.assets + Debris.assetsOf ds) := by
    refine Ledger.below_add.mpr ⟨hG.below (fun a ha x hx => h.knows ?_ hx) ?_,
      hG.below (fun a ha x hx => h.knows (by simp [ha]) hx) hbelow.2⟩
    · exact Sound.mem_of_held hi' (Multiset.mem_of_le (shared.source_assets_le i) ha)
    · exact (hsbelow.2.sub ((shared.leave slot).source_assets_le i)).mono hrank.le
  have hless : Debris.weights (.fanout i (shared.leave slot) :: ds) + st₂.weight ≤
      1 + 1 + Debris.weights ds + st.weight := by
    rw [Debris.weights_cons, Debris.weight, Shared.weight]
    simp only [Shared.leave]
    omega
  refine (released_fanout ih (by omega) hloose
    ((h₂.of_eq (add_left_comm _ _ _)).leave hlent₂) hlent₂ hsound hbelow₂
    (hG.guards (fun x => h.knows_lent) hguards)).of_step (fun rest => ?_) ?_ hG
  · rw [List.cons_append, release_branch hi', hrel]
    rfl
  · rw [Debris.weights_cons (.sequence _), Debris.weight, Sequence.weight, Origin.weight]
    exact hless

theorem released_parts (ih : ReleasedBelow n) {d : Debris} {es : List Debris}
    (hstep : ∀ rest, release (d :: rest) st = release (es ++ rest) st)
    (hassets : Debris.assetsOf es = d.assets) (hless : Debris.weights es < d.weight)
    (hes : ∀ e ∈ es, e.Loose) (hn : Debris.weights (d :: ds) + st.weight ≤ n)
    (hloose : ∀ d ∈ ds, d.Loose) (h : Sound G st (Debris.assetsOf (d :: ds) + F))
    (hbelow : G.Below r (Debris.assetsOf (d :: ds))) (hguards : G.Guards r) :
    Released G st (d :: ds) F := by
  have hsame : Debris.assetsOf (d :: ds) = Debris.assetsOf (es ++ ds) := by
    rw [Debris.assetsOf_cons, Debris.assetsOf_append, hassets]
  rw [hsame] at h hbelow
  have hlt : Debris.weights (es ++ ds) < Debris.weights (d :: ds) := by
    rw [Debris.weights_append, Debris.weights_cons]
    omega
  refine (ih (es ++ ds) G st F r (by omega) (List.forall_mem_append.mpr ⟨hes, hloose⟩) h hbelow
    hguards).of_step (fun rest => ?_) (by omega) (.refl F G)
  rw [List.cons_append, List.append_assoc]
  exact hstep _

theorem released_direct (ih : ReleasedBelow n) {source : Linked.Source} {hint : Hint}
    {finished : Bool} {hooks : List String}
    (hn : Debris.weights (.sequence ⟨.direct source, hint, finished, hooks⟩ :: ds) + st.weight ≤ n)
    (hloose : ∀ d ∈ ds, d.Loose)
    (h : Sound G st (Debris.assetsOf (.sequence ⟨.direct source, hint, finished, hooks⟩ :: ds) + F))
    (hbelow : G.Below r (Debris.assetsOf (.sequence ⟨.direct source, hint, finished, hooks⟩ :: ds)))
    (hguards : G.Guards r) :
    Released G st (.sequence ⟨.direct source, hint, finished, hooks⟩ :: ds) F := by
  have hassets : Debris.assetsOf (.sequence ⟨.direct source, hint, finished, hooks⟩ :: ds) =
      {.hooks .direct hooks} + Debris.assetsOf (.source source :: ds) := by
    rw [Debris.assetsOf_cons, Debris.assetsOf_cons, ← add_assoc]
    rfl
  have hless : Debris.weights (.source source :: ds) <
      Debris.weights (.sequence ⟨.direct source, hint, finished, hooks⟩ :: ds) := by
    rw [Debris.weights_cons, Debris.weights_cons, Debris.weight, Debris.weight, Sequence.weight,
      Origin.weight]
    omega
  rw [hassets, add_assoc] at h
  rw [hassets, Ledger.below_add] at hbelow
  obtain ⟨book, hbook, hclosed⟩ := h.closed
  refine (ih (.source source :: ds) _ (st.record (hooks.map .closed)) F r ?_
    (List.forall_mem_cons.mpr ⟨trivial, hloose⟩) hclosed hbelow.2 hguards).of_step
    (fun rest => release_direct) ?_ (.turn F hbook)
  · rw [Store.weight_record]
    omega
  · rw [Store.weight_record]
    omega

theorem releasedBelow (n : Nat) : ReleasedBelow n := by
  induction n with
  | zero => exact fun ds G st F r hn => absurd hn (Nat.not_lt_zero _)
  | succ n ih =>
    intro ds G st F r hn hloose h hbelow hguards
    cases ds with
    | nil =>
      rw [Debris.assetsOf_nil, zero_add] at h
      exact ⟨st, G, fun rest => rfl, Nat.le_add_left _ _, h, .refl F G⟩
    | cons d ds =>
      rw [List.forall_mem_cons] at hloose
      have hn := Nat.le_of_lt_succ hn
      have hparts {es : List Debris} (hes : ∀ e ∈ es, e.Loose)
          (hassets : Debris.assetsOf es = d.assets) (hless : Debris.weights es < d.weight)
          (hstep : ∀ rest, release (d :: rest) st = release (es ++ rest) st) :
          Released G st (d :: ds) F :=
        released_parts ih hstep hassets hless hes hn hloose.2 h hbelow hguards
      cases d with
      | fanout i shared => exact hloose.1.elim
      | cell i => exact released_cell ih hn hloose.2 h hbelow hguards
      | source s =>
        refine hparts (Debris.loose_ofSource s) (Debris.assetsOf_ofSource s)
          (Debris.weights_ofSource s) fun rest => ?_
        conv => lhs; rw [release]
      | value v =>
        cases v with
        | scalar x =>
          refine hparts (List.forall_mem_nil _) rfl Nat.one_pos fun rest => ?_
          rw [release, List.nil_append]
        | list items =>
          refine hparts (Debris.loose_ofValues items) (Debris.assetsOf_ofValues items) ?_
            fun rest => ?_
          · rw [Debris.weights_ofValues, Debris.weight, Tree.weight]
            omega
          · conv => lhs; rw [release]
        | sequence s =>
          have hs : ∀ e ∈ [Debris.sequence s], e.Loose := by simp [Debris.Loose]
          refine hparts hs (add_zero _) ?_ fun rest => ?_
          · rw [Debris.weight, Tree.weight, Debris.weights_cons, Debris.weight]
            exact lt_one_add _
          · conv => lhs; rw [release]
            rfl
      | sequence s =>
        obtain ⟨origin, hint, finished, hooks⟩ := s
        cases origin with
        | branch place => exact released_branch ih hn hloose.2 h hbelow hguards
        | direct source => exact released_direct ih hn hloose.2 h hbelow hguards

theorem Ready.released {A : Twins.Parts} (ds : List Debris) (h : Ready G st A F r) (hloose : ∀ d ∈ ds, d.Loose)
    (hds : Debris.assetsOf ds = ownedBy A) :
    ∃ st', Engine.drop ds st = .ok ((), st') ∧ Reaches G F r 0 st' := by
  obtain ⟨st', G', hrel, -, hsound, hG⟩ := releasedBelow _ ds G st F r (Nat.lt_succ_self _) hloose
    (by rw [hds]; exact h.sound) (by rw [hds]; exact h.below) h.guards
  refine ⟨st', Engine.drop_eq ?_, G', ⟨?_, Twins.fits_zero, Ledger.below_zero, ?_⟩, hG⟩
  · have hnil := hrel []
    rwa [List.append_nil, release_nil] at hnil
  · rwa [ownedBy_zero, zero_add]
  · exact hG.guards (fun x => h.sound.knows_lent) h.guards

theorem Ready.drop {vs : List Twins.Value} (h : Ready G st (parts vs) F r) :
    ∃ st', Engine.dropValues (left vs) st = .ok ((), st') ∧ Reaches G F r 0 st' :=
  h.released _ (Debris.loose_ofValues _) (by rw [Debris.assetsOf_ofValues, ownedBy_values])

end

end LazyCalc
