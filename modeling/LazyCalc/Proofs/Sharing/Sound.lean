import LazyCalc.Proofs.Engine.Closing
import LazyCalc.Proofs.Sharing.Ledger
/-!
Sound stores: the ledger is true of what is in the store, and everything in it is owned once, by
what else is in it or by those at work.
-/

namespace LazyCalc

def Asset.labels? : Asset → Option (Carrier × List String)
  | .hooks carrier labels => some (carrier, labels)
  | .branch _ | .cell _ => none

def waitingIn (A : Assets) : Multiset (Carrier × List String) := A.filterMap Asset.labels?

theorem waitingIn_add (A B : Assets) : waitingIn (A + B) = waitingIn A + waitingIn B :=
  Multiset.filterMap_add ..

@[simp]
theorem waitingIn_branch (p : Branch) : waitingIn {.branch p} = 0 := rfl

@[simp]
theorem waitingIn_cell (i : Nat) : waitingIn {.cell i} = 0 := rfl

@[simp]
theorem waitingIn_hooks (carrier : Carrier) (labels : List String) :
    waitingIn {.hooks carrier labels} = {(carrier, labels)} := rfl

/-- A backlog is what its branch has to give before the source is pulled for it. -/
def Backlogged (G : Ledger) (done : Bool) (Z : Lone.Source) (stream : Option Lone.Source)
    (items : List Linked.Item) : Prop :=
  ∃ xs : List Twins.Item, left xs = items ∧ Twins.Fits G (parts xs) ∧
    ∀ S, stream = some S → Leads done Z S (right xs)

structure Shared.Sound (G : Ledger) (i : Nat) (shared : Shared) : Prop where
  live : ∀ slot, G.live ⟨i, slot⟩ = (shared.fanout.slot? slot).isSome
  below : G.Below (G.rank (.fanout i)) (shared.assets i)
  streams : ∃ source : Twins.Source, left source = shared.source ∧ Twins.Fits G (parts source) ∧
    ∀ slot s, shared.fanout.slot? slot = some s →
      Backlogged G shared.fanout.done (right source) (G.stream ⟨i, slot⟩) s.backlog.toList
  before : ∀ slot s, shared.fanout.slot? slot = some s →
    (G.before ⟨i, slot⟩).Sublist shared.hooks

structure Cell.Sound (G : Ledger) (i : Nat) (cell : Cell) : Prop where
  holders : cell.holders = G.holders i
  held : 0 < cell.holders
  below : G.Below (G.rank (.cell i)) cell.assets
  snapshot : ∃ c : Twins.Collection, left c = cell.collection ∧
    right c = (G.snapshot i).collection ∧ Twins.Fits G (parts c)

structure Sound (G : Ledger) (st : Store) (own : Assets) : Prop where
  fanouts : G.fanouts = st.fanouts.size
  cells : G.cells = st.cells.size
  branches : ∀ p, (st.assets + own).count (.branch p) = (G.live p).toNat
  holdings : ∀ i, (st.assets + own).count (.cell i) = G.holders i
  shared : ∀ (i : Nat) (shared : Shared), st.fanouts[i]? = some (.held shared) →
    shared.Sound G i ∧ ¬ shared.fanout.isDeserted = true
  cell : ∀ (i : Nat) (cell : Cell), st.cells[i]? = some (.held cell) → cell.Sound G i
  lentFanout : ∀ i, G.lent (.fanout i) = true ↔ st.fanouts[i]? = some .lent
  lentCell : ∀ i, G.lent (.cell i) = true ↔ st.cells[i]? = some .lent
  present : ∀ p, G.live p = true → st.fanouts[p.fanout]? = some .lent ∨
    ∃ shared : Shared, st.fanouts[p.fanout]? = some (.held shared)
  occupied : ∀ i, 0 < G.holders i → st.cells[i]? = some .lent ∨
    ∃ cell : Cell, st.cells[i]? = some (.held cell)
  book : G.book = (waitingIn (st.assets + own), closedIn st.log)

theorem Backlogged.mono {G G' : Ledger} {done : Bool} {Z : Lone.Source}
    {stream : Option Lone.Source} {items : List Linked.Item}
    (h : Backlogged G done Z stream items) (hA : G.Agrees G' (Source.itemAssets items)) :
    Backlogged G' done Z stream items := by
  obtain ⟨xs, rfl, hfits, hleads⟩ := h
  exact ⟨xs, rfl, hfits.mono (by rwa [ownedBy_items]), hleads⟩

theorem Shared.source_assets_le (shared : Shared) (i : Nat) :
    shared.source.assets ≤ shared.assets i := by
  rw [assets, add_assoc]
  exact Multiset.le_add_right _ _

theorem Shared.slot_assets_le {shared : Shared} {i slot : Nat} {s : Slot Linked.Item}
    (h : shared.fanout.slot? slot = some s) :
    Source.itemAssets s.backlog.toList ≤ shared.assets i := by
  have hb := shared.fanout.assets_leave slot
  rw [Fanout.backlog_eq h] at hb
  have : shared.assets i = Source.itemAssets s.backlog.toList +
      (shared.source.assets + (shared.fanout.leave slot).assets +
        {.hooks (.fanout i) shared.hooks}) := by
    rw [assets, hb]
    abel
  rw [this]
  exact Multiset.le_add_right _ _

theorem Shared.Sound.mono {G G' : Ledger} {i : Nat} {shared : Shared} (h : shared.Sound G i)
    (hA : G.Agrees G' (shared.assets i)) (hlive : ∀ slot, G'.live ⟨i, slot⟩ = G.live ⟨i, slot⟩)
    (hstream : ∀ slot, G'.stream ⟨i, slot⟩ = G.stream ⟨i, slot⟩)
    (hbefore : ∀ slot, G'.before ⟨i, slot⟩ = G.before ⟨i, slot⟩)
    (hbelow : G'.Below (G'.rank (.fanout i)) (shared.assets i)) : shared.Sound G' i where
  live slot := (hlive slot).trans (h.live slot)
  below := hbelow
  streams := by
    obtain ⟨source, hsource, hfits, hslots⟩ := h.streams
    refine ⟨source, hsource, hfits.mono ?_, fun slot s hs => ?_⟩
    · rw [ownedBy_source, hsource]
      exact hA.sub (shared.source_assets_le i)
    · rw [hstream]
      exact (hslots slot s hs).mono (hA.sub (Shared.slot_assets_le hs))
  before slot s hs := by
    rw [hbefore]
    exact h.before slot s hs

theorem Cell.Sound.mono {G G' : Ledger} {i : Nat} {cell : Cell} (h : cell.Sound G i)
    (hA : G.Agrees G' cell.assets) (hholders : G'.holders i = G.holders i)
    (hsnapshot : G'.snapshot i = G.snapshot i)
    (hbelow : G'.Below (G'.rank (.cell i)) cell.assets) : cell.Sound G' i where
  holders := h.holders.trans hholders.symm
  held := h.held
  below := hbelow
  snapshot := by
    obtain ⟨c, hc, hsnap, hfits⟩ := h.snapshot
    refine ⟨c, hc, hsnap.trans (congrArg Snapshot.collection hsnapshot.symm), hfits.mono ?_⟩
    rw [parts_collection, ownedBy_value, show left c.toValue = cell.collection.toValue by
      rw [← hc]; cases c <;> rfl]
    exact hA

namespace Ledger

variable (G : Ledger)

def setLent (x : Spot) (lent : Bool) : Ledger :=
  { G with lent := Function.update G.lent x lent }

theorem lent_setLent (x y : Spot) (lent : Bool) :
    (G.setLent x lent).lent y = if y = x then lent else G.lent y := Function.update_apply ..

theorem agrees_setLent (x : Spot) (lent : Bool) (A : Assets) : G.Agrees (G.setLent x lent) A :=
  ⟨fun _ _ => rfl, fun _ _ => rfl, rfl, fun _ _ => rfl⟩

def openFanout (r : ℚ) : Ledger :=
  { G with
    fanouts := G.fanouts + 1
    rank := Function.update G.rank (.fanout G.fanouts) r
    lent := Function.update G.lent (.fanout G.fanouts) true }

theorem agrees_openFanout (r : ℚ) (A : Assets) : G.Agrees (G.openFanout r) A :=
  ⟨fun _ _ => rfl, fun _ _ => rfl, rfl, fun _ _ => rfl⟩

def openCell (r : ℚ) : Ledger :=
  { G with
    cells := G.cells + 1
    rank := Function.update G.rank (.cell G.cells) r
    lent := Function.update G.lent (.cell G.cells) true }

theorem agrees_openCell (r : ℚ) (A : Assets) : G.Agrees (G.openCell r) A :=
  ⟨fun _ _ => rfl, fun _ _ => rfl, rfl, fun _ _ => rfl⟩

variable {G} in
theorem Below.update {r q : ℚ} {A : Assets} {x : Spot} (h : G.Below r A) (hx : ¬ G.Knows x)
    (hA : ∀ a ∈ A, ∀ y, a.spot? = some y → G.Knows y) :
    ∀ a ∈ A, ∀ y, a.spot? = some y → Function.update G.rank x q y < r := by
  intro a ha y hy
  have hne : y ≠ x := by
    rintro rfl
    exact hx (hA a ha y hy)
  rw [Function.update_of_ne hne]
  exact h a ha y hy

/-- Only what belongs to the place `x` is told anew, and nothing that is owned in `F`. -/
structure Amends (x : Spot) (F : Assets) (G G' : Ledger) : Prop where
  stream : ∀ p, (.fanout p.fanout ≠ x ∨ .branch p ∈ F) → G'.stream p = G.stream p
  before : ∀ p, (.fanout p.fanout ≠ x ∨ .branch p ∈ F) → G'.before p = G.before p
  tracked : G'.tracked = G.tracked
  snapshot : ∀ i, (.cell i ≠ x ∨ .cell i ∈ F) → G'.snapshot i = G.snapshot i
  live : ∀ p, .fanout p.fanout ≠ x → G'.live p = G.live p
  holders : ∀ i, .cell i ≠ x → G'.holders i = G.holders i
  rank : G'.rank = G.rank
  lent : G'.lent = G.lent
  fanouts : G'.fanouts = G.fanouts
  cells : G'.cells = G.cells
  book : Book.Turns G.book G'.book

theorem Amends.agrees {x : Spot} {F : Assets} {G G' : Ledger} (h : G.Amends x F G') :
    G.Agrees G' F :=
  ⟨fun p hp => h.stream p (.inr hp), fun p hp => h.before p (.inr hp), h.tracked,
    fun i hi => h.snapshot i (.inr hi)⟩

end Ledger

namespace Store

def openFanout : Store → Store
  | ⟨fanouts, cells, log⟩ => ⟨fanouts.push .lent, cells, log⟩

def openCell : Store → Store
  | ⟨fanouts, cells, log⟩ => ⟨fanouts, cells.push .lent, log⟩

theorem setFanout_openFanout (st : Store) (shared : Shared) :
    st.openFanout.setFanout st.fanouts.size (.held shared) = (st.addFanout shared).2 := by
  simp only [openFanout, setFanout, addFanout, setIfInBounds_push]

theorem setCell_openCell (st : Store) (cell : Cell) :
    st.openCell.setCell st.cells.size (.held cell) = (st.addCell cell).2 := by
  simp only [openCell, setCell, addCell, setIfInBounds_push]

@[simp]
theorem assets_openFanout (st : Store) : st.openFanout.assets = st.assets := by
  simp [assets, openFanout, assetsAt_push]

@[simp]
theorem assets_openCell (st : Store) : st.openCell.assets = st.assets := by
  simp [assets, openCell, assetsAt_push]

end Store

namespace Sound

variable {G G' : Ledger} {st : Store} {own own' : Assets} {i : Nat}

theorem of_eq (h : Sound G st own) (hown : own = own') : Sound G st own' := hown ▸ h

theorem knowsFanout (h : Sound G st own) {place : Place Shared} (hi : st.fanouts[i]? = some place) :
    G.Knows (.fanout i) := by
  have := Store.lt_of_getElem? hi
  rwa [← h.fanouts] at this

theorem knowsCell (h : Sound G st own) {place : Place Cell} (hi : st.cells[i]? = some place) :
    G.Knows (.cell i) := by
  have := (Array.getElem?_eq_some_iff.mp hi).1
  rwa [← h.cells] at this

theorem live_of_mem (h : Sound G st own) {p : Branch} (hp : .branch p ∈ st.assets + own) :
    G.live p = true := by
  have := Multiset.count_pos.mpr hp
  rw [h.branches] at this
  by_contra hl
  rw [Bool.eq_false_of_not_eq_true hl] at this
  exact absurd this (Nat.lt_irrefl 0)

theorem holders_of_mem (h : Sound G st own) (hi : .cell i ∈ st.assets + own) :
    0 < G.holders i := by
  rw [← h.holdings]
  exact Multiset.count_pos.mpr hi

theorem knows (h : Sound G st own) {a : Asset} (ha : a ∈ st.assets + own) {x : Spot}
    (hx : a.spot? = some x) : G.Knows x := by
  cases a with
  | branch p =>
    obtain rfl := Option.some.inj hx
    obtain hp | ⟨shared, hp⟩ := h.present p (h.live_of_mem ha)
    · exact h.knowsFanout hp
    · exact h.knowsFanout hp
  | cell i =>
    obtain rfl := Option.some.inj hx
    obtain hi | ⟨cell, hi⟩ := h.occupied i (h.holders_of_mem ha)
    · exact h.knowsCell hi
    · exact h.knowsCell hi
  | hooks labels => cases hx

theorem knows_lent (h : Sound G st own) {x : Spot} (hx : G.lent x = true) : G.Knows x := by
  cases x with
  | fanout i => exact h.knowsFanout ((h.lentFanout i).mp hx)
  | cell i => exact h.knowsCell ((h.lentCell i).mp hx)

theorem not_mem_assets (h : Sound G st own) {p : Branch} (hp : .branch p ∈ own) :
    .branch p ∉ st.assets := by
  intro hst
  have hown := Multiset.count_pos.mpr hp
  have hcount := h.branches p
  rw [Multiset.count_add] at hcount
  have := Multiset.count_pos.mpr hst
  have := Bool.toNat_le (G.live p)
  omega

theorem mem_of_held {shared : Shared}
    (hi : st.fanouts[i]? = some (.held shared)) {a : Asset} (ha : a ∈ shared.assets i) :
    a ∈ st.assets + own := by
  rw [Store.assets_lendFanout hi]
  simp only [Multiset.mem_add]
  exact .inl (.inr ha)

theorem mem_of_heldCell {cell : Cell}
    (hi : st.cells[i]? = some (.held cell)) {a : Asset} (ha : a ∈ cell.assets) :
    a ∈ st.assets + own := by
  rw [Store.assets_lendCell hi]
  simp only [Multiset.mem_add]
  exact .inl (.inr ha)

theorem setFanout (h : Sound G st own) {p q : Place Shared} (hi : st.fanouts[i]? = some q)
    (hassets : (st.setFanout i p).assets + own' = st.assets + own)
    (hheld : ∀ shared, p = .held shared → shared.Sound G i ∧ ¬ shared.fanout.isDeserted = true)
    (hvacant : p = .vacant → ∀ slot, G.live ⟨i, slot⟩ = false) {lent : Bool}
    (hlent : lent = true ↔ p = .lent) :
    Sound (G.setLent (.fanout i) lent) (st.setFanout i p) own' := by
  have hself : (st.setFanout i p).fanouts[i]? = some p := by
    rw [Store.getElem?_setFanout, if_pos rfl, if_pos (Store.lt_of_getElem? hi)]
  have hother {j : Nat} (hj : j ≠ i) : (st.setFanout i p).fanouts[j]? = st.fanouts[j]? := by
    rw [Store.getElem?_setFanout, if_neg (Ne.symm hj)]
  refine
    { fanouts := h.fanouts.trans (by simp [Store.setFanout])
      cells := h.cells
      branches := fun p => by rw [hassets]; exact h.branches p
      holdings := fun j => by rw [hassets]; exact h.holdings j
      shared := fun j sh hj => ?_
      cell := fun j c hj => ?_
      lentFanout := fun j => ?_
      lentCell := fun j => ?_
      present := fun b hb => ?_
      occupied := h.occupied
      book := by rw [hassets]; exact h.book }
  · have hsound : sh.Sound G j ∧ ¬ sh.fanout.isDeserted = true := by
      by_cases hji : j = i
      · subst hji
        exact hheld sh (Option.some.inj (hself.symm.trans hj))
      · exact h.shared j sh ((hother hji).symm.trans hj)
    exact ⟨hsound.1.mono (G.agrees_setLent _ _ _) (fun _ => rfl) (fun _ => rfl) (fun _ => rfl)
      hsound.1.below,
      hsound.2⟩
  · have hs := h.cell j c hj
    exact hs.mono (G.agrees_setLent _ _ _) rfl rfl hs.below
  · rw [G.lent_setLent]
    by_cases hji : j = i
    · subst hji
      rw [if_pos rfl, hself, hlent, Option.some.injEq]
    · rw [if_neg (by simpa using hji), hother hji]
      exact h.lentFanout j
  · rw [G.lent_setLent, if_neg (by simp)]
    exact h.lentCell j
  · by_cases hbi : b.fanout = i
    · subst hbi
      rw [hself]
      cases p with
      | vacant => exact absurd (hb.symm.trans (hvacant rfl b.slot)) (by simp)
      | lent => exact .inl rfl
      | held shared => exact .inr ⟨shared, rfl⟩
    · rw [hother hbi]
      exact h.present b hb

theorem setCell (h : Sound G st own) {p q : Place Cell} (hi : st.cells[i]? = some q)
    (hassets : (st.setCell i p).assets + own' = st.assets + own)
    (hheld : ∀ cell, p = .held cell → cell.Sound G i)
    (hvacant : p = .vacant → G.holders i = 0) {lent : Bool} (hlent : lent = true ↔ p = .lent) :
    Sound (G.setLent (.cell i) lent) (st.setCell i p) own' := by
  have hself : (st.setCell i p).cells[i]? = some p := by
    rw [Store.getElem?_setCell, if_pos rfl, if_pos (Array.getElem?_eq_some_iff.mp hi).1]
  have hother {j : Nat} (hj : j ≠ i) : (st.setCell i p).cells[j]? = st.cells[j]? := by
    rw [Store.getElem?_setCell, if_neg (Ne.symm hj)]
  refine
    { fanouts := h.fanouts
      cells := h.cells.trans (by simp [Store.setCell])
      branches := fun p => by rw [hassets]; exact h.branches p
      holdings := fun j => by rw [hassets]; exact h.holdings j
      shared := fun j sh hj => ?_
      cell := fun j c hj => ?_
      lentFanout := fun j => ?_
      lentCell := fun j => ?_
      present := h.present
      occupied := fun j hj => ?_
      book := by rw [hassets]; exact h.book }
  · have hs := h.shared j sh hj
    exact ⟨hs.1.mono (G.agrees_setLent _ _ _) (fun _ => rfl) (fun _ => rfl) (fun _ => rfl)
      hs.1.below, hs.2⟩
  · have hsound : c.Sound G j := by
      by_cases hji : j = i
      · subst hji
        exact hheld c (Option.some.inj (hself.symm.trans hj))
      · exact h.cell j c ((hother hji).symm.trans hj)
    exact hsound.mono (G.agrees_setLent _ _ _) rfl rfl hsound.below
  · rw [G.lent_setLent, if_neg (by simp)]
    exact h.lentFanout j
  · rw [G.lent_setLent]
    by_cases hji : j = i
    · subst hji
      rw [if_pos rfl, hself, hlent, Option.some.injEq]
    · rw [if_neg (by simpa using hji), hother hji]
      exact h.lentCell j
  · by_cases hji : j = i
    · subst hji
      rw [hself]
      cases p with
      | vacant => exact absurd (hvacant rfl) (Nat.pos_iff_ne_zero.mp hj)
      | lent => exact .inl rfl
      | held cell => exact .inr ⟨cell, rfl⟩
    · rw [hother hji]
      exact h.occupied j hj

theorem lendFanout (h : Sound G st own) {shared : Shared}
    (hi : st.fanouts[i]? = some (.held shared)) :
    Sound (G.setLent (.fanout i) true) (st.setFanout i .lent) (shared.assets i + own) :=
  h.setFanout hi (by rw [Store.assets_lendFanout hi, add_assoc]) (by simp) (by simp) (by simp)

theorem returnFanout {shared : Shared} (h : Sound G st (shared.assets i + own))
    (hi : st.fanouts[i]? = some .lent) (hshared : shared.Sound G i)
    (hd : ¬ shared.fanout.isDeserted = true) :
    Sound (G.setLent (.fanout i) false) (st.setFanout i (.held shared)) own :=
  h.setFanout hi (by rw [Store.assets_setFanout hi, add_assoc]; rfl)
    (by rintro _ ⟨⟩; exact ⟨hshared, hd⟩) (by simp) (by simp)

theorem vacateFanout (h : Sound G st own) (hi : st.fanouts[i]? = some .lent)
    (hlive : ∀ slot, G.live ⟨i, slot⟩ = false) :
    Sound (G.setLent (.fanout i) false) (st.setFanout i .vacant) own :=
  h.setFanout hi (by rw [Store.assets_setFanout hi]; simp) (by simp) (fun _ => hlive) (by simp)

theorem lendCell (h : Sound G st own) {cell : Cell} (hi : st.cells[i]? = some (.held cell)) :
    Sound (G.setLent (.cell i) true) (st.setCell i .lent) (cell.assets + own) :=
  h.setCell hi (by rw [Store.assets_lendCell hi, add_assoc]) (by simp) (by simp) (by simp)

theorem returnCell {cell : Cell} (h : Sound G st (cell.assets + own))
    (hi : st.cells[i]? = some .lent) (hcell : cell.Sound G i) :
    Sound (G.setLent (.cell i) false) (st.setCell i (.held cell)) own :=
  h.setCell hi (by rw [Store.assets_setCell hi, add_assoc]; rfl) (by rintro _ ⟨⟩; exact hcell)
    (by simp) (by simp)

theorem vacateCell (h : Sound G st own) (hi : st.cells[i]? = some .lent)
    (hholders : G.holders i = 0) :
    Sound (G.setLent (.cell i) false) (st.setCell i .vacant) own :=
  h.setCell hi (by rw [Store.assets_setCell hi]; simp) (by simp) (fun _ => hholders) (by simp)

theorem not_live_fresh (h : Sound G st own) (slot : Nat) : G.live ⟨G.fanouts, slot⟩ = false := by
  by_contra hl
  have hnone : st.fanouts[G.fanouts]? = none := by simp [h.fanouts]
  obtain hp | ⟨shared, hp⟩ := h.present ⟨G.fanouts, slot⟩ (by simpa using hl)
  · rw [hnone] at hp
    cases hp
  · rw [hnone] at hp
    cases hp

theorem no_holders_fresh (h : Sound G st own) : G.holders G.cells = 0 := by
  by_contra hl
  have hnone : st.cells[G.cells]? = none := by simp [h.cells]
  obtain hp | ⟨cell, hp⟩ := h.occupied G.cells (Nat.pos_of_ne_zero hl)
  · rw [hnone] at hp
    cases hp
  · rw [hnone] at hp
    cases hp

theorem openFanout (h : Sound G st own) (r : ℚ) : Sound (G.openFanout r) st.openFanout own := by
  have hnew : ¬ G.Knows (.fanout G.fanouts) := fun hk => Nat.lt_irrefl _ hk
  have hget (j : Nat) : st.openFanout.fanouts[j]? =
      if j = G.fanouts then some .lent else st.fanouts[j]? := by
    rw [Store.openFanout, Array.getElem?_push, h.fanouts]
  refine
    { fanouts := by simp [Ledger.openFanout, Store.openFanout, h.fanouts]
      cells := h.cells
      branches := fun p => by rw [Store.assets_openFanout]; exact h.branches p
      holdings := fun j => by rw [Store.assets_openFanout]; exact h.holdings j
      shared := fun j sh hj => ?_
      cell := fun j c hj => ?_
      lentFanout := fun j => ?_
      lentCell := fun j => ?_
      present := fun b hb => ?_
      occupied := h.occupied
      book := by rw [Store.assets_openFanout]; exact h.book }
  · rw [hget] at hj
    split at hj
    · cases hj
    · obtain ⟨hs, hd⟩ := h.shared j sh hj
      refine ⟨hs.mono (G.agrees_openFanout r _) (fun _ => rfl) (fun _ => rfl) (fun _ => rfl) ?_, hd⟩
      have hne : (Spot.fanout j) ≠ .fanout G.fanouts := by simpa
      change ∀ a ∈ _, ∀ y, _ → Function.update G.rank _ r y < Function.update G.rank _ r _
      rw [Function.update_of_ne hne]
      exact hs.below.update hnew fun a ha y => h.knows (mem_of_held hj ha)
  · have hs := h.cell j c hj
    refine hs.mono (G.agrees_openFanout r _) rfl rfl ?_
    change ∀ a ∈ _, ∀ y, _ → Function.update G.rank _ r y < Function.update G.rank _ r _
    rw [Function.update_of_ne (by simp)]
    exact hs.below.update hnew fun a ha y => h.knows (mem_of_heldCell (show st.cells[j]? = _ from hj) ha)
  · rw [hget, Ledger.openFanout]
    dsimp only
    rw [Function.update_apply]
    by_cases hj : j = G.fanouts
    · subst hj
      simp
    · rw [if_neg (by simpa using hj), if_neg hj]
      exact h.lentFanout j
  · rw [Ledger.openFanout]
    dsimp only
    rw [Function.update_of_ne (by simp)]
    exact h.lentCell j
  · rw [hget]
    split
    · exact .inl rfl
    · exact h.present b hb

theorem openCell (h : Sound G st own) (r : ℚ) : Sound (G.openCell r) st.openCell own := by
  have hnew : ¬ G.Knows (.cell G.cells) := fun hk => Nat.lt_irrefl _ hk
  have hget (j : Nat) : st.openCell.cells[j]? =
      if j = G.cells then some .lent else st.cells[j]? := by
    rw [Store.openCell, Array.getElem?_push, h.cells]
  refine
    { fanouts := h.fanouts
      cells := by simp [Ledger.openCell, Store.openCell, h.cells]
      branches := fun p => by rw [Store.assets_openCell]; exact h.branches p
      holdings := fun j => by rw [Store.assets_openCell]; exact h.holdings j
      shared := fun j sh hj => ?_
      cell := fun j c hj => ?_
      lentFanout := fun j => ?_
      lentCell := fun j => ?_
      present := h.present
      occupied := fun j hj => ?_
      book := by rw [Store.assets_openCell]; exact h.book }
  · obtain ⟨hs, hd⟩ := h.shared j sh hj
    refine ⟨hs.mono (G.agrees_openCell r _) (fun _ => rfl) (fun _ => rfl) (fun _ => rfl) ?_, hd⟩
    change ∀ a ∈ _, ∀ y, _ → Function.update G.rank _ r y < Function.update G.rank _ r _
    rw [Function.update_of_ne (by simp)]
    exact hs.below.update hnew fun a ha y => h.knows (mem_of_held (show st.fanouts[j]? = _ from hj) ha)
  · rw [hget] at hj
    split at hj
    · cases hj
    · have hs := h.cell j c hj
      refine hs.mono (G.agrees_openCell r _) rfl rfl ?_
      have hne : (Spot.cell j) ≠ .cell G.cells := by simpa
      change ∀ a ∈ _, ∀ y, _ → Function.update G.rank _ r y < Function.update G.rank _ r _
      rw [Function.update_of_ne hne]
      exact hs.below.update hnew fun a ha y => h.knows (mem_of_heldCell hj ha)
  · rw [Ledger.openCell]
    dsimp only
    rw [Function.update_of_ne (by simp)]
    exact h.lentFanout j
  · rw [hget, Ledger.openCell]
    dsimp only
    rw [Function.update_apply]
    by_cases hj : j = G.cells
    · subst hj
      simp
    · rw [if_neg (by simpa using hj), if_neg hj]
      exact h.lentCell j
  · rw [hget]
    split
    · exact .inl rfl
    · exact h.occupied j hj

theorem amend (h : Sound G st own) {x : Spot} (hx : G.lent x = true)
    (hG : G.Amends x st.assets G')
    (hbranches : ∀ p, (st.assets + own').count (.branch p) = (G'.live p).toNat)
    (hholdings : ∀ i, (st.assets + own').count (.cell i) = G'.holders i)
    (hbook : G'.book = (waitingIn (st.assets + own'), closedIn st.log)) : Sound G' st own' := by
  have hagree {A : Assets} (hA : ∀ a ∈ A, a ∈ st.assets) : G.Agrees G' A := hG.agrees.subset hA
  refine
    { fanouts := hG.fanouts.trans h.fanouts
      cells := hG.cells.trans h.cells
      branches := hbranches
      holdings := hholdings
      shared := fun j sh hj => ?_
      cell := fun j c hj => ?_
      lentFanout := fun j => by rw [hG.lent]; exact h.lentFanout j
      lentCell := fun j => by rw [hG.lent]; exact h.lentCell j
      present := fun b hb => ?_
      occupied := fun j hj => ?_
      book := hbook }
  · obtain ⟨hs, hd⟩ := h.shared j sh hj
    have hne : Spot.fanout j ≠ x := by
      rintro rfl
      rw [(h.lentFanout j).mp hx] at hj
      cases hj
    refine ⟨hs.mono (hagree fun a ha => ?_) (fun slot => hG.live _ hne)
      (fun slot => hG.stream _ (.inl hne)) (fun slot => hG.before _ (.inl hne)) ?_, hd⟩
    · exact Store.mem_assets.mpr (.inl ⟨j, sh, hj, ha⟩)
    · rw [hG.rank]
      exact fun a ha y hy => by rw [hG.rank]; exact hs.below a ha y hy
  · have hs := h.cell j c hj
    have hne : Spot.cell j ≠ x := by
      rintro rfl
      rw [(h.lentCell j).mp hx] at hj
      cases hj
    refine hs.mono (hagree fun a ha => ?_) (hG.holders _ hne) (hG.snapshot _ (.inl hne)) ?_
    · exact Store.mem_assets.mpr (.inr ⟨j, c, hj, ha⟩)
    · rw [hG.rank]
      exact fun a ha y hy => by rw [hG.rank]; exact hs.below a ha y hy
  · by_cases hb' : Spot.fanout b.fanout = x
    · subst hb'
      exact .inl ((h.lentFanout _).mp hx)
    · rw [hG.live b hb'] at hb
      exact h.present b hb
  · by_cases hj' : Spot.cell j = x
    · subst hj'
      exact .inl ((h.lentCell _).mp hx)
    · rw [hG.holders j hj'] at hj
      exact h.occupied j hj

end Sound

end LazyCalc
