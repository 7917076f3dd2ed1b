import LazyCalc.Engine.Pull
import LazyCalc.Proofs.Sharing.Releasing
namespace LazyCalc

variable {G : Ledger} {st : Store} {F : Assets} {r : ℚ}

theorem Ready.note {A : Twins.Parts} (h : Ready G st A F r) (events : List Event)
    (hevents : events.filterMap Event.label? = []) : Ready G (st.record events) A F r where
  sound := h.sound.record hevents
  fits := h.fits
  below := h.below
  guards := h.guards

theorem parts_collection_assets (c : Twins.Collection) :
    ownedBy (parts c) = (left c).toValue.assets := by
  rw [parts_collection, ownedBy_value]
  cases c <;> rfl

theorem Ready.keep {c : Twins.Collection} (h : Ready G st (parts c) F r) :
    ∃ st', Engine.keep (left c) st = .ok (st.cells.size, st') ∧
      Reaches G F r (parts (⟨st.cells.size, .of (right c)⟩ : Twins.Cell)) st' := by
  refine ⟨(st.addCell ⟨left c, 1⟩).2, rfl, ?_⟩
  have hsound := h.sound
  obtain ⟨q, hq, hbelow⟩ := h.below.between
  have hnew : ¬ G.Knows (.cell G.cells) := fun hk => Nat.lt_irrefl _ hk
  have hlent : G.lent (.cell G.cells) = false :=
    Bool.eq_false_of_not_eq_true fun hl => hnew (hsound.knows_lent hl)
  have hopen := hsound.openCell q
  have hlent' : (G.openCell q).lent (.cell G.cells) = true := Function.update_self ..
  have hkept := hopen.keep hlent' hsound.no_holders_fresh (.of (right c))
  have hfresh : .cell G.cells ∉ ownedBy (parts c) + F := by
    intro hmem
    have := hsound.holders_of_mem (Multiset.mem_add.mpr (.inr hmem))
    rw [hsound.no_holders_fresh] at this
    exact Nat.lt_irrefl 0 this
  have hG : (G.openCell q).Amends (.cell G.cells) (ownedBy (parts c) + F)
      ((G.openCell q).keep G.cells (.of (right c)) 1) := .keep _ _ hfresh
  have hrank : ((G.openCell q).keep G.cells (.of (right c)) 1).rank =
    Function.update G.rank (.cell G.cells) q := rfl
  have hend : Evolves F G (((G.openCell q).keep G.cells (.of (right c)) 1).setLent
      (.cell G.cells) false) := .openingCell hlent (hG.sub (Multiset.le_add_left _ _))
  have hcell : Cell.Sound ((G.openCell q).keep G.cells (.of (right c)) 1) G.cells ⟨left c, 1⟩ := by
    refine { holders := ?_, held := Nat.one_pos, below := ?_, snapshot := ⟨c, rfl, ?_, ?_⟩ }
    · change 1 = Function.update G.holders G.cells 1 G.cells
      rw [Function.update_self]
    · have hassets : Cell.assets ⟨left c, 1⟩ = ownedBy (parts c) := (parts_collection_assets c).symm
      rw [Ledger.Below, hrank, Function.update_self, hassets]
      exact hbelow.update hnew fun a ha x hx =>
        hsound.knows (Multiset.mem_add.mpr (.inr (Multiset.mem_add.mpr (.inl ha)))) hx
    · change right c = (Function.update G.snapshot G.cells (.of (right c)) G.cells).collection
      rw [Function.update_self]
      rfl
    · exact h.fits.mono ((G.agrees_openCell q _).trans
        (hG.agrees.sub (Multiset.le_add_right _ _)))
  have hplace : st.openCell.cells[G.cells]? = some .lent := (hopen.lentCell _).mp hlent'
  refine ⟨_, ⟨?_, ?_, ?_, ?_⟩, hend⟩
  · rw [← Store.setCell_openCell, ← hsound.cells]
    refine (hkept.of_eq ?_).returnCell hplace hcell
    rw [ownedBy_cell, parts_collection_assets, add_left_comm]
    rfl
  · rw [Twins.fits_cell, ← hsound.cells]
    exact Function.update_self ..
  · intro a ha x hx
    rw [ownedBy_cell, Multiset.mem_singleton] at ha
    subst ha
    obtain rfl := Option.some.inj hx
    change Function.update G.rank (.cell G.cells) q (.cell st.cells.size) < r
    rwa [← hsound.cells, Function.update_self]
  · exact hend.guards (fun x => hsound.knows_lent) h.guards

theorem Ready.dismiss {k : Twins.Cell} (h : Ready G st (parts k) F r) :
    ∃ st', Engine.dismiss k.left st = .ok ((), st') ∧ Reaches G F r 0 st' := by
  refine h.released [.cell k.left] ?_ ?_
  · simp [Debris.Loose]
  · rw [ownedBy_cell]
    rfl

theorem Ready.held {k : Twins.Cell} (h : Ready G st (parts k) F r) :
    ∃ cell, st.cells[k.left]? = some (.held cell) ∧ cell.Sound G k.left ∧
      G.rank (.cell k.left) < r ∧ G.lent (.cell k.left) = false := by
  have hmem : .cell k.left ∈ ownedBy (parts k) := by
    rw [ownedBy_cell]
    exact Multiset.mem_singleton_self _
  have hrank : G.rank (.cell k.left) < r := h.below _ hmem _ rfl
  have hlent := h.guards.not_lent hrank
  obtain ⟨cell, hi⟩ := h.sound.cell_held_of_mem
    (Multiset.mem_add.mpr (.inr (Multiset.mem_add.mpr (.inl hmem)))) hlent
  exact ⟨cell, hi, h.sound.cell _ _ hi, hrank, hlent⟩

theorem Ready.retain {k : Twins.Cell} (h : Ready G st (parts k) F r) :
    ∃ st', Engine.retain k.left st = .ok ((), st') ∧ Reaches G F r (parts k + parts k) st' := by
  obtain ⟨cell, hi, hcell, hrank, hlent⟩ := h.held
  refine ⟨(st.setCell k.left .lent).setCell k.left (.held { cell with holders := cell.holders + 1 }),
    (Engine.bind_eq (Engine.lendCell_eq hi)).trans rfl, ?_⟩
  have hself : (G.setLent (.cell k.left) true).lent (.cell k.left) = true := Function.update_self ..
  have hlend := h.sound.lendCell hi
  have hplace : (st.setCell k.left .lent).cells[k.left]? = some .lent := (hlend.lentCell _).mp hself
  have hretain := hlend.retain hself
  have hend : Evolves F G _ := .lending hlent (.refl F _) (.count k.left
    ((G.setLent (.cell k.left) true).holders k.left + 1))
  refine ⟨_, ⟨(hretain.of_eq ?_).returnCell hplace ?_, ?_, ?_, ?_⟩, hend⟩
  · rw [ownedBy_add, ownedBy_cell]
    simp only [Cell.assets]
    abel
  · refine { holders := ?_, held := Nat.succ_pos _, below := hcell.below, snapshot := ?_ }
    · change _ = Function.update G.holders k.left (G.holders k.left + 1) k.left
      rw [Function.update_self, ← hcell.holders]
    · obtain ⟨c, hc, hsnapshot, hfits⟩ := hcell.snapshot
      exact ⟨c, hc, hsnapshot, hfits.mono ⟨fun _ _ => rfl, fun _ _ => rfl, rfl, fun _ _ => rfl⟩⟩
  · exact Twins.fits_add.mpr ⟨h.fits.mono ⟨fun _ _ => rfl, fun _ _ => rfl, rfl, fun _ _ => rfl⟩,
      h.fits.mono ⟨fun _ _ => rfl, fun _ _ => rfl, rfl, fun _ _ => rfl⟩⟩
  · rw [ownedBy_add]
    exact Ledger.below_add.mpr ⟨h.below, h.below⟩
  · exact hend.guards (fun x => h.sound.knows_lent) h.guards

theorem serving_fork (s : Twins.Sequence) : (serving fun _ _ => True).Triple
    (Twins.Sequence × Twins.Sequence) (parts s) (fun _ => s.left.fork)
    (fun _ => some (s.right, s.right)) 0 := by
  intro n G st F r _ h
  obtain ⟨c, st', hfork, hright, G', h', hG⟩ := h.fork
  exact ⟨c, st', hfork, congrArg some hright.symm, G', by simpa using h', hG, trivial⟩

theorem Ready.copyItem {x : Twins.Item} (h : Ready G st (parts x) F r) :
    ∃ (y z : Twins.Item) (st' : Store),
      Item.copyWith Sequence.fork (left x) st = .ok ((left y, left z), st') ∧
      right y = right x ∧ right z = right x ∧ Reaches G F r (parts y + parts z) st' := by
  obtain ⟨⟨y, z⟩, st', hcopy, hlone, G', h', hG, -⟩ := (serving fun _ _ => True).copyItem
    (f := fun _ => Sequence.fork) (g := fun _ s => some (s, s)) serving_fork x 0 G st F r trivial h
  replace hlone := (Item.copyWith_twice (fun _ => rfl) (right x)).symm.trans hlone
  obtain ⟨hy, hz⟩ := Prod.mk.inj (Option.some.inj hlone)
  exact ⟨y, z, st', hcopy, hy.symm, hz.symm, G', by simpa using h', hG⟩

theorem Ready.copyCollection {c : Twins.Collection} (h : Ready G st (parts c) F r) :
    ∃ (c₁ c₂ : Twins.Collection) (st' : Store),
      (left c).copyWith Sequence.fork st = .ok ((left c₁, left c₂), st') ∧
      right c₁ = right c ∧ right c₂ = right c ∧ Reaches G F r (parts c₁ + parts c₂) st' := by
  obtain ⟨⟨c₁, c₂⟩, st', hcopy, hlone, G', h', hG, -⟩ := (serving fun _ _ => True).copyCollection
    (f := fun _ => Sequence.fork) (g := fun _ s => some (s, s)) serving_fork c 0 G st F r trivial h
  replace hlone := (Collection.copyWith_twice (fun _ => rfl) (right c)).symm.trans hlone
  obtain ⟨h₁, h₂⟩ := Prod.mk.inj (Option.some.inj hlone)
  exact ⟨c₁, c₂, st', hcopy, h₁.symm, h₂.symm, G', by simpa using h', hG⟩

theorem Ready.read {k : Twins.Cell} (h : Ready G st (parts k) F r) :
    ∃ (c : Twins.Collection) (st' : Store), Engine.read k.left st = .ok (left c, st') ∧
      right c = k.right.collection ∧ Reaches G F r (parts c + parts k) st' := by
  obtain ⟨cell, hi, hcell, hrank, hlent⟩ := h.held
  obtain ⟨c, hc, hsnapshot, hfits⟩ := hcell.snapshot
  have hassets : ownedBy (parts c) = cell.assets := by
    rw [parts_collection_assets, hc]
    rfl
  have hself : (G.setLent (.cell k.left) true).lent (.cell k.left) = true := Function.update_self ..
  have hready : Ready (G.setLent (.cell k.left) true) (st.setCell k.left .lent) (parts c)
      (ownedBy (parts k) + F) (G.rank (.cell k.left)) :=
    { sound := (h.sound.lendCell hi).of_eq (by rw [hassets])
      fits := hfits.mono (G.agrees_setLent _ _ _)
      below := hassets ▸ hcell.below
      guards := h.guards.lend hrank.le }
  obtain ⟨c₁, c₂, st', hcopy, h₁, h₂, G', h', hG⟩ := hready.copyCollection
  rw [hc] at hcopy
  refine ⟨c₂, st'.setCell k.left (.held { cell with collection := left c₁ }), ?_, ?_, ?_⟩
  · refine (Engine.bind_eq (Engine.lendCell_eq hi)).trans ?_
    exact (Engine.bind_eq hcopy).trans rfl
  · rw [h₂, hsnapshot, Twins.fits_cell.mp h.fits]
  · have hend : Evolves F G (G'.setLent (.cell k.left) false) :=
      .lending hlent (hG.sub (Multiset.le_add_left _ _)) (.refl _ _ _)
    have hlent' : G'.lent (.cell k.left) = true := by rw [hG.lent, hself]
    have hrank' : G'.rank (.cell k.left) = G.rank (.cell k.left) :=
      hG.rank _ (h.sound.knowsCell hi)
    have hsnapshot' : G'.snapshot k.left = G.snapshot k.left := hG.snapshot _ (.inr hself)
    have hbelow := h'.below
    rw [ownedBy_add, Ledger.below_add] at hbelow
    refine ⟨_, ⟨((h'.sound.of_eq ?_).returnCell ((h'.sound.lentCell _).mp hlent') ?_),
      ?_, ?_, ?_⟩, hend⟩
    · rw [ownedBy_add, ownedBy_add, add_assoc, add_assoc, parts_collection_assets c₁]
      rfl
    · refine { holders := ?_, held := hcell.held, below := ?_, snapshot := ⟨c₁, rfl, ?_, ?_⟩ }
      · exact hcell.holders.trans (hG.holders _ hself).symm
      · rw [hrank', Cell.assets, ← parts_collection_assets]
        exact hbelow.1
      · rw [h₁, hsnapshot, hsnapshot']
      · exact (Twins.fits_add.mp h'.fits).1
    · refine Twins.fits_add.mpr ⟨(Twins.fits_add.mp h'.fits).2.mono ⟨fun _ _ => rfl, fun _ _ => rfl, rfl, fun _ _ => rfl⟩,
        Twins.fits_cell.mpr ?_⟩
      exact hsnapshot'.trans (Twins.fits_cell.mp h.fits)
    · rw [ownedBy_add, Ledger.below_add]
      refine ⟨hbelow.2.mono hrank.le, hend.below (fun a ha x hx => h.sound.knows ?_ hx) h.below⟩
      exact Multiset.mem_add.mpr (.inr (Multiset.mem_add.mpr (.inl ha)))
    · exact hend.guards (fun x => h.sound.knows_lent) h.guards

end LazyCalc
