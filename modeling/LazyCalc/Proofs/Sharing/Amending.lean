import LazyCalc.Proofs.Sharing.Ready
namespace LazyCalc

namespace Ledger

variable (G : Ledger)

/-- A new branch, which gives what `stream` says and comes from branches with the labels `before`. -/
def enrol (p : Branch) (stream : Option Lone.Source) (before : List String) : Ledger :=
  { G with
    live := Function.update G.live p true
    stream := Function.update G.stream p stream
    before := Function.update G.before p before }

def leave (p : Branch) : Ledger := { G with live := Function.update G.live p false }

def advance (p : Branch) (stream : Option Lone.Source) : Ledger :=
  { G with stream := Function.update G.stream p stream }

def hand (p : Branch) (before : List String) : Ledger :=
  { G with before := Function.update G.before p before }

def keep (i : Nat) (snapshot : Snapshot) (holders : Nat) : Ledger :=
  { G with
    snapshot := Function.update G.snapshot i snapshot
    holders := Function.update G.holders i holders }

def count (i : Nat) (holders : Nat) : Ledger :=
  { G with holders := Function.update G.holders i holders }

def turn (book : Book) : Ledger := { G with book }

theorem agrees_turn (book : Book) (A : Assets) : G.Agrees (G.turn book) A :=
  ⟨fun _ _ => rfl, fun _ _ => rfl, rfl, fun _ _ => rfl⟩

namespace Amends

variable {G} {G' G'' : Ledger} {x : Spot} {F : Assets}

theorem refl (x : Spot) (F : Assets) (G : Ledger) : Amends x F G G :=
  ⟨fun _ _ => rfl, fun _ _ => rfl, rfl, fun _ _ => rfl, fun _ _ => rfl, fun _ _ => rfl, rfl, rfl,
    rfl, rfl, .refl⟩

theorem trans (h : Amends x F G G') (h' : Amends x F G' G'') : Amends x F G G'' where
  stream p hp := (h'.stream p hp).trans (h.stream p hp)
  before p hp := (h'.before p hp).trans (h.before p hp)
  tracked := h'.tracked.trans h.tracked
  snapshot i hi := (h'.snapshot i hi).trans (h.snapshot i hi)
  live p hp := (h'.live p hp).trans (h.live p hp)
  holders i hi := (h'.holders i hi).trans (h.holders i hi)
  rank := h'.rank.trans h.rank
  lent := h'.lent.trans h.lent
  fanouts := h'.fanouts.trans h.fanouts
  cells := h'.cells.trans h.cells
  book := h.book.trans h'.book

theorem enrol {p : Branch} (stream : Option Lone.Source) (before : List String)
    (hp : .branch p ∉ F) : Amends (.fanout p.fanout) F G (G.enrol p stream before) := by
  have hne {q : Branch} (hq : .fanout q.fanout ≠ Spot.fanout p.fanout ∨ .branch q ∈ F) : q ≠ p := by
    rintro rfl
    exact hq.elim (fun h => h rfl) hp
  exact
    { refl (.fanout p.fanout) F G with
      stream := fun q hq => Function.update_of_ne (hne hq) _ _
      before := fun q hq => Function.update_of_ne (hne hq) _ _
      live := fun q hq => Function.update_of_ne (hne (.inl hq)) _ _ }

theorem leave (p : Branch) : Amends (.fanout p.fanout) F G (G.leave p) := by
  refine { refl (.fanout p.fanout) F G with live := fun q hq => Function.update_of_ne ?_ _ _ }
  rintro rfl
  exact hq rfl

theorem advance {p : Branch} (stream : Option Lone.Source) (hp : .branch p ∉ F) :
    Amends (.fanout p.fanout) F G (G.advance p stream) := by
  refine { refl (.fanout p.fanout) F G with stream := fun q hq => Function.update_of_ne ?_ _ _ }
  rintro rfl
  exact hq.elim (fun h => h rfl) hp

theorem hand {p : Branch} (before : List String) (hp : .branch p ∉ F) :
    Amends (.fanout p.fanout) F G (G.hand p before) := by
  refine { refl (.fanout p.fanout) F G with before := fun q hq => Function.update_of_ne ?_ _ _ }
  rintro rfl
  exact hq.elim (fun h => h rfl) hp

theorem keep {i : Nat} (snapshot : Snapshot) (holders : Nat) (hi : .cell i ∉ F) :
    Amends (.cell i) F G (G.keep i snapshot holders) := by
  have hne {j : Nat} (hj : .cell j ≠ Spot.cell i ∨ .cell j ∈ F) : j ≠ i := by
    rintro rfl
    exact hj.elim (fun h => h rfl) hi
  exact
    { refl (.cell i) F G with
      snapshot := fun j hj => Function.update_of_ne (hne hj) _ _
      holders := fun j hj => Function.update_of_ne (hne (.inl hj)) _ _ }

theorem count (i holders : Nat) : Amends (.cell i) F G (G.count i holders) := by
  refine { refl (.cell i) F G with holders := fun j hj => Function.update_of_ne ?_ _ _ }
  rintro rfl
  exact hj rfl

theorem turn (x : Spot) (F : Assets) {book : Book} (h : Book.Turns G.book book) :
    Amends x F G (G.turn book) :=
  { refl x F G with book := h }

theorem sub {F' : Assets} (h : Amends x F G G') (hF : F' ≤ F) : Amends x F' G G' :=
  { h with
    stream := fun p hp => h.stream p (hp.imp id (Multiset.mem_of_le hF))
    before := fun p hp => h.before p (hp.imp id (Multiset.mem_of_le hF))
    snapshot := fun i hi => h.snapshot i (hi.imp id (Multiset.mem_of_le hF)) }

end Amends

end Ledger

namespace Evolves

variable {F : Assets} {G G' G'' : Ledger} {x : Spot}

theorem lending (hx : G.lent x = false) (h : Evolves F (G.setLent x true) G')
    (h' : G'.Amends x F G'') : Evolves F G (G''.setLent x false) := by
  have hlent (y : Spot) (hy : G.lent y = true) : (G.setLent x true).lent y = true := by
    rw [G.lent_setLent]
    split <;> trivial
  have hne {y : Spot} (hy : G.lent y = true) : y ≠ x := by
    rintro rfl
    rw [hx] at hy
    cases hy
  refine ⟨fun p hp => ?_, fun p hp => ?_, h'.tracked.trans h.tracked, fun i hi => ?_,
    fun p hp => ?_, fun i hi => ?_, fun y hy => ?_, ?_, ?_, ?_, h.book.trans h'.book⟩
  · exact (h'.stream p (hp.symm.imp hne id)).trans (h.stream p (hp.imp id (hlent _)))
  · exact (h'.before p (hp.symm.imp hne id)).trans (h.before p (hp.imp id (hlent _)))
  · exact (h'.snapshot i (hi.symm.imp hne id)).trans (h.snapshot i (hi.imp id (hlent _)))
  · exact (h'.live p (hne hp)).trans (h.live p (hlent _ hp))
  · exact (h'.holders i (hne hi)).trans (h.holders i (hlent _ hi))
  · exact (congrFun h'.rank y).trans (h.rank y hy)
  · funext y
    rw [G''.lent_setLent, h'.lent, h.lent, G.lent_setLent]
    split
    · next hy => rw [hy, hx]
    · rfl
  · exact le_of_le_of_eq h.fanouts h'.fanouts.symm
  · exact le_of_le_of_eq h.cells h'.cells.symm

theorem opening {r : ℚ} (hlent : G.lent (.fanout G.fanouts) = false)
    (h' : (G.openFanout r).Amends (.fanout G.fanouts) F G') :
    Evolves F G (G'.setLent (.fanout G.fanouts) false) := by
  have hne {y : Spot} (hy : G.lent y = true) : y ≠ .fanout G.fanouts := by
    rintro rfl
    rw [hlent] at hy
    cases hy
  refine ⟨fun p hp => h'.stream p (hp.symm.imp hne id),
    fun p hp => h'.before p (hp.symm.imp hne id), h'.tracked,
    fun i hi => h'.snapshot i (.inl (by simp)),
    fun p hp => h'.live p (hne hp), fun i hi => h'.holders i (by simp), fun y hy => ?_, ?_, ?_, ?_,
    h'.book⟩
  · refine (congrFun h'.rank y).trans (Function.update_of_ne ?_ _ _)
    rintro rfl
    exact Nat.lt_irrefl _ hy
  · funext y
    rw [G'.lent_setLent, h'.lent]
    split
    · next hy => rw [hy, hlent]
    · next hy => exact Function.update_of_ne hy _ _
  · exact le_of_le_of_eq (Nat.le_succ _) h'.fanouts.symm
  · exact le_of_eq h'.cells.symm

theorem openingCell {r : ℚ} (hlent : G.lent (.cell G.cells) = false)
    (h' : (G.openCell r).Amends (.cell G.cells) F G') :
    Evolves F G (G'.setLent (.cell G.cells) false) := by
  have hne {y : Spot} (hy : G.lent y = true) : y ≠ .cell G.cells := by
    rintro rfl
    rw [hlent] at hy
    cases hy
  refine ⟨fun p hp => h'.stream p (.inl (by simp)), fun p hp => h'.before p (.inl (by simp)),
    h'.tracked, fun i hi => h'.snapshot i (hi.symm.imp hne id),
    fun p hp => h'.live p (by simp), fun i hi => h'.holders i (hne hi), fun y hy => ?_, ?_, ?_, ?_,
    h'.book⟩
  · refine (congrFun h'.rank y).trans (Function.update_of_ne ?_ _ _)
    rintro rfl
    exact Nat.lt_irrefl _ hy
  · funext y
    rw [G'.lent_setLent, h'.lent]
    split
    · next hy => rw [hy, hlent]
    · next hy => exact Function.update_of_ne hy _ _
  · exact le_of_eq h'.fanouts.symm
  · exact le_of_le_of_eq (Nat.le_succ _) h'.cells.symm

theorem turn (F : Assets) {book : Book} (h : Book.Turns G.book book) : Evolves F G (G.turn book) :=
  { refl F G with book := h }

end Evolves

namespace Sound

variable {G : Ledger} {st st' : Store} {own own' : Assets} {p : Branch} {i : Nat}

theorem enrol (h : Sound G st own) (hx : G.lent (.fanout p.fanout) = true)
    (hp : G.live p = false) (stream : Option Lone.Source) (before : List String) :
    Sound (G.enrol p stream before) st ({.branch p} + own) := by
  have hnot : .branch p ∉ st.assets + own := by
    intro hmem
    rw [h.live_of_mem hmem] at hp
    cases hp
  refine h.amend hx (.enrol stream before fun hmem => hnot (Multiset.mem_add.mpr (.inl hmem)))
    (fun q => ?_) (fun j => ?_) ?_
  · have hq := h.branches q
    simp only [Multiset.count_add, Multiset.count_singleton, Asset.branch.injEq] at hq ⊢
    rw [Ledger.enrol]
    dsimp only
    rw [Function.update_apply]
    by_cases hqp : q = p
    · subst hqp
      simp only [hp, if_true, Bool.toNat_false, Bool.toNat_true] at hq ⊢
      omega
    · simp only [if_neg hqp]
      omega
  · have hj := h.holdings j
    simpa [Multiset.count_singleton, Ledger.enrol] using hj
  · refine h.book.trans ?_
    simp only [waitingIn_add, waitingIn_branch, zero_add]

theorem leave (h : Sound G st ({.branch p} + own)) (hx : G.lent (.fanout p.fanout) = true) :
    Sound (G.leave p) st own := by
  refine h.amend hx (.leave p) (fun q => ?_) (fun j => ?_) ?_
  · have hq := h.branches q
    simp only [Multiset.count_add, Multiset.count_singleton, Asset.branch.injEq] at hq ⊢
    rw [Ledger.leave]
    dsimp only
    rw [Function.update_apply]
    by_cases hqp : q = p
    · subst hqp
      have := Bool.toNat_le (G.live q)
      simp only [if_true, Bool.toNat_false] at hq ⊢
      omega
    · simp only [if_neg hqp] at hq ⊢
      omega
  · have hj := h.holdings j
    simpa [Multiset.count_singleton, Ledger.leave] using hj
  · refine h.book.trans ?_
    simp only [waitingIn_add, waitingIn_branch, zero_add]

theorem not_mem_frame (h : Sound G st ({.branch p} + own)) :
    .branch p ∉ st.assets + own := by
  intro hmem
  have hcount := h.branches p
  have hpos := Multiset.count_pos.mpr hmem
  have hlive := Bool.toNat_le (G.live p)
  simp only [Multiset.count_add, Multiset.count_singleton_self] at hcount hpos
  omega

theorem advance (h : Sound G st own) (hx : G.lent (.fanout p.fanout) = true)
    (hp : .branch p ∈ own) (stream : Option Lone.Source) : Sound (G.advance p stream) st own :=
  h.amend hx (.advance stream (h.not_mem_assets hp)) h.branches h.holdings h.book

theorem hand (h : Sound G st own) (hx : G.lent (.fanout p.fanout) = true)
    (hp : .branch p ∈ own) (before : List String) : Sound (G.hand p before) st own :=
  h.amend hx (.hand before (h.not_mem_assets hp)) h.branches h.holdings h.book

theorem keep (h : Sound G st own) (hx : G.lent (.cell i) = true) (hi : G.holders i = 0)
    (snapshot : Snapshot) : Sound (G.keep i snapshot 1) st ({.cell i} + own) := by
  have hnot : .cell i ∉ st.assets + own := by
    intro hmem
    exact absurd (h.holders_of_mem hmem) (by rw [hi]; exact Nat.lt_irrefl 0)
  refine h.amend hx (.keep snapshot 1 fun hmem => hnot (Multiset.mem_add.mpr (.inl hmem)))
    (fun q => ?_) (fun j => ?_) ?_
  · have hq := h.branches q
    simpa [Multiset.count_singleton, Ledger.keep] using hq
  · have hj := h.holdings j
    simp only [Multiset.count_add, Multiset.count_singleton, Asset.cell.injEq] at hj ⊢
    rw [Ledger.keep]
    dsimp only
    rw [Function.update_apply]
    by_cases hji : j = i
    · subst hji
      simp only [if_true]
      omega
    · simp only [if_neg hji]
      omega
  · refine h.book.trans ?_
    simp only [waitingIn_add, waitingIn_cell, zero_add]

theorem retain (h : Sound G st own) (hx : G.lent (.cell i) = true) :
    Sound (G.count i (G.holders i + 1)) st ({.cell i} + own) := by
  refine h.amend hx (.count i _) (fun q => ?_) (fun j => ?_) ?_
  · have hq := h.branches q
    simpa [Multiset.count_singleton, Ledger.count] using hq
  · have hj := h.holdings j
    simp only [Multiset.count_add, Multiset.count_singleton, Asset.cell.injEq] at hj ⊢
    rw [Ledger.count]
    dsimp only
    rw [Function.update_apply]
    by_cases hji : j = i
    · subst hji
      simp only [if_true]
      omega
    · simp only [if_neg hji]
      omega
  · refine h.book.trans ?_
    simp only [waitingIn_add, waitingIn_cell, zero_add]

theorem dismiss (h : Sound G st ({.cell i} + own)) (hx : G.lent (.cell i) = true) :
    Sound (G.count i (G.holders i - 1)) st own := by
  refine h.amend hx (.count i _) (fun q => ?_) (fun j => ?_) ?_
  · have hq := h.branches q
    simpa [Multiset.count_singleton, Ledger.count] using hq
  · have hj := h.holdings j
    simp only [Multiset.count_add, Multiset.count_singleton, Asset.cell.injEq] at hj ⊢
    rw [Ledger.count]
    dsimp only
    rw [Function.update_apply]
    by_cases hji : j = i
    · subst hji
      simp only [if_true] at hj ⊢
      omega
    · simp only [if_neg hji] at hj ⊢
      omega
  · refine h.book.trans ?_
    simp only [waitingIn_add, waitingIn_cell, zero_add]

theorem rebook (h : Sound G st own) (hfanouts : st'.fanouts = st.fanouts)
    (hcells : st'.cells = st.cells) (hcount : ∀ a, a.labels? = none → own'.count a = own.count a) :
    Sound (G.turn (waitingIn (st.assets + own'), closedIn st'.log)) st' own' := by
  have hassets : st'.assets = st.assets := by rw [Store.assets, Store.assets, hfanouts, hcells]
  refine
    { fanouts := by rw [hfanouts]; exact h.fanouts
      cells := by rw [hcells]; exact h.cells
      branches := fun q => ?_
      holdings := fun j => ?_
      shared := fun j sh hj => ?_
      cell := fun j c hj => ?_
      lentFanout := by rw [hfanouts]; exact h.lentFanout
      lentCell := by rw [hcells]; exact h.lentCell
      present := by rw [hfanouts]; exact h.present
      occupied := by rw [hcells]; exact h.occupied
      book := by rw [hassets]; rfl }
  · rw [hassets, Multiset.count_add, hcount _ rfl, ← Multiset.count_add]
    exact h.branches q
  · rw [hassets, Multiset.count_add, hcount _ rfl, ← Multiset.count_add]
    exact h.holdings j
  · rw [hfanouts] at hj
    obtain ⟨hs, hd⟩ := h.shared j sh hj
    exact ⟨hs.mono (G.agrees_turn _ _) (fun _ => rfl) (fun _ => rfl) (fun _ => rfl) hs.below, hd⟩
  · rw [hcells] at hj
    have hs := h.cell j c hj
    exact hs.mono (G.agrees_turn _ _) rfl rfl hs.below

theorem waitingIn_hooks_add (A : Assets) (carrier : Carrier) (a : List String) (own : Assets) :
    waitingIn (A + ({.hooks carrier a} + own)) = (carrier, a) ::ₘ waitingIn (A + own) := by
  rw [add_left_comm, waitingIn_add, waitingIn_hooks, Multiset.singleton_add]

theorem count_hooks_add {x : Asset} (hx : x.labels? = none) (carrier : Carrier) (a : List String)
    (own : Assets) : ({.hooks carrier a} + own : Assets).count x = own.count x := by
  rw [Multiset.count_add, Multiset.count_singleton, if_neg, zero_add]
  rintro rfl
  cases hx

theorem made (h : Sound G st own) :
    ∃ book, Book.Turns G.book book ∧ Sound (G.turn book) st ({.hooks .direct []} + own) := by
  refine ⟨_, .single ?_, h.rebook rfl rfl fun x hx => count_hooks_add hx _ _ _⟩
  rw [h.book, waitingIn_hooks_add]
  exact .made _ _

theorem joined (h : Sound G st own) (place : Branch) :
    ∃ book, Book.Turns G.book book ∧ Sound (G.turn book) st ({.hooks (.branch place) []} + own) := by
  refine ⟨_, .single ?_, h.rebook rfl rfl fun x hx => count_hooks_add hx _ _ _⟩
  rw [h.book, waitingIn_hooks_add]
  exact .joined place _ _

theorem moved {a : List String} (h : Sound G st ({.hooks .direct a} + own)) (i : Nat) :
    ∃ book, Book.Turns G.book book ∧ Sound (G.turn book) st ({.hooks (.fanout i) a} + own) := by
  refine ⟨_, .single ?_, h.rebook rfl rfl fun x hx => ?_⟩
  · rw [h.book, waitingIn_hooks_add, waitingIn_hooks_add]
    exact .moved i a _ _
  · rw [count_hooks_add hx, count_hooks_add hx]

theorem merged (place : Branch) {a b : List String} (h : Sound G st
      ({.hooks (.fanout place.fanout) a} + ({.hooks (.branch place) b} + own))) :
    ∃ book, Book.Turns G.book book ∧ Sound (G.turn book) st
      ({.hooks (.fanout place.fanout) (a ++ b)} + ({.hooks (.branch place) []} + own)) := by
  refine ⟨_, .single ?_, h.rebook rfl rfl fun x hx => ?_⟩
  · rw [h.book, waitingIn_hooks_add, waitingIn_hooks_add, waitingIn_hooks_add, waitingIn_hooks_add]
    exact .merged place a b _ _
  · rw [count_hooks_add hx, count_hooks_add hx, count_hooks_add hx, count_hooks_add hx]

theorem closed {carrier : Carrier} {a : List String} (h : Sound G st ({.hooks carrier a} + own)) :
    ∃ book, Book.Turns G.book book ∧ Sound (G.turn book) (st.record (a.map .closed)) own := by
  refine ⟨_, .single ?_, h.rebook rfl rfl fun x hx => (count_hooks_add hx _ _ _).symm⟩
  rw [h.book, closedIn_record, filterMap_closed, waitingIn_hooks_add]
  exact .closed carrier a _ _

theorem record (h : Sound G st own) {events : List Event}
    (hevents : events.filterMap Event.label? = []) : Sound G (st.record events) own := by
  have hbook : (waitingIn (st.assets + own), closedIn (st.record events).log) = G.book := by
    rw [closedIn_record, hevents, List.append_nil, h.book]
  have hrebook : Sound _ (st.record events) own := h.rebook rfl rfl fun _ _ => rfl
  rwa [hbook] at hrebook

end Sound

end LazyCalc
