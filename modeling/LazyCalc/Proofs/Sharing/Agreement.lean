import LazyCalc.Proofs.Lone.Stable
import LazyCalc.Proofs.Sharing.Pulling
/-!
Linked sequences agree with lone ones: what a calculation gives in a store, where sources are
shared, is what it gives where every sequence is alone, and it meets no fault on the way.
-/

namespace LazyCalc

open Filter

/-- What came of a linked calculation with fuel `n`, beside lone ones: either both run out of fuel,
or there are two sides of some `c` that they come to. -/
def Agreement (γ : Type) {α β : Type} [Paired γ α β] [Parted Twins.Sequence Twins.Cell γ] (n : Nat)
    (G : Ledger) (F : Assets) (r : ℚ) (B : Twins.Parts) (x : Except Fault (α × Store))
    (Y : Nat → Option β) : Prop :=
  (x = .error .outOfFuel ∧ Y n = none) ∨
    ∃ (c : γ) (st : Store), x = .ok (left c, st) ∧ Settles Y (right c) ∧
      (∀ b, Y n = some b → b = right c) ∧ Reaches G F r (parts c + B) st

section

variable {γ α β : Type} [Paired γ α β] [Parted Twins.Sequence Twins.Cell γ] {n : Nat} {G : Ledger}
  {F : Assets} {r : ℚ} {B : Twins.Parts} {x : Except Fault (α × Store)} {Y Y' : Nat → Option β}

theorem Agreement.congr (h : Agreement γ n G F r B x Y) (he : ∀ᶠ m in atTop, Y m = Y' m)
    (hn : Y n = Y' n) : Agreement γ n G F r B x Y' := by
  obtain ⟨hx, hY⟩ | ⟨c, st, hx, hY, hYn, hr⟩ := h
  · exact .inl ⟨hx, hn ▸ hY⟩
  · exact .inr ⟨c, st, hx, hY.congr he, hn ▸ hYn, hr⟩

theorem Agreement.trans {G' : Ledger} (hG : Evolves F G G') (h : Agreement γ n G' F r B x Y) :
    Agreement γ n G F r B x Y := by
  obtain hx | ⟨c, st, hx, hY, hYn, hr⟩ := h
  · exact .inl hx
  · exact .inr ⟨c, st, hx, hY, hYn, hr.trans hG⟩

theorem Agreement.constant {st : Store} {b : β} (c : γ) (hx : x = .ok (left c, st))
    (hc : right c = b) (h : Reaches G F r (parts c + B) st) :
    Agreement γ n G F r B x (fun _ => some b) := by
  refine .inr ⟨c, st, hx, hc ▸ .const _, fun b' hb => ?_, h⟩
  rw [hc]
  exact (Option.some.inj hb).symm

/-- What is done with the outcome agrees too, in the ledger that the first calculation leaves. -/
theorem Agreement.bind {γ' α' β' : Type} [Paired γ' α' β'] [Parted Twins.Sequence Twins.Cell γ']
    {B' : Twins.Parts} {X : Engine α} {f : α → Engine α'} {g : Nat → β → Option β'} {st : Store}
    (h : Agreement γ n G F r B (X st) Y)
    (hf : ∀ (c : γ) G' st', Ready G' st' (parts c + B) F r →
      Agreement γ' n G' F r B' (f (left c) st') (fun m => g m (right c))) :
    Agreement γ' n G F r B' ((X >>= f) st) (fun m => Y m >>= g m) := by
  obtain ⟨hx, hy⟩ | ⟨c, st', hx, hY, hYn, G', h', hG⟩ := h
  · exact .inl ⟨Engine.bind_error hx, Option.bind_eq_none_iff.mpr fun b hb => by simp [hy] at hb⟩
  have hbind : (X >>= f) st = f (left c) st' := Engine.bind_eq hx
  obtain ⟨hx', hy'⟩ | ⟨c', st'', hx', hY', hYn', hr⟩ := hf c G' st' h'
  · refine .inl ⟨hbind.trans hx', Option.bind_eq_none_iff.mpr fun b hb => ?_⟩
    rwa [hYn b hb]
  · refine .inr ⟨c', st'', hbind.trans hx', hY.bind hY', fun b hb => ?_, hr.trans hG⟩
    obtain ⟨b₁, hb₁, hb⟩ := Option.bind_eq_some_iff.mp hb
    rw [hYn b₁ hb₁] at hb
    exact hYn' b hb

theorem Agreement.frame {F' : Twins.Parts} {st : Store}
    {A : Twins.Parts} (h : Ready G st (A + F') F r)
    (hx : Agreement γ n G (ownedBy F' + F) r B x Y) : Agreement γ n G F r (B + F') x Y := by
  obtain hx | ⟨c, st', hx, hY, hYn, hr⟩ := hx
  · exact .inl hx
  · refine .inr ⟨c, st', hx, hY, hYn, ?_⟩
    rw [← add_assoc]
    exact Reaches.frame h hr

end

theorem Ready.made {G : Ledger} {st : Store} {A : Twins.Parts} {F : Assets} {r : ℚ}
    {source : Twins.Source} (h : Ready G st (parts source + A) F r) (hint : Hint) :
    ∃ G', Ready G' st (parts (Twins.ofSource source hint false ⟨[], []⟩) + A) F r ∧ Evolves F G G' := by
  obtain ⟨book, hbook, hsound⟩ := h.sound.made
  have hfits := Twins.fits_add.mp h.fits
  refine ⟨G.turn book, ⟨hsound.of_eq ?_, Twins.fits_add.mpr ⟨?_, hfits.2.mono ?_⟩, ?_, ?_⟩,
    .turn F hbook⟩
  · rw [ownedBy_add, ownedBy_add, Twins.ownedBy_ofSource, add_assoc, add_assoc, add_assoc]
  · have hsource : Twins.Fits (G.turn book) (parts source) :=
      hfits.1.mono ⟨fun _ _ => rfl, fun _ _ => rfl, rfl, fun _ _ => rfl⟩
    exact Twins.fits_twin.mpr
      (.direct source hint false ⟨[], []⟩ hsource.sequence hsource.cell fun _ => rfl)
  · exact ⟨fun _ _ => rfl, fun _ _ => rfl, rfl, fun _ _ => rfl⟩
  · rw [ownedBy_add, Twins.ownedBy_ofSource, add_assoc, Ledger.below_add, ← ownedBy_add]
    exact ⟨Ledger.below_hooks, h.below⟩
  · exact h.guards

def PullsAgree (n : Nat) : Prop :=
  ∀ (s : Twins.Sequence) (G : Ledger) (st : Store) (F : Assets) (r : ℚ), Ready G st (parts s) F r →
    Agreement (Option Twins.Item × Twins.Sequence) n G F r 0 ((Drive.ofFuel n).pull s.left st)
      (fun m => (Drive.alone m).pull s.right)

def agreeing (n : Nat) (hpull : PullsAgree n) :
    Coupling Engine Option Branch Nat Empty Snapshot Twins.Sequence Twins.Cell where
  Triple γ _ _ _ _ A X Y B := ∀ G st F r, Ready G st A F r → Agreement γ n G F r B (X n st) Y
  pure_parts := by
    intro γ α β _ _ c B G st F r h
    refine .inr ⟨c, st, rfl, .const _, fun b hb => (Option.some.inj hb).symm, h.reaches⟩
  bind_parts := by
    intro γ α β γ' α' β' _ _ _ _ A B B' X Y f g hX hf G st F r h
    exact Agreement.bind (hX G st F r h) fun c G' st' h' => hf c G' st' F r h'
  frame := by
    intro γ α β _ _ A B X Y F' hX G st F r h
    exact .frame h (hX G st _ r h.focus)
  first := Drive.ofFuel
  second := Drive.alone
  first_fuel := Drive.fuel_ofFuel
  second_fuel _ := rfl
  make source hint := Twins.ofSource source hint false ⟨[], []⟩
  left_make _ _ := rfl
  right_make _ _ := rfl
  made := by
    intro γ α β _ _ A B X Y source hint hX G st F r h
    obtain ⟨G', h', hG⟩ := h.made hint
    exact (hX G' st F r h').trans hG
  hinted := by
    intro γ α β _ _ A B X Y s hX G st F r h
    refine hX ?_ G st F r h
    exact (Twins.fits_twin.mp (Twins.fits_add.mp h.fits).1).hint
  loop := by
    intro ι I₁ I₂ γ α β _ _ _ A B f g F G hf0 hf hg0 hg hturn i
    refine loop_of_turn n
      (T := fun i (X : Nat → Engine α) (Y : Nat → Option β) =>
        ∀ G st F r, Ready G st (A i) F r → Agreement γ n G F r (B i) (X n st) Y)
      ?_ ?_ hf hg hturn i
    · intro i X X' Y Y' he hX hY h G st F r hr
      rw [← hX]
      exact (h G st F r hr).congr (he.mono fun _ he => he.2) hY
    · intro i X Y hX hY G st F r hr
      refine .inl ⟨?_, hY.trans (hg0 n _)⟩
      rw [hX, hf0]
      rfl
  pull := hpull
  fork s G st F r h := by
    obtain ⟨c, st', hfork, hright, hr⟩ := h.fork
    exact .constant c hfork hright (by rwa [add_zero])
  drop vs G st F r h := by
    obtain ⟨st', hdrop, hr⟩ := h.drop
    exact .constant () hdrop rfl hr
  note texts G st F r h := by
    refine .constant () rfl rfl (Ready.reaches (h.note _ ?_))
    simp [List.filterMap_map, Event.label?, Function.comp_def]
  keep c G st F r h := by
    obtain ⟨st', hkeep, hr⟩ := h.keep
    exact .constant (⟨st.cells.size, .of (right c)⟩ : Twins.Cell) hkeep rfl (by rwa [add_zero])
  read k G st F r h := by
    obtain ⟨c, st', hread, hright, hr⟩ := h.read
    exact .constant c hread hright hr
  retain k G st F r h := by
    obtain ⟨st', hretain, hr⟩ := h.retain
    exact .constant () hretain rfl (by rwa [parts_unit, zero_add])
  dismiss k G st F r h := by
    obtain ⟨st', hdismiss, hr⟩ := h.dismiss
    exact .constant () hdismiss rfl hr

theorem closes_left (o : Option Twins.Item) :
    Sequence.closes (left o) = Sequence.closes (right o) := by
  rcases o with _ | _ | v <;> rfl

theorem Ready.enter {G : Ledger} {st : Store} {F : Assets} {r : ℚ} {source : Twins.Source}
    {hint : Hint} {finished : Bool} {hooks : Twins.Hooks}
    (h : Ready G st (parts (Twins.ofSource source hint finished hooks)) F r)
    (hfits : Twins.Fits G (parts source)) :
    Ready G st (parts source) ({.hooks .direct hooks.left} + F) r where
  sound := h.sound.of_eq (by rw [Twins.ownedBy_ofSource]; abel)
  fits := hfits
  below := (Ledger.below_add.mp (Twins.ownedBy_ofSource source hint finished hooks ▸ h.below)).2
  guards := h.guards

theorem Reaches.leave {G : Ledger} {st : Store} {F : Assets} {r : ℚ} {o : Option Twins.Item}
    {source : Twins.Source} {hooks : Twins.Hooks}
    (h : Reaches G ({.hooks .direct hooks.left} + F) r (parts (o, source)) st)
    (hhooks : G.tracked = true → hooks.right = hooks.left) (hint : Hint) (finished : Bool) :
    Reaches G F r (parts (o, Twins.ofSource source hint finished hooks)) st := by
  obtain ⟨G', h, hG⟩ := h
  refine ⟨G', ⟨h.sound.of_eq ?_, ?_, ?_, h.guards⟩, hG.sub (Multiset.le_add_left _ _)⟩
  · simp only [parts_pair, ownedBy_add, Twins.ownedBy_ofSource]
    abel
  · have hfits := Twins.fits_add.mp h.fits
    refine Twins.fits_add.mpr ⟨hfits.1, Twins.fits_twin.mpr ?_⟩
    exact .direct source hint finished hooks hfits.2.sequence hfits.2.cell
      fun ht => hhooks (hG.tracked.symm.trans ht)
  · have hbelow := h.below
    rw [parts_pair, ownedBy_add, Ledger.below_add] at hbelow ⊢
    rw [Twins.ownedBy_ofSource, Ledger.below_add]
    exact ⟨hbelow.1, Ledger.below_hooks, hbelow.2⟩

theorem pullAlone_succ (S : Lone.Source) (hint : Hint) (hooks : List String) (n : Nat) :
    (Drive.alone (n + 1)).pull ⟨.direct S, hint, false, hooks⟩ =
      (S.step (Drive.alone n)).map fun c =>
        (c.1, ⟨.direct c.2, hint, Sequence.closes c.1, hooks⟩) := by
  change (S.step (Drive.alone n)).bind _ = _
  cases S.step (Drive.alone n) <;> rfl

theorem settles_pullAlone {S : Lone.Source} {c : Option Lone.Item × Lone.Source} (hint : Hint)
    (hooks : List String) (h : Settles (fun n => S.step (Drive.alone n)) c) :
    Settles (fun n => (Drive.alone n).pull ⟨.direct S, hint, false, hooks⟩)
      (c.1, ⟨.direct c.2, hint, Sequence.closes c.1, hooks⟩) := by
  refine Settles.succ ?_
  simp only [pullAlone_succ]
  filter_upwards [h] with n hn
  rw [hn, Option.map_some]

theorem Agreement.pulled {n : Nat} {G : Ledger} {F : Assets} {r : ℚ}
    {c : Option Twins.Item × Twins.Sequence}
    {x : Except Fault ((Option Linked.Item × Linked.Sequence) × Store)} {s : Lone.Sequence}
    {st : Store} (hx : x = .ok (left c, st))
    (hs : Settles (fun n => (Drive.alone n).pull s) (right c)) (h : Reaches G F r (parts c) st) :
    Agreement (Option Twins.Item × Twins.Sequence) n G F r 0 x fun n => (Drive.alone n).pull s :=
  .inr ⟨c, st, hx, hs, fun b hb => (Lone.settles_pull hb).unique hs, by rwa [add_zero]⟩

theorem Ready.pullBranch {n : Nat} (ih : PullsAgree n) {G : Ledger} {st : Store} {F : Assets} {r : ℚ}
    {place : Branch} {S : Lone.Source} {hint : Hint} {hooks : Twins.Hooks}
    (h : Ready G st (parts (Twins.ofBranch place S hint false hooks)) F r)
    (hstream : G.stream place = some S) :
    (pullBranch (Drive.ofFuel n) place st = .error .outOfFuel ∧ S.step (Drive.alone n) = none) ∨
      ∃ (o : Option Twins.Item) (S' : Lone.Source) (st' : Store),
        LazyCalc.pullBranch (Drive.ofFuel n) place st = .ok (left o, st') ∧
        Settles (fun n => S.step (Drive.alone n)) (right o, S') ∧
        Reaches G F r (parts (o, Twins.ofBranch place S' hint (Sequence.closes (left o)) hooks)) st' := by
  obtain ⟨i, slot⟩ := place
  obtain ⟨⟨source₀, fanout, labels⟩, s, hi, hs, hshared, hrank, hlent⟩ := h.reader
  cases hpop : fanout.pop? slot with
  | some popped =>
    obtain ⟨item, fanout'⟩ := popped
    obtain ⟨x, S', rfl, hsettles, hr⟩ := h.popBranch hstream hi hpop
    exact .inr ⟨some x, S', _, pullBranch_of_pop hi hpop, hsettles, hr⟩
  | none =>
    cases hdone : fanout.done with
    | true =>
      obtain ⟨S', hsettles, hr⟩ := h.pastEnd hstream hi hpop hdone
      exact .inr ⟨none, S', _, pullBranch_of_done hi hpop hdone, hsettles, hr⟩
    | false =>
      obtain ⟨source, rfl, rfl, hslots, hready⟩ := h.caughtUp hstream hi hpop hdone
      obtain ⟨hx, hY⟩ | ⟨c, st', hx, hY, -, hr⟩ := (agreeing n ih).step source _ _ _ _ hready
      · exact .inl ⟨pullBranch_of_fault hi hpop hdone hx, hY⟩
      · rw [add_zero] at hr
        obtain ⟨G', h', hG⟩ := hr
        obtain ⟨o, st'', ho, hpull, hr⟩ := h.pulled hi hpop hslots hG hdone hY h'
        refine .inr ⟨o, (right c).2, st'', hpull _ rfl hx, ?_, hr⟩
        rw [ho]
        exact hY

theorem pullsAgree (n : Nat) : PullsAgree n := by
  -- a pull with fuel `n + 1` asks its source with fuel `n`, at which all sequences inside agree
  induction n with
  | zero => exact fun s G st F r h => .inl ⟨rfl, rfl⟩
  | succ n ih =>
    intro s G st F r h
    have hmatches := Twins.fits_twin.mp h.fits
    cases hmatches with
    | direct source hint finished hooks hsequence hcell hhooks =>
      cases finished with
      | true =>
        refine .pulled (c := (none, Twins.ofSource source hint true hooks)) rfl
          (Settles.succ (.const _)) (Ready.reaches ?_)
        rw [parts_pair, parts_none, zero_add]
        exact h
      | false =>
        obtain ⟨hx, hY⟩ | ⟨⟨o, source'⟩, st', hx, hY, -, hr⟩ :=
          (agreeing n ih).step source G st _ r (h.enter ⟨hsequence, hcell⟩)
        · refine .inl ⟨Engine.bind_error hx, ?_⟩
          exact (pullAlone_succ _ _ _ _).trans (congrArg (Option.map _) hY)
        · refine .pulled (c := (o, Twins.ofSource source' hint (Sequence.closes (left o)) hooks))
            ((Engine.bind_eq hx).trans rfl) ?_ ?_
          · have := settles_pullAlone hint hooks.right hY
            rwa [closes_left]
          · rw [add_zero] at hr
            exact hr.leave hhooks hint _
    | branch place stream hint finished hooks hstream hhooks =>
      cases finished with
      | true =>
        refine .pulled (c := (none, Twins.ofBranch place stream hint true hooks)) rfl
          (Settles.succ (.const _)) (Ready.reaches ?_)
        rw [parts_pair, parts_none, zero_add]
        exact h
      | false =>
        obtain ⟨hx, hY⟩ | ⟨o, S', st', hx, hY, hr⟩ := Ready.pullBranch ih h (hstream rfl)
        · refine .inl ⟨Engine.bind_error hx, ?_⟩
          exact (pullAlone_succ _ _ _ _).trans (congrArg (Option.map _) hY)
        · refine .pulled (c := (o, Twins.ofBranch place S' hint (Sequence.closes (left o)) hooks))
            ((Engine.bind_eq hx).trans rfl) ?_ hr
          have := settles_pullAlone hint hooks.right hY
          rwa [closes_left]

end LazyCalc
