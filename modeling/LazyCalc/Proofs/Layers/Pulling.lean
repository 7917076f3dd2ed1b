import LazyCalc.Proofs.Layers.Broadcast
import LazyCalc.Proofs.Lone.Walking
/-!
Pulls of matching sequences give matching elements: those of a broadcast over sequences that are
alike but for layers have no layers to tell them apart.
-/

namespace LazyCalc

open Filter Told

namespace Lone

variable {view : Value → Value} {R : Sequence → Sequence → Prop}

theorem PullsAlike.abreast (h : PullsAlike view R) {s t : Sequence} (hs : R s t) (n : Nat) :
    Abreast n (fun m => (Drive.told m).pull s) (fun m => (Drive.told m).pull t)
      (CameAlike view R) :=
  (h s t hs).2.abreast (fun n => pullsStably n s) (fun n => pullsStably n t) n

/-- Sequences that are known by `R`, or over the elements of lists that are alike by `R` but for
layers. -/
inductive Listed (R : Sequence → Sequence → Prop) : Sequence → Sequence → Prop
  | known {s t : Sequence} (h : R s t) : Listed R s t
  | items {vs ws : List Value} (hint : Hint) (finished : Bool)
    (h : Tree.RelList R (Tree.stripList vs) (Tree.stripList ws)) :
    Listed R ⟨.direct (.items (vs.map .ok)), hint, finished, []⟩
      ⟨.direct (.items (ws.map .ok)), hint, finished, []⟩

theorem PullsAlike.listed (h : PullsAlike Tree.strip R) : PullsAlike Tree.strip (Listed R) := by
  intro s t hs
  cases hs with
  | known hs => exact ⟨(h s t hs).1, (h s t hs).2.mono fun _ _ => .mono fun _ _ => .known⟩
  | @items vs ws hint finished hitems =>
    refine ⟨rfl, ?_⟩
    cases finished with
    | true =>
      exact .of_tells (tells_finished ..) (tells_finished ..) (.ended (.items hint true hitems))
    | false =>
      refine .of_tells (tells_items ..) (tells_items ..) ?_
      cases vs with
      | nil =>
        cases ws with
        | nil => exact .ended (.items hint true hitems)
        | cons w ws => exact hitems.elim
      | cons v vs =>
        cases ws with
        | nil => exact hitems.elim
        | cons w ws =>
          exact .gave (hitems.1.mono fun _ _ => .known) (.items hint false hitems.2)

theorem alike_ofValues {vs ws : List Value}
    (h : Tree.RelList (Sequence.Alike Tree.strip) (Tree.stripList vs) (Tree.stripList ws)) :
    Sequence.Alike Tree.strip (.ofValues vs (.exact vs.length))
      (.ofValues ws (.exact ws.length)) := by
  have hlength : vs.length = ws.length := by
    have := h.length_eq
    rwa [Tree.length_stripList, Tree.length_stripList] at this
  rw [← hlength]
  exact ⟨_, (pullsAlike Tree.strip).listed, .items (.exact vs.length) false h⟩

end Lone

namespace Pairs

section

variable {σ : Type} {R : Lone.Sequence → Lone.Sequence → Prop}

mutual

theorem exists_tree {t u : Lone.Value} (h : Tree.Rel R t u) :
    ∃ T : Value, left T = t ∧ right T = u ∧
      ∀ p ∈ (parts T : Parts), ∃ s : Sequence, p = .sequence s ∧ R s.left s.right := by
  cases t with
  | scalar x =>
    cases u with
    | scalar y =>
      obtain rfl : x = y := h
      exact ⟨.scalar x, rfl, rfl, fun p hp => by simp at hp⟩
    | list us => exact h.elim
    | sequence s => exact h.elim
  | list ts =>
    cases u with
    | list us =>
      obtain ⟨Ts, rfl, rfl, hparts⟩ := exists_trees (show Tree.RelList R ts us from h)
      exact ⟨.list Ts, rfl, rfl, hparts⟩
    | scalar y => exact h.elim
    | sequence s => exact h.elim
  | sequence s =>
    cases u with
    | sequence s' =>
      refine ⟨.sequence ⟨s, s'⟩, rfl, rfl, fun p hp => ⟨⟨s, s'⟩, ?_, h⟩⟩
      exact Multiset.mem_singleton.mp hp
    | scalar y => exact h.elim
    | list us => exact h.elim

theorem exists_trees {ts us : List Lone.Value} (h : Tree.RelList R ts us) :
    ∃ Ts : List Value, left Ts = ts ∧ right Ts = us ∧
      ∀ p ∈ (parts Ts : Parts), ∃ s : Sequence, p = .sequence s ∧ R s.left s.right := by
  cases ts with
  | nil =>
    cases us with
    | nil => exact ⟨[], rfl, rfl, fun p hp => by simp at hp⟩
    | cons u us => exact h.elim
  | cons t ts =>
    cases us with
    | nil => exact h.elim
    | cons u us =>
      obtain ⟨T, rfl, rfl, hT⟩ := exists_tree (show Tree.Rel R t u from h.1)
      obtain ⟨Ts, rfl, rfl, hTs⟩ := exists_trees (show Tree.RelList R ts us from h.2)
      exact ⟨T :: Ts, rfl, rfl, fun p hp => (Multiset.mem_add.mp hp).elim (hT p) (hTs p)⟩

end

end

section

variable {E R : Lone.Sequence → Lone.Sequence → Prop} {n : Nat}

theorem fits_known {A : Parts} (h : ∀ p ∈ A, ∃ s : Sequence, p = .sequence s ∧ E s.left s.right) :
    Fits E R A where
  sequence s hs := by
    obtain ⟨_, hs, h⟩ := h _ hs
    obtain rfl := Part.sequence.inj hs
    exact .known s h
  cell k hk := by
    obtain ⟨_, hk, -⟩ := h _ hk
    cases hk

theorem joined_of_cameAlike {a b : Option Lone.Item × Lone.Sequence} (h : Lone.CameAlike id E a b) :
    Joined E R (Option (Except Failure (Tree Sequence)) × Sequence) 0 a b := by
  have hknown {s t : Lone.Sequence} (h : E s t) :
      Fits E R (parts (⟨s, t⟩ : Sequence)) := fits_sequence.mpr (.known ⟨s, t⟩ h)
  cases h with
  | @ended s t h => exact ⟨(none, ⟨s, t⟩), rfl, rfl, by simpa using hknown h⟩
  | @failed s t e h => exact ⟨(some (.error e), ⟨s, t⟩), rfl, rfl, by simpa using hknown h⟩
  | @gave v w s t hv h =>
    obtain ⟨T, rfl, rfl, hT⟩ := exists_tree (R := E) hv
    refine ⟨(some (.ok T), ⟨s, t⟩), rfl, rfl, ?_⟩
    rw [add_zero]
    exact fits_add.mpr ⟨fits_known hT, hknown h⟩

namespace Known

theorem applyMapping (K : Known E R n) {mapping : Mapping Cell} (hmapping : mapping.Broadcasts)
    (hfits : Fits E R (parts mapping)) {v w : Lone.Value} (h : Tree.Rel R v.strip w.strip) :
    Abreast n (fun m => (left mapping).apply (Drive.told m) v)
      (fun m => (right mapping).apply (Drive.told m) w) (Result E R (parts mapping)) := by
  cases mapping with
  | broadcast leaf limit depth => exact K.broadcastOne hfits limit depth v w h
  | against fixed side leaf limit depth =>
    cases side with
    | left => exact K.broadcastTwo hfits limit depth (.scalar fixed) v (.scalar fixed) w rfl h
    | right => exact K.broadcastTwo hfits limit depth v (.scalar fixed) w (.scalar fixed) h rfl
  | note text => exact hmapping.elim
  | invoke table name extra => exact hmapping.elim
  | enlist => exact hmapping.elim
  | stream => exact hmapping.elim

theorem applyPairing (K : Known E R n) {pairing : Pairing Cell} (hpairing : pairing.Broadcasts)
    (hfits : Fits E R (parts pairing)) {a b a' b' : Lone.Value}
    (ha : Tree.Rel R a.strip a'.strip) (hb : Tree.Rel R b.strip b'.strip) :
    Abreast n (fun m => (left pairing).apply (Drive.told m) a b)
      (fun m => (right pairing).apply (Drive.told m) a' b') (Result E R (parts pairing)) := by
  cases pairing with
  | broadcast leaf limit depth => exact K.broadcastTwo hfits limit depth a b a' b' ha hb
  | invoke table name => exact hpairing.elim
  | enlist => exact hpairing.elim

theorem stepMapped (K : Known E R n)
    (hloose : ∀ s t, R s t → Abreast n (fun m => (Drive.told m).pull s)
      (fun m => (Drive.told m).pull t) (Lone.CameAlike Tree.strip R))
    {s : Sequence} (hs : R s.left s.right) {mapping : Mapping Cell}
    (hmapping : mapping.Broadcasts) (hfits : Fits E R (parts mapping)) :
    Abreast n (fun m => (left (Source.mapped s mapping)).step (Drive.told m))
      (fun m => (right (Source.mapped s mapping)).step (Drive.told m))
      fun a b => ∃ (o : Option (Except Failure (Tree Sequence))) (s' : Sequence),
        R s'.left s'.right ∧ Fits E R (parts o) ∧ a = left (o, Source.mapped s' mapping) ∧
          b = right (o, Source.mapped s' mapping) := by
  refine (hloose s.left s.right hs).bind ?_
  rintro _ _ (@⟨t, t', h⟩ | @⟨t, t', e, h⟩ | @⟨v, w, t, t', hv, h⟩)
  · exact .pure ⟨none, ⟨t, t'⟩, h, fits_zero, rfl, rfl⟩
  · exact .pure ⟨some (.error e), ⟨t, t'⟩, h, fits_zero, rfl, rfl⟩
  · refine (K.applyMapping hmapping hfits hv).bind ?_
    rintro _ _ ⟨x, rfl, rfl, hx⟩
    exact .pure ⟨some x, ⟨t, t'⟩, h, (fits_add.mp hx).1, rfl, rfl⟩

theorem stepZipped (K : Known E R n)
    (hloose : ∀ s t, R s t → Abreast n (fun m => (Drive.told m).pull s)
      (fun m => (Drive.told m).pull t) (Lone.CameAlike Tree.strip R))
    {s t : Sequence} (hs : R s.left s.right) (ht : R t.left t.right) {pairing : Pairing Cell}
    (hpairing : pairing.Broadcasts) (hfits : Fits E R (parts pairing)) :
    Abreast n (fun m => (left (Source.zipped s t pairing)).step (Drive.told m))
      (fun m => (right (Source.zipped s t pairing)).step (Drive.told m))
      fun a b => ∃ (o : Option (Except Failure (Tree Sequence))) (s' t' : Sequence),
        R s'.left s'.right ∧ R t'.left t'.right ∧ Fits E R (parts o) ∧
          a = left (o, Source.zipped s' t' pairing) ∧
          b = right (o, Source.zipped s' t' pairing) := by
  refine (hloose s.left s.right hs).bind ?_
  rintro _ _ (@⟨s₁, s₂, h⟩ | @⟨s₁, s₂, e, h⟩ | @⟨v, w, s₁, s₂, hv, h⟩)
  · exact .pure ⟨none, ⟨s₁, s₂⟩, t, h, ht, fits_zero, rfl, rfl⟩
  · exact .pure ⟨some (.error e), ⟨s₁, s₂⟩, t, h, ht, fits_zero, rfl, rfl⟩
  refine (hloose t.left t.right ht).bind ?_
  rintro _ _ (@⟨t₁, t₂, h'⟩ | @⟨t₁, t₂, e, h'⟩ | @⟨v', w', t₁, t₂, hv', h'⟩)
  · exact .pure ⟨none, ⟨s₁, s₂⟩, ⟨t₁, t₂⟩, h, h', fits_zero, rfl, rfl⟩
  · exact .pure ⟨some (.error e), ⟨s₁, s₂⟩, ⟨t₁, t₂⟩, h, h', fits_zero, rfl, rfl⟩
  · refine (K.applyPairing hpairing hfits hv hv').bind ?_
    rintro _ _ ⟨x, rfl, rfl, hx⟩
    exact .pure ⟨some x, ⟨s₁, s₂⟩, ⟨t₁, t₂⟩, h, h', (fits_add.mp hx).1, rfl, rfl⟩

end Known

theorem closes_left (o : Option (Except Failure (Tree Sequence))) :
    LazyCalc.Sequence.closes (left o) = LazyCalc.Sequence.closes (right o) := by
  rcases o with _ | _ | v <;> rfl

theorem abreast_pull {source source' : Lone.Source}
    {P : Option Lone.Item × Lone.Source → Option Lone.Item × Lone.Source → Prop}
    {Q : Option Lone.Item × Lone.Sequence → Option Lone.Item × Lone.Sequence → Prop}
    (h : Abreast n (fun m => source.step (Drive.told m)) (fun m => source'.step (Drive.told m)) P)
    (hint : Hint) (hooks hooks' : List String)
    (hQ : ∀ a b, P a b →
      Q (a.1, ⟨.direct a.2, hint, LazyCalc.Sequence.closes a.1, hooks⟩)
        (b.1, ⟨.direct b.2, hint, LazyCalc.Sequence.closes b.1, hooks'⟩)) :
    Abreast (n + 1) (fun m => (Drive.told m).pull ⟨.direct source, hint, false, hooks⟩)
      (fun m => (Drive.told m).pull ⟨.direct source', hint, false, hooks'⟩) Q :=
  (h.bind fun a b hab => .pure (hQ a b hab)).succ (fun _ => rfl) fun _ => rfl

theorem abreast_finished {source : Source} {hint : Hint} {hooks hooks' : List String}
    (h : Matches E R (ofSource source hint true hooks hooks')) :
    Abreast (n + 1)
      (fun m => (Drive.told m).pull (ofSource source hint true hooks hooks').left)
      (fun m => (Drive.told m).pull (ofSource source hint true hooks hooks').right)
      (Joined E R (Option (Except Failure (Tree Sequence)) × Sequence) 0) :=
  .succ (n := n) (.pure ⟨(none, ofSource source hint true hooks hooks'), rfl, rfl, by
    simpa using fits_sequence.mpr h⟩) (fun _ => rfl) fun _ => rfl

theorem joined_pull {o : Option (Except Failure (Tree Sequence))} {source : Source} {hint : Hint}
    {hooks hooks' : List String} (ho : Fits E R (parts o))
    (h : Matches E R (ofSource source hint (LazyCalc.Sequence.closes (left o)) hooks hooks')) :
    Joined E R (Option (Except Failure (Tree Sequence)) × Sequence) 0
      (left o, ⟨.direct (left source), hint, LazyCalc.Sequence.closes (left o), hooks⟩)
      (right o, ⟨.direct (right source), hint, LazyCalc.Sequence.closes (right o), hooks'⟩) := by
  refine ⟨(o, ofSource source hint (LazyCalc.Sequence.closes (left o)) hooks hooks'), rfl, ?_, ?_⟩
  · rw [← closes_left]
    rfl
  · rw [add_zero]
    exact fits_add.mpr ⟨ho, fits_sequence.mpr h⟩

theorem Known.pull_succ (K : Known E R n)
    (hknown : ∀ s t, E s t → Abreast (n + 1) (fun m => (Drive.told m).pull s)
      (fun m => (Drive.told m).pull t) (Lone.CameAlike id E))
    (hloose : ∀ s t, R s t → Abreast n (fun m => (Drive.told m).pull s)
      (fun m => (Drive.told m).pull t) (Lone.CameAlike Tree.strip R)) :
    PullsMatch E R (n + 1) := by
  intro s hs
  cases hs with
  | known s h => exact (hknown s.left s.right h).mono fun a b => joined_of_cameAlike
  | direct source hint finished hooks hooks' hsequence hcell =>
    cases finished with
    | true => exact abreast_finished (.direct source hint true hooks hooks' hsequence hcell)
    | false =>
      refine abreast_pull ((matching n K.hint K.pull).step source ⟨hsequence, hcell⟩) hint hooks
        hooks' ?_
      rintro _ _ ⟨⟨o, source'⟩, rfl, rfl, h⟩
      rw [add_zero] at h
      exact joined_pull (fits_add.mp h).1 (.ofSource (fits_add.mp h).2 hint _ hooks hooks')
  | mapped s h mapping hmapping hint finished hooks hooks' hsequence hcell =>
    cases finished with
    | true =>
      exact abreast_finished
        (.mapped s h mapping hmapping hint true hooks hooks' hsequence hcell)
    | false =>
      refine abreast_pull (K.stepMapped hloose h hmapping ⟨hsequence, hcell⟩) hint hooks
        hooks' ?_
      rintro _ _ ⟨o, s', hs', ho, rfl, rfl⟩
      exact joined_pull ho (.mapped s' hs' mapping hmapping hint _ hooks hooks' hsequence hcell)
  | zipped s t hs ht pairing hpairing hint finished hooks hooks' hsequence hcell =>
    cases finished with
    | true =>
      exact abreast_finished
        (.zipped s t hs ht pairing hpairing hint true hooks hooks' hsequence hcell)
    | false =>
      refine abreast_pull (K.stepZipped hloose hs ht hpairing ⟨hsequence, hcell⟩) hint hooks
        hooks' ?_
      rintro _ _ ⟨o, s', t', hs', ht', ho, rfl, rfl⟩
      exact joined_pull ho
        (.zipped s' t' hs' ht' pairing hpairing hint _ hooks hooks' hsequence hcell)

end

/-- All that is needed holds of sequences that are alike, the ones wholly and the others but for
layers. -/
theorem known (n : Nat) : Known (Lone.Sequence.Alike id) (Lone.Sequence.Alike Tree.strip) n where
  hint s t h := (Lone.pullsAlike id s t h).1
  looseHint s t h := (Lone.pullsAlike Tree.strip s t h).1
  values _ _ h := Lone.alike_ofValues h
  pull := by
    induction n with
    | zero => exact fun s _ => .stuck rfl rfl
    | succ n ih =>
      refine Known.pull_succ ⟨fun s t h => (Lone.pullsAlike id s t h).1, ih,
        fun s t h => (Lone.pullsAlike Tree.strip s t h).1, fun _ _ h => Lone.alike_ofValues h⟩ ?_ ?_
      · exact fun s t h => (Lone.pullsAlike id).abreast h (n + 1)
      · exact fun s t h => (Lone.pullsAlike Tree.strip).abreast h n

end Pairs

end LazyCalc
