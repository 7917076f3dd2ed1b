import LazyCalc.Proofs.Desk.Runs
import LazyCalc.Proofs.Sharing.Agreement
/-!
Runs over desks in a store, beside runs over desks of lone sequences: each act gives the same on both
sides, and the store is sound after it, with nothing at work.
-/

namespace LazyCalc

open Filter
open Readers (at?)

namespace Linked

abbrev Desk := LazyCalc.Desk Branch Nat

end Linked

namespace Lone

abbrev Desk := LazyCalc.Desk Empty Snapshot

end Lone

namespace Twins

abbrev Desk := List (Option Value)

end Twins

namespace Desk

def runLinked (n : Nat) (acts : List (Nat × Act)) (desks : List Linked.Desk) :
    Engine (List (Nat × Showing) × List Linked.Desk) :=
  run (Drive.ofFuel n) Sequence.onClose acts desks

/-- A label goes on a lone sequence if these keep labels. -/
def keeping : Bool → Lone.Sequence → String → Lone.Sequence
  | true => Sequence.onClose
  | false => fun s _ => s

theorem hint_keeping (tracked : Bool) (s : Lone.Sequence) (label : String) :
    (keeping tracked s label).hint = s.hint := by
  cases tracked <;> rfl

/-- A run of lone sequences, which carry no labels. -/
def runAlone (n : Nat) (acts : List (Nat × Act)) (desks : List Lone.Desk) :
    Option (List (Nat × Showing) × List Lone.Desk) :=
  run (Drive.alone n) (fun s _ => s) acts desks

/-- The label that an act has registered, if its reply says that there was a sequence. -/
def registeredBy : Act → Showing → List String
  | .onClose _ label, _ :: _ => [label]
  | .onClose .., [] | .use .., _ => []

def registered : List (Nat × Act) → List (Nat × Showing) → List String
  | (_, a) :: acts, (_, reply) :: replies => registeredBy a reply ++ registered acts replies
  | _, _ => []

end Desk

/-- How a book grows in a run in which labels are registered: each is put behind those of a
sequence. -/
inductive Book.Grows (b : Book) : List String → Book → Prop
  | refl : Grows b [] b
  | turn {labels : List String} {c d : Book} (h : Grows b labels c) (ht : Book.Turn c d) :
    Grows b labels d
  | registered {labels a noted : List String} {carrier : Carrier}
    {W : Multiset (Carrier × List String)} (label : String)
    (h : Grows b labels ((carrier, a) ::ₘ W, noted)) (hcarrier : ∀ i, carrier ≠ .fanout i) :
    Grows b (labels ++ [label]) ((carrier, a ++ [label]) ::ₘ W, noted)

namespace Book.Grows

variable {b c d : Book} {labels labels' : List String}

theorem turns (h : Grows b labels c) (ht : Book.Turns c d) : Grows b labels d := by
  induction ht with
  | refl => exact h
  | tail _ ht ih => exact ih.turn ht

theorem trans (h : Grows b labels c) (h' : Grows c labels' d) : Grows b (labels ++ labels') d := by
  induction h' with
  | refl => rwa [List.append_nil]
  | turn _ ht ih => exact ih.turn ht
  | registered label _ hcarrier ih =>
    rw [← List.append_assoc]
    exact ih.registered label hcarrier

end Book.Grows

theorem Ledger.exists_below (G : Ledger) (A : Assets) : ∃ r, G.Below r A := by
  induction A using Multiset.induction with
  | empty => exact ⟨0, below_zero⟩
  | cons a A ih =>
    obtain ⟨r, hr⟩ := ih
    have hself : ∃ q, G.Below q {a} := by
      cases hx : a.spot? with
      | none => exact ⟨0, fun b hb x hb' => by rw [Multiset.mem_singleton.mp hb, hx] at hb'; cases hb'⟩
      | some x =>
        refine ⟨G.rank x + 1, fun b hb y hb' => ?_⟩
        rw [Multiset.mem_singleton.mp hb, hx] at hb'
        obtain rfl := Option.some.inj hb'
        exact lt_add_one _
    obtain ⟨q, hq⟩ := hself
    refine ⟨max q r, ?_⟩
    rw [← Multiset.singleton_add, below_add]
    exact ⟨hq.mono (le_max_left q r), hr.mono (le_max_right q r)⟩

/-- The parts `A` are at hand in a sound store, and nothing is at work. -/
structure Quiet (tracked : Bool) (G : Ledger) (st : Store) (A : Twins.Parts) : Prop where
  sound : Sound G st (ownedBy A)
  fits : Twins.Fits G A
  idle : ∀ x, G.lent x = false
  tracked : G.tracked = tracked

/-- The same where the lone sequences keep no labels. -/
abbrev Rests := Quiet false

def Ledger.empty (tracked : Bool) : Ledger where
  stream _ := none
  before _ := []
  tracked := tracked
  snapshot _ := .of (.list [])
  live _ := false
  holders _ := 0
  rank _ := 0
  lent _ := false
  fanouts := 0
  cells := 0
  book := (0, [])

namespace Quiet

variable {t : Bool} {G : Ledger} {st : Store} {A B : Twins.Parts}

theorem empty : Quiet t (.empty t) .empty 0 where
  sound :=
    { fanouts := rfl
      cells := rfl
      branches := fun _ => rfl
      holdings := fun _ => rfl
      shared := by rintro _ _ ⟨⟩
      cell := by rintro _ _ ⟨⟩
      lentFanout := fun i => by simp [Ledger.empty, Store.empty]
      lentCell := fun i => by simp [Ledger.empty, Store.empty]
      present := by rintro _ ⟨⟩
      occupied := fun _ h => absurd h (Nat.lt_irrefl 0)
      book := rfl }
  fits := Twins.fits_zero
  idle _ := rfl
  tracked := rfl

theorem ready (h : Quiet t G st A) : ∃ r, Ready G st A 0 r := by
  obtain ⟨r, hr⟩ := G.exists_below (ownedBy A)
  refine ⟨r, h.sound.of_eq (add_zero _).symm, h.fits, hr, fun x hx => ?_⟩
  rw [h.idle] at hx
  cases hx

theorem reached {r : ℚ} {st' : Store} (h : Quiet t G st A) (h' : Reaches G 0 r B st') :
    ∃ G', Quiet t G' st' B ∧ Book.Grows G.book [] G'.book := by
  obtain ⟨G', h', hG⟩ := h'
  refine ⟨G', ⟨h'.sound.of_eq (add_zero _), h'.fits, fun x => ?_, hG.tracked.trans h.tracked⟩,
    Book.Grows.refl.turns hG.book⟩
  rw [hG.lent, h.idle]

theorem congr (h : Quiet t G st A) (hA : A = B) : Quiet t G st B := hA ▸ h

theorem wrapped {v : Twins.Value} (h : Quiet t G st (parts v + A)) :
    ∃ (s : Twins.Sequence) (G' : Ledger), s.left = Sequence.wrap (left v) ∧
      s.right = Sequence.wrap (right v) ∧ Quiet t G' st (parts s + A) ∧
      Book.Grows G.book [] G'.book := by
  have hwrap : (agreeing 0 (pullsAgree 0)).Triple Twins.Sequence (parts v + A)
      (fun _ => (pure (Sequence.wrap (left v)) : Engine Linked.Sequence))
      (fun _ => (pure (Sequence.wrap (right v)) : Option Lone.Sequence)) A := by
    refine Coupling.wrapped _ v fun s hl hr => ?_
    rw [← hl, ← hr]
    exact (agreeing 0 (pullsAgree 0)).pure s rfl
  obtain ⟨r, hr⟩ := h.ready
  obtain ⟨hx, -⟩ | ⟨s, st', hx, hY, -, hr⟩ := hwrap G st 0 r hr
  · cases hx
  · obtain ⟨hs, rfl⟩ := Prod.mk.inj (Except.ok.inj hx)
    obtain ⟨G', h', hG⟩ := h.reached hr
    exact ⟨s, G', hs.symm, hY.unique (.const _), h', hG⟩

end Quiet

def Twins.labelled (t : Bool) (s : Twins.Sequence) (label : String) : Twins.Sequence :=
  ⟨s.left.onClose label, Desk.keeping t s.right label⟩

theorem Twins.Matches.labelled {t : Bool} {G : Ledger} {s : Twins.Sequence} (h : Matches G s)
    (ht : G.tracked = t) (label : String) : Matches G (labelled t s label) := by
  cases h with
  | direct source hint finished hooks hsequence hcell hhooks =>
    cases t with
    | false =>
      exact .direct source hint finished ⟨hooks.left ++ [label], hooks.right⟩ hsequence hcell
        fun ht' => by simp [ht] at ht'
    | true =>
      exact .direct source hint finished ⟨hooks.left ++ [label], hooks.right ++ [label]⟩ hsequence
        hcell fun _ => congrArg (· ++ [label]) (hhooks ht)
  | branch place stream hint finished hooks hstream hhooks =>
    cases t with
    | false =>
      exact .branch place stream hint finished ⟨hooks.left ++ [label], hooks.right⟩ hstream
        fun ht' => by simp [ht] at ht'
    | true =>
      refine .branch place stream hint finished ⟨hooks.left ++ [label], hooks.right ++ [label]⟩
        hstream fun _ => ?_
      rw [hhooks ht, List.append_assoc]

theorem Sequence.assets_eq (s : Linked.Sequence) :
    s.assets = {.hooks s.origin.carrier s.hooks} + s.origin.assets := by
  cases s
  rfl

theorem Origin.carrier_ne_fanout (origin : Linked.Origin) (i : Nat) :
    origin.carrier ≠ .fanout i := by
  cases origin <;> exact Carrier.noConfusion

theorem Quiet.labelled {t : Bool} {G : Ledger} {st : Store} {A : Twins.Parts} {s : Twins.Sequence}
    (h : Quiet t G st (parts s + A)) (label : String) :
    ∃ G', Quiet t G' st (parts (Twins.labelled t s label) + A) ∧
      Book.Grows G.book [label] G'.book := by
  have hown (s : Twins.Sequence) : ownedBy (parts s + A) =
      {.hooks s.left.origin.carrier s.left.hooks} + (s.left.origin.assets + ownedBy A) := by
    rw [ownedBy_add, ownedBy_twin, Sequence.assets_eq, add_assoc]
  have hsound := h.sound.of_eq (hown s)
  have hfits := Twins.fits_add.mp h.fits
  have hagree (book : Book) (B : Assets) : G.Agrees (G.turn book) B :=
    ⟨fun _ _ => rfl, fun _ _ => rfl, rfl, fun _ _ => rfl⟩
  refine ⟨_, ⟨(hsound.rebook rfl rfl fun x hx => ?_).of_eq (hown (Twins.labelled t s label)).symm,
    Twins.fits_add.mpr ⟨?_, hfits.2.mono (hagree _ _)⟩, h.idle, h.tracked⟩, ?_⟩
  · rw [Sound.count_hooks_add hx, Sound.count_hooks_add hx]
    rfl
  · exact Twins.fits_twin.mpr
      (((Twins.fits_twin.mp hfits.1).labelled h.tracked label).mono (hagree _ _))
  · change Book.Grows _ _ (waitingIn _, _)
    rw [hsound.book, Sound.waitingIn_hooks_add, Sound.waitingIn_hooks_add]
    exact Book.Grows.refl.registered label s.left.origin.carrier_ne_fanout

/-- What came of a linked run with fuel `n` that started with the book `b`, beside lone ones. -/
def Concord (t : Bool) (γ : Type) {α β : Type} [Paired γ α β] [Parted Twins.Sequence Twins.Cell γ] (n : Nat)
    (b : Book) (labels : γ → List String) (B : Twins.Parts) (x : Except Fault (α × Store))
    (Y : Nat → Option β) : Prop :=
  (x = .error .outOfFuel ∧ Y n = none) ∨
    ∃ (c : γ) (G : Ledger) (st : Store), x = .ok (left c, st) ∧ Settles Y (right c) ∧
      (∀ b, Y n = some b → b = right c) ∧ Quiet t G st (parts c + B) ∧
      Book.Grows b (labels c) G.book

namespace Concord

variable {γ α β γ' α' β' : Type} [Paired γ α β] [Parted Twins.Sequence Twins.Cell γ]
  [Paired γ' α' β'] [Parted Twins.Sequence Twins.Cell γ'] {t : Bool} {n : Nat} {b b' : Book}
  {labels : γ → List String} {labels' : γ' → List String} {B B' : Twins.Parts}

theorem pure {G : Ledger} {st : Store} (c : γ) (hb : Book.Grows b (labels c) G.book)
    (h : Quiet t G st (parts c + B)) :
    Concord t γ n b labels B ((Pure.pure (left c) : Engine α) st)
      (fun _ => (Pure.pure (right c) : Option β)) :=
  .inr ⟨c, G, st, rfl, .const _, fun _ hb => (Option.some.inj hb).symm, h, hb⟩

theorem bind {st : Store} {X : Engine α} {f : α → Engine α'} {Y : Nat → Option β}
    {g : Nat → β → Option β'} (h : Concord t γ n b labels B (X st) Y)
    (hf : ∀ (c : γ) (G : Ledger) (st : Store), Quiet t G st (parts c + B) →
      Book.Grows b (labels c) G.book →
      Concord t γ' n b labels' B' (f (left c) st) (fun m => g m (right c))) :
    Concord t γ' n b labels' B' ((X >>= f) st) (fun m => Y m >>= g m) := by
  obtain ⟨hx, hY⟩ | ⟨c, G, st', hx, hY, hYn, h, hb⟩ := h
  · exact .inl ⟨Engine.bind_error hx, Option.bind_eq_none_iff.mpr fun b hb => by simp [hY] at hb⟩
  · obtain ⟨hx', hY'⟩ | ⟨c', G', st'', hx', hY', hYn', h', hb'⟩ := hf c G st' h hb
    · refine .inl ⟨(Engine.bind_eq hx).trans hx', Option.bind_eq_none_iff.mpr fun b hb => ?_⟩
      rw [hYn b hb]
      exact hY'
    · refine .inr ⟨c', G', st'', (Engine.bind_eq hx).trans hx', hY.bind hY', fun b hb => ?_, h', hb'⟩
      obtain ⟨b₁, hb₁, hb⟩ := Option.bind_eq_some_iff.mp hb
      rw [hYn b₁ hb₁] at hb
      exact hYn' b hb

theorem after {x : Except Fault (α × Store)} {Y : Nat → Option β} {before : List String}
    (hb : Book.Grows b before b') (h : Concord t γ n b' labels B x Y) :
    Concord t γ n b (fun c => before ++ labels c) B x Y := by
  obtain hx | ⟨c, G, st, hx, hY, hYn, h, hb'⟩ := h
  · exact .inl hx
  · exact .inr ⟨c, G, st, hx, hY, hYn, h, hb.trans hb'⟩

end Concord

namespace Quiet

variable {t : Bool} {G : Ledger} {st : Store} {desk : Twins.Desk} {B : Twins.Parts}

theorem concord {γ α β : Type} [Paired γ α β] [Parted Twins.Sequence Twins.Cell γ] {n : Nat}
    {A : Twins.Parts} {X : Nat → Engine α} {Y : Nat → Option β} (h : Quiet t G st A)
    (hX : (agreeing n (pullsAgree n)).Triple γ A X Y B) :
    Concord t γ n G.book (fun _ => []) B (X n st) Y := by
  obtain ⟨r, hr⟩ := h.ready
  obtain hx | ⟨c, st', hx, hY, hYn, hr⟩ := hX G st 0 r hr
  · exact .inl hx
  · obtain ⟨G', h', hG⟩ := h.reached hr
    exact .inr ⟨c, G', st', hx, hY, hYn, h', hG⟩

theorem act (h : Quiet t G st (parts desk + B)) (n : Nat) (a : Act) :
    Concord t (Showing × Twins.Desk) n G.book (fun c => Desk.registeredBy a c.1) B
      (Desk.act (Drive.ofFuel n) Sequence.onClose a (left desk) st)
      (fun m => Desk.act (Drive.alone m) (Desk.keeping t) a (right desk)) := by
  cases a with
  | use tool numbers =>
    have huse := Logic.frame _ B ((agreeing n (pullsAgree n)).use Sequence.onClose (Desk.keeping t) tool
      numbers desk)
    rw [zero_add] at huse
    exact h.concord huse
  | onClose number label =>
    have hat : at? (left desk) number = (at? desk number).map left := Desk.at?_map left desk number
    have hat' : at? (right desk) number = (at? desk number).map right :=
      Desk.at?_map right desk number
    simp only [Desk.act, hat, hat']
    cases hv : at? desk number with
    | none =>
      refine Concord.pure (([], desk) : Showing × Twins.Desk) .refl (h.congr ?_)
      rw [parts_pair, parts_reply, zero_add]
    | some v =>
      obtain ⟨s, G₁, hl, hr, h₁, hG₁⟩ := Quiet.wrapped (v := v)
        (A := parts (desk.set number none) + B) (h.congr (by rw [parts_desk_at hv, add_assoc]))
      obtain ⟨G₂, h₂, hG₂⟩ := h₁.labelled label
      have hhint := (Twins.fits_twin.mp (Twins.fits_add.mp h₁.fits).1).hint
      -- the desk with the labelled sequence in the place of the value
      set marked : Twins.Desk := desk.set number (some (.sequence (Twins.labelled t s label)))
      have hleft : left marked = (left desk).set number
          (some (.sequence ((Sequence.wrap (left v)).onClose label))) := by
        rw [← hl]
        exact left_desk_set desk number _
      have hright : right marked = (right desk).set number
          (some (.sequence (Desk.keeping t (Sequence.wrap (right v)) label))) := by
        rw [← hr]
        exact right_desk_set desk number _
      have hreply : (parts (([.ok (.sequence s.left.hint)], marked) : Showing × Twins.Desk) + B) =
          (parts (Twins.labelled t s label) + (parts (desk.set number none) + B) : Twins.Parts) := by
        rw [parts_pair, parts_reply, zero_add, parts_desk_replace hv, add_assoc]
        rfl
      have hsame : Concord t (Showing × Twins.Desk) n G.book
          (fun c => Desk.registeredBy (.onClose number label) c.1) B _ _ :=
        .pure ([.ok (.sequence s.left.hint)], marked) (hG₁.trans hG₂) (h₂.congr hreply.symm)
      simp only [Option.map_some, ← hleft, ← hright]
      rw [← hl, ← hr, Desk.hint_keeping, ← hhint]
      exact hsame

theorem actAt {desks : List Twins.Desk} (h : Quiet t G st (parts desks + B)) (n k : Nat) (a : Act) :
    Concord t (Showing × List Twins.Desk) n G.book (fun c => Desk.registeredBy a c.1) B
      (Desk.actAt (Drive.ofFuel n) Sequence.onClose k a (left desks) st)
      (fun m => Desk.actAt (Drive.alone m) (Desk.keeping t) k a (right desks)) := by
  have hat : (left desks)[k]? = desks[k]?.map left := List.getElem?_map
  have hat' : (right desks)[k]? = desks[k]?.map right := List.getElem?_map
  simp only [Desk.actAt, hat, hat']
  cases hdesk : desks[k]? with
  | none =>
    refine Concord.pure (([], desks) : Showing × List Twins.Desk) ?_ (h.congr ?_)
    · cases a <;> exact .refl
    · rw [parts_pair, parts_reply, zero_add]
  | some desk =>
    have hset := parts_desks_set (σ := Twins.Sequence) (κ := Twins.Cell) hdesk
    have hothers := hset []
    rw [show (parts ([] : Twins.Desk) : Twins.Parts) = 0 from rfl, add_zero] at hothers
    have hact := Quiet.act (B := parts (desks.set k []) + B)
      (h.congr (by rw [← hothers]; abel)) n a
    refine hact.bind fun c G' st' h' hG => ?_
    obtain ⟨reply, desk'⟩ := c
    have hleft : (left desks).set k (left desk') = left (desks.set k desk') := List.map_set.symm
    have hright : (right desks).set k (right desk') = right (desks.set k desk') := List.map_set.symm
    have hdesks := hset desk'
    rw [← hothers, add_right_comm] at hdesks
    have hreply : (parts (reply, desks.set k desk') + B : Twins.Parts) =
        parts (reply, desk') + (parts (desks.set k []) + B) := by
      rw [parts_pair, parts_reply, parts_pair, parts_reply, zero_add, zero_add,
        add_right_cancel hdesks]
      abel
    have hsame : Concord t (Showing × List Twins.Desk) n G.book
        (fun c => Desk.registeredBy a c.1) B _ _ :=
      .pure (reply, desks.set k desk') hG (h'.congr hreply.symm)
    simp only [left, right] at hleft hright hsame ⊢
    rw [hleft, hright]
    exact hsame

/-- After a run the store is sound, and the replies are those of lone sequences. -/
theorem run (n : Nat) (acts : List (Nat × Act)) :
    ∀ {G : Ledger} {st : Store} {desks : List Twins.Desk}, Quiet t G st (parts desks + B) →
      Concord t (List (Nat × Showing) × List Twins.Desk) n G.book (fun c => Desk.registered acts c.1) B
        (Desk.runLinked n acts (left desks) st) (fun m => Desk.run (Drive.alone m) (Desk.keeping t) acts (right desks)) := by
  induction acts with
  | nil =>
    intro G st desks h
    refine Concord.pure (([], desks) : List (Nat × Showing) × List Twins.Desk) .refl (h.congr ?_)
    rw [parts_pair, parts_replies, zero_add]
  | cons a acts ih =>
    intro G st desks h
    obtain ⟨k, a⟩ := a
    refine (h.actAt n k a).bind fun c G₁ st₁ h₁ hG₁ => ?_
    obtain ⟨reply, desks₁⟩ := c
    rw [parts_pair, parts_reply, zero_add] at h₁
    refine ((ih h₁).after hG₁).bind fun c G₂ st₂ h₂ hG₂ => ?_
    obtain ⟨replies, desks₂⟩ := c
    exact Concord.pure (((k, reply) :: replies, desks₂) : List (Nat × Showing) × List Twins.Desk) hG₂ h₂

end Quiet

theorem Rests.run (n : Nat) (acts : List (Nat × Act)) {B : Twins.Parts} {G : Ledger} {st : Store}
    {desks : List Twins.Desk} (h : Rests G st (parts desks + B)) :
    Concord false (List (Nat × Showing) × List Twins.Desk) n G.book
      (fun c => Desk.registered acts c.1) B (Desk.runLinked n acts (left desks) st)
      (fun m => Desk.runAlone m acts (right desks)) :=
  Quiet.run n acts h

end LazyCalc
