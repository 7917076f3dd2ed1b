import LazyCalc.Proofs.Desk.Separate
/-!
Moments of runs that start with nothing, and what comes of a run from there on: as often as it comes
to an end it gives the replies that lone sequences give, whatever is shared.
-/

namespace LazyCalc

open Filter

def Desk.assets (desk : Linked.Desk) : Assets := (desk.map fun o => o.elim 0 Tree.assets).sum

theorem ownedBy_desk (desk : Twins.Desk) : ownedBy (parts desk) = Desk.assets (left desk) := by
  induction desk with
  | nil => rfl
  | cons o desk ih =>
    rw [show (parts (o :: desk) : Twins.Parts) = parts o + parts desk from List.sum_cons,
      ownedBy_add, ih]
    refine Eq.trans ?_ List.sum_cons.symm
    cases o with
    | none => rfl
    | some v => exact congrArg (· + _) (ownedBy_value v)

/-- With enough fuel `a` comes out, and with less nothing else does. -/
def Yields {α : Type} (X : Nat → Engine α) (st : Store) (a : α) : Prop :=
  (∀ᶠ n in atTop, ∃ st', X n st = .ok (a, st')) ∧
    ∀ n, X n st = .error .outOfFuel ∨ ∃ st', X n st = .ok (a, st')

theorem Yields.unique {α : Type} {X : Nat → Engine α} {st : Store} {a b : α} (ha : Yields X st a)
    (hb : Yields X st b) : a = b := by
  obtain ⟨n, ⟨st₁, ha⟩, st₂, hb⟩ := (ha.1.and hb.1).exists
  exact (Prod.mk.inj (Except.ok.inj (ha.symm.trans hb))).1

namespace Concord

variable {γ α β δ : Type} [Paired γ α β] [Parted Twins.Sequence Twins.Cell γ] {t : Bool} {b : Book}
  {labels : γ → List String} {B : Twins.Parts} {st : Store} {X : Nat → Engine α}
  {Y : Nat → Option β} {shown : α → δ} {shown' : β → δ}

theorem yields_iff (h : ∀ n, Concord t γ n b labels B (X n st) Y)
    (hshown : ∀ c : γ, shown (left c) = shown' (right c)) (d : δ) :
    Yields (fun n => shown <$> X n) st d ↔ Settles (fun n => (Y n).map shown') d := by
  have hok {n : Nat} {c : γ} {st' : Store} (hx : X n st = .ok (left c, st'))  :
      (shown <$> X n) st = .ok (shown' (right c), st') := by
    rw [← hshown]
    exact Engine.map_eq hx
  constructor
  · rintro ⟨hd, -⟩
    obtain ⟨n, st', hn⟩ := hd.exists
    obtain ⟨hx, -⟩ | ⟨c, G, st'', hx, hY, -⟩ := h n
    · cases (Engine.map_error hx).symm.trans hn
    · obtain ⟨rfl, rfl⟩ := Prod.mk.inj (Except.ok.inj ((hok hx).symm.trans hn))
      filter_upwards [hY] with m hm
      rw [hm]
      rfl
  · intro hd
    have hsame {n : Nat} {c : γ} {st' : Store} (hx : X n st = .ok (left c, st'))
        (hY : Settles Y (right c)) : ∃ st', (shown <$> X n) st = .ok (d, st') := by
      refine ⟨st', ?_⟩
      have hc : Settles (fun n => (Y n).map shown') (shown' (right c)) := by
        filter_upwards [hY] with m hm
        rw [hm]
        rfl
      rw [hok hx, hc.unique hd]
    refine ⟨?_, fun n => ?_⟩
    · filter_upwards [hd] with n hn
      obtain ⟨-, hY⟩ | ⟨c, G, st', hx, hY, -⟩ := h n
      · rw [hY] at hn
        cases hn
      · exact hsame hx hY
    · obtain ⟨hx, -⟩ | ⟨c, G, st', hx, hY, -⟩ := h n
      · exact .inl (Engine.map_error hx)
      · exact .inr (hsame hx hY)

end Concord

namespace Desk

def replies (n : Nat) (acts : List (Nat × Act)) (desks : List Linked.Desk) :
    Engine (List (Nat × Showing)) :=
  Prod.fst <$> runLinked n acts desks

theorem yields_replies_iff {G : Ledger} {st : Store} {desks : List Twins.Desk} {B : Twins.Parts}
    (h : Rests G st (parts desks + B)) (acts : List (Nat × Act)) (rs : List (Nat × Showing)) :
    Yields (fun n => replies n acts (left desks)) st rs ↔ Replies acts (right desks) rs :=
  Concord.yields_iff (fun n => Rests.run n acts h) (fun _ => rfl) rs

end Desk

theorem Desk.length_run {n : Nat} {acts : List (Nat × Act)} {desks desks' : List Linked.Desk}
    {st st' : Store} {replies : List (Nat × Showing)}
    (h : runLinked n acts desks st = .ok ((replies, desks'), st')) :
    desks'.length = desks.length := by
  induction acts generalizing desks st replies with
  | nil =>
    obtain ⟨hc, -⟩ := Prod.mk.inj (Except.ok.inj h)
    rw [(Prod.mk.inj hc).2]
  | cons a acts ih =>
    obtain ⟨k, a⟩ := a
    obtain ⟨⟨reply, desks₁⟩, st₁, hact, h⟩ := Engine.of_bind_ok h
    obtain ⟨⟨replies', desks₂⟩, st₂, hrun, h⟩ := Engine.of_bind_ok h
    obtain ⟨hc, rfl⟩ := Prod.mk.inj (Except.ok.inj h)
    obtain ⟨-, rfl⟩ := Prod.mk.inj hc
    have hlength : desks₂.length = desks₁.length := ih hrun
    refine hlength.trans ?_
    unfold actAt at hact
    cases hdesk : desks[k]? with
    | none =>
      rw [hdesk] at hact
      obtain ⟨hc, -⟩ := Prod.mk.inj (Except.ok.inj hact)
      rw [(Prod.mk.inj hc).2]
    | some desk =>
      rw [hdesk] at hact
      obtain ⟨⟨reply', desk'⟩, st₃, -, hact⟩ := Engine.of_bind_ok hact
      obtain ⟨hc, -⟩ := Prod.mk.inj (Except.ok.inj hact)
      rw [← (Prod.mk.inj hc).2, List.length_set]

/-- What lies on a desk and what is in the store after runs that started with nothing, each with any
fuel, and the labels that were registered on the way. -/
inductive Reached : List String → Linked.Desk → Store → Prop
  | start : Reached [] [] .empty
  | run {labels : List String} {desk desk' : Linked.Desk} {st st' : Store}
    {replies : List (Nat × Showing)} (n : Nat) (acts : List (Nat × Act)) (h : Reached labels desk st)
    (hrun : Desk.runLinked n acts [desk] st = .ok ((replies, [desk']), st')) :
    Reached (labels ++ Desk.registered acts replies) desk' st'

structure Moment where
  labels : List String
  desk : Linked.Desk
  store : Store
  reached : Reached labels desk store

namespace Moment

instance : Inhabited Moment := ⟨⟨[], [], .empty, .start⟩⟩

def book (M : Moment) : Book :=
  (waitingIn (M.store.assets + Desk.assets M.desk), closedIn M.store.log)

end Moment

theorem Quiet.book_eq {t : Bool} {G : Ledger} {st : Store} {desk : Twins.Desk}
    (h : Quiet t G st (parts desk)) :
    G.book = (waitingIn (st.assets + Desk.assets (left desk)), closedIn st.log) := by
  rw [← ownedBy_desk]
  exact h.sound.book

/-- A run from a desk in a sound store runs out of fuel or comes to such a desk, and the run of the
lone sequences to theirs. -/
theorem Quiet.runOne {t : Bool} {G : Ledger} {st : Store} {desk : Twins.Desk}
    (h : Quiet t G st (parts desk)) (n : Nat) (acts : List (Nat × Act)) :
    Desk.runLinked n acts [left desk] st = .error .outOfFuel ∨
      ∃ (replies : List (Nat × Showing)) (desk' : Twins.Desk) (G' : Ledger) (st' : Store),
        Desk.runLinked n acts [left desk] st = .ok ((replies, [left desk']), st') ∧
        Settles (fun m => Desk.run (Drive.alone m) (Desk.keeping t) acts [right desk])
          (replies, [right desk']) ∧
        Quiet t G' st' (parts desk') ∧ Book.Grows G.book (Desk.registered acts replies) G'.book := by
  have hone (desk : Twins.Desk) : (parts [desk] : Twins.Parts) = parts desk := by
    rw [parts_desks_cons, parts_desks_nil, add_zero]
  obtain ⟨hx, -⟩ | ⟨⟨replies, desks⟩, G', st', hx, hY, -, h', hG⟩ :=
    Quiet.run (B := 0) n acts (h.congr (B := parts [desk] + 0) (by rw [hone, add_zero]))
  · exact .inl hx
  · have hlength : (left desks).length = 1 := Desk.length_run hx
    match desks, hlength with
    | [desk'], _ =>
      refine .inr ⟨replies, desk', G', st', hx, hY, h'.congr ?_, hG⟩
      rw [parts_pair, parts_replies, zero_add, add_zero, hone]

/-- At every moment the store is sound, and there are lone sequences for all on the desk. -/
theorem Moment.rests (M : Moment) :
    ∃ (desk : Twins.Desk) (G : Ledger), left desk = M.desk ∧ Rests G M.store (parts desk) ∧
      Book.Grows (0, []) M.labels G.book := by
  obtain ⟨labels, desk, st, h⟩ := M
  induction h with
  | start => exact ⟨[], .empty false, rfl, .empty, .refl⟩
  | run n acts h hrun ih =>
    obtain ⟨desk, G, rfl, h, hG⟩ := ih
    obtain hx | ⟨replies, desk', G', st', hx, -, h', hG'⟩ := h.runOne n acts
    · cases hx.symm.trans hrun
    · obtain ⟨hc, rfl⟩ := Prod.mk.inj (Except.ok.inj (hx.symm.trans hrun))
      obtain ⟨rfl, hdesk⟩ := Prod.mk.inj hc
      exact ⟨desk', G', (List.cons.inj hdesk).1, h', hG.trans hG'⟩

/-- From a moment a run goes on to another moment, unless its fuel is spent. -/
theorem Moment.run (M : Moment) (n : Nat) (acts : List (Nat × Act)) :
    Desk.runLinked n acts [M.desk] M.store = .error .outOfFuel ∨
      ∃ (replies : List (Nat × Showing)) (M' : Moment),
        Desk.runLinked n acts [M.desk] M.store = .ok ((replies, [M'.desk]), M'.store) ∧
        M'.labels = M.labels ++ Desk.registered acts replies ∧
        Book.Grows M.book (Desk.registered acts replies) M'.book := by
  obtain ⟨desk, G, hdesk, h, -⟩ := M.rests
  rw [Moment.book, ← hdesk, ← h.book_eq]
  obtain hx | ⟨replies, desk', G', st', hx, -, h', hG⟩ := h.runOne n acts
  · exact .inl hx
  · refine .inr ⟨replies, ⟨_, left desk', st', .run n acts M.reached (hdesk ▸ hx)⟩, hx, rfl, ?_⟩
    rw [Moment.book, ← h'.book_eq]
    exact hG

end LazyCalc
