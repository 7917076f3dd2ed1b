import LazyCalc.Proofs.Desk.Recollection
import LazyCalc.Proofs.Desk.Tidy
import LazyCalc.Proofs.Engine.Carrying
import LazyCalc.Proofs.Fanout.Labelled
import Mathlib
/-!
What becomes of the labels that are registered in a run. Each waits with one carrier until that is
gone and is noted then: a sequence that is dropped, or a fan-out that its last branch leaves.
-/

namespace LazyCalc

namespace Book

variable {b c : Book} {labels : List String}

def all (b : Book) : Multiset String := (b.1.map fun w => (w.2 : Multiset String)).sum + b.2

def carriers (b : Book) : Multiset Carrier := b.1.map Prod.fst

theorem all_cons (carrier : Carrier) (a : List String) (W : Multiset (Carrier × List String))
    (noted : List String) : all ((carrier, a) ::ₘ W, noted) = a + all (W, noted) := by
  rw [all, all, Multiset.map_cons, Multiset.sum_cons, add_assoc]

/-- Labels change hands, but none is lost and none is noted twice. -/
theorem Turn.all_eq (h : Turn b c) : c.all = b.all := by
  cases h with
  | made W noted => rw [all_cons, Multiset.coe_nil, zero_add]
  | joined place W noted => rw [all_cons, Multiset.coe_nil, zero_add]
  | moved i a W noted => rw [all_cons, all_cons]
  | merged place a b W noted =>
    rw [all_cons, all_cons, all_cons, all_cons, Multiset.coe_nil, zero_add, ← Multiset.coe_add,
      add_assoc]
  | closed carrier a W noted =>
    rw [all_cons, all, all, ← Multiset.coe_add]
    abel

theorem Grows.all_eq (h : Grows b labels c) : c.all = b.all + labels := by
  induction h with
  | refl => rw [Multiset.coe_nil, add_zero]
  | turn _ ht ih => rw [ht.all_eq, ih]
  | registered label _ _ ih =>
    rw [all_cons] at ih ⊢
    rw [← Multiset.coe_add, ← Multiset.coe_add, ← add_assoc, ← ih]
    abel

end Book

/-- How labels are kept at a moment of a run, and from there on. -/
structure LabelsKept (M : Moment) : Prop where
  /-- What was registered has come to wait where it does, or to be noted, in turns. -/
  past : Book.Grows (0, []) M.labels M.book
  /-- What was registered waits, or was noted once. -/
  once : M.book.all = M.labels
  branch : ∀ p, M.book.carriers.count (.branch p) ≤ 1
  fanout : ∀ i, M.book.carriers.count (.fanout i) ≤ 1
  /-- The labels of a fan-out wait for its last branch. -/
  last : ∀ i, .fanout i ∈ M.book.carriers ↔ ∃ slot, .branch ⟨i, slot⟩ ∈ M.book.carriers
  /-- What is in the store, and may carry labels, is there for those that read it. -/
  tidy : Tidy M.store M.desk
  /-- When everything has been dropped, everything has been noted. -/
  gone : (∀ o ∈ M.desk, o = none) → M.book.1 = 0 ∧ (closedIn M.store.log).Perm M.labels
  future : ∀ (n : Nat) (acts : List (Nat × Act)),
    Desk.runLinked n acts [M.desk] M.store = .error .outOfFuel ∨
      ∃ (replies : List (Nat × Showing)) (M' : Moment),
        Desk.runLinked n acts [M.desk] M.store = .ok ((replies, [M'.desk]), M'.store) ∧
        M'.labels = M.labels ++ Desk.registered acts replies ∧
        Book.Grows M.book (Desk.registered acts replies) M'.book
  /-- Beside the runs that lead to the moment there are runs of lone sequences, which keep the labels
  of all that they come from; all those labels wait. -/
  recalled : (∃ lone, Remembered M.labels M.desk M.store lone) ∧
    ∀ lone, Remembered M.labels M.desk M.store lone →
      ∃ (desk : Twins.Desk) (R : Recollection), left desk = M.desk ∧ right desk = lone ∧
        R.Tells M.book M.store desk
  /-- A label is not noted as long as there is a sequence on which it was registered, or one that
  comes from that. -/
  unnoted : ∀ (R : Recollection) (s : Twins.Sequence) (label : String), R.Recalls M.book s →
    label ∈ s.right.hooks → M.labels.count label = 1 → label ∉ closedIn M.store.log
  /-- However often a sequence is pulled, to its end or beyond, its labels stay with it, and those of
  what it reads with that, be it in a fan-out. -/
  pulled : ∀ (n : Nat) (s s' : Linked.Sequence) (x : Option Linked.Item) (st st' : Store),
    (Drive.ofFuel n).pull s st = .ok ((x, s'), st') → s'.hooks = s.hooks ∧ s'.labels = s.labels
  asked : ∀ (n i slot : Nat) (x : Option Linked.Item) (st st' : Store),
    pullBranch (Drive.ofFuel n) ⟨i, slot⟩ st = .ok (x, st') →
      ∃ shared shared' : Shared, st.Shows i (.held shared) ∧ st'.Shows i (.held shared') ∧
        shared'.hooks = shared.hooks ∧ shared'.source.labels = shared.source.labels
  forked : ∀ (s : Linked.Sequence) (forks : Linked.Sequence × Linked.Sequence) (st st' : Store),
    s.fork st = .ok (forks, st') → ∃ i, s.HandsOver st forks i st'
  /-- The labels of a fan-out stay there, in their order, and are noted in that order once it is
  gone. -/
  handed : ∀ (n : Nat) (acts : List (Nat × Act)) (replies : List (Nat × Showing)) (M' : Moment),
    Desk.runLinked n acts [M.desk] M.store = .ok ((replies, [M'.desk]), M'.store) →
    ∀ (i : Nat) (shared : Shared), M.store.Shows i (.held shared) →
      (∃ shared', M'.store.Shows i (.held shared') ∧ shared.hooks <+: shared'.hooks) ∨
        M'.store.Shows i .vacant ∧ ∃ noted, shared.hooks <:+: noted ∧
          closedIn M'.store.log = closedIn M.store.log ++ noted
  /-- Wherever something is dropped, the labels of a sequence come before those of its source. -/
  nested : ∀ (ds : List Debris) (st st' : Store), release ds st = .ok st' →
    NotedBetween (ds.flatMap Debris.closing) st.log st'.log
  /-- Wherever the last branch of a fan-out is dropped, its own labels come before those of the
  fan-out, and these before those of the source. -/
  ended : ∀ (i slot : Nat) (hint : Hint) (finished : Bool) (hooks : List String) (shared : Shared)
    (rest : List Debris) (st st' : Store), st.Shows i (.held shared) →
    (shared.fanout.leave slot).isDeserted = true →
    release (.sequence ⟨.branch ⟨i, slot⟩, hint, finished, hooks⟩ :: rest) st = .ok st' →
    NotedBetween (hooks ++ (Source.itemsClosing (shared.fanout.backlog slot) ++
      (shared.hooks ++ shared.source.closing ++ rest.flatMap Debris.closing))) st.log st'.log

theorem Desk.attended (desk : Linked.Desk) : Attended (Desk.assets desk) := by
  refine .sum fun A hA => ?_
  obtain ⟨o, -, rfl⟩ := List.mem_map.mp hA
  cases o with
  | none => exact .zero
  | some v => exact v.attended

namespace Moment

variable (M : Moment)

theorem staffed : Staffed (fun i : Nat => Place.isHeld M.store.fanouts[i]?)
    (M.store.assets + Desk.assets M.desk) :=
  M.store.staffed.add (Desk.attended M.desk)

theorem count_branch (p : Branch) :
    M.book.carriers.count (.branch p) = if (M.store.slotOf p).isSome then 1 else 0 :=
  (M.staffed.branch p).trans (M.tidy.branch p)

theorem branch_mem_iff (p : Branch) :
    .branch p ∈ M.book.carriers ↔ (M.store.slotOf p).isSome = true := by
  rw [← Multiset.count_pos, count_branch]
  split <;> simp [*]

theorem fanout_mem_iff (i : Nat) :
    .fanout i ∈ M.book.carriers ↔ ∃ slot, .branch ⟨i, slot⟩ ∈ M.book.carriers := by
  have hcount : M.book.carriers.count (.fanout i) = (Place.isHeld M.store.fanouts[i]?).toNat :=
    M.staffed.fanout i
  simp only [branch_mem_iff]
  rw [← Multiset.count_pos, hcount]
  constructor
  · intro h
    cases hi : M.store.fanouts[i]? with
    | none => simp [hi, Place.isHeld] at h
    | some place =>
      cases place with
      | vacant => simp [hi, Place.isHeld] at h
      | lent => simp [hi, Place.isHeld] at h
      | held shared => exact M.tidy.fanout i shared hi
  · rintro ⟨slot, h⟩
    cases hi : M.store.fanouts[i]? with
    | none => simp [Store.slotOf, hi] at h
    | some place =>
      cases place with
      | vacant => simp [Store.slotOf, hi] at h
      | lent => simp [Store.slotOf, hi] at h
      | held shared => exact Nat.one_pos

theorem book_of_gone (h : ∀ o ∈ M.desk, o = none) : M.book.1 = 0 := by
  obtain ⟨desk, G, hdesk, hrests, -⟩ := M.rests
  have hassets : Desk.assets M.desk = 0 := by
    refine List.sum_eq_zero fun A hA => ?_
    obtain ⟨o, ho, rfl⟩ := List.mem_map.mp hA
    rw [h o ho]
    rfl
  have hsound := hrests.sound
  rw [ownedBy_desk, hdesk, hassets] at hsound
  rw [book, hassets, hsound.assets_eq_zero]
  rfl

theorem all_book : M.book.all = M.labels := by
  obtain ⟨desk, G, hdesk, h, hG⟩ := M.rests
  rw [book, ← hdesk, ← h.book_eq, hG.all_eq]
  exact zero_add _

theorem recalled (lone : Lone.Desk) (h : Remembered M.labels M.desk M.store lone) :
    ∃ (desk : Twins.Desk) (R : Recollection), left desk = M.desk ∧ right desk = lone ∧
      R.Tells M.book M.store desk := by
  obtain ⟨desk, G, hleft, hright, hquiet⟩ := h.quiet
  obtain ⟨R, hR⟩ := hquiet.recollection
  refine ⟨desk, R, hleft, hright, ?_⟩
  rwa [book, ← hleft, ← hquiet.book_eq]

theorem not_noted_of_waits {label : String} {w : Carrier × List String} (hw : w ∈ M.book.1)
    (hlabel : label ∈ w.2) (honce : M.labels.count label = 1) : label ∉ closedIn M.store.log := by
  intro hnoted
  have hall : M.book.all.count label = 1 := by
    rw [M.all_book, Multiset.coe_count]
    exact honce
  obtain ⟨W, hW⟩ := Multiset.exists_cons_of_mem hw
  have hwaits : 0 < w.2.count label := List.count_pos_iff.mpr hlabel
  have hclosed : 0 < M.book.2.count label := List.count_pos_iff.mpr hnoted
  rw [Book.all, hW, Multiset.map_cons, Multiset.sum_cons, Multiset.count_add, Multiset.count_add,
    Multiset.coe_count, Multiset.coe_count] at hall
  omega

theorem handed {n : Nat} {acts : List (Nat × Act)} {replies : List (Nat × Showing)} {M' : Moment}
    (hrun : Desk.runLinked n acts [M.desk] M.store = .ok ((replies, [M'.desk]), M'.store)) {i : Nat}
    {shared : Shared} (hi : M.store.Shows i (.held shared)) :
    (∃ shared', M'.store.Shows i (.held shared') ∧ shared.hooks <+: shared'.hooks) ∨
      M'.store.Shows i .vacant ∧ ∃ noted, shared.hooks <:+: noted ∧
        closedIn M'.store.log = closedIn M.store.log ++ noted := by
  have hminds := (Store.Minds.kept i shared.hooks M.store.log).run n acts _ _ _ _ (.of_shows hi) hrun
  obtain ⟨noted, hlog, hvacant⟩ := hminds.noted
  cases hplace : M'.store.fanouts[i]? with
  | none => exact absurd (Array.getElem?_eq_none_iff.mp hplace) (Nat.not_le_of_lt hminds.lt)
  | some place =>
    cases place with
    | vacant => exact .inr ⟨hplace, noted, hvacant hplace, hlog⟩
    | lent => exact absurd hplace (M'.tidy.fanoutIdle i)
    | held shared' => exact .inl ⟨shared', hplace, hminds.held shared' hplace⟩

/-- A label is noted once, when what carries it goes: the sequence on which it was registered, or
the fan-out that this was forked into since, with its last branch. -/
theorem labels_kept : LabelsKept M where
  past := by
    obtain ⟨desk, G, hdesk, h, hG⟩ := M.rests
    rwa [book, ← hdesk, ← h.book_eq]
  once := M.all_book
  branch p := by
    rw [count_branch]
    split <;> simp
  fanout i := (M.staffed.fanout i).trans_le (Bool.toNat_le _)
  last := M.fanout_mem_iff
  tidy := M.tidy
  gone h := by
    have hwaiting := M.book_of_gone h
    refine ⟨hwaiting, Multiset.coe_eq_coe.mp ?_⟩
    rw [← M.all_book, Book.all, hwaiting]
    exact (zero_add _).symm
  future := M.run
  recalled := ⟨M.reached.remembered, M.recalled⟩
  unnoted R s label h hlabel honce := by
    obtain ⟨w, hw, hwaits, -⟩ := h.waits hlabel
    exact M.not_noted_of_waits hw hwaits honce
  pulled n s s' x st st' := Sequence.labels_of_pull
  asked n i slot x st st' := Store.labels_of_pullBranch
  forked s forks st st' := Sequence.handsOver
  handed n acts replies M' hrun i shared := M.handed hrun
  nested := release_notes
  ended i slot hint finished hooks shared rest st st' := release_last_branch

end Moment

/-- Two branches of a fan-out have a label each; the one that was registered later comes to the
fan-out first, because its branch is forked first, and is noted first. -/
theorem Moment.labels_in_order_of_forks : ∃ M M' : Moment,
    M.labels = ["first", "second"] ∧ (.fanout 0, ["second", "first"]) ∈ M.book.1 ∧
      M'.labels = ["first", "second"] ∧ closedIn M'.store.log = ["second", "first"] := by
  let forks : List (Nat × Act) :=
    [(0, .use (.elements [] .unknown) []), (0, .use .fork [0]), (0, .onClose 2 "first"),
      (0, .onClose 1 "second"), (0, .use .fork [1]), (0, .use .fork [2])]
  let branch (slot : Nat) : Option Linked.Value :=
    some (.sequence ⟨.branch ⟨0, slot⟩, .unknown, false, []⟩)
  let slot : Option (Slot Linked.Item) := some (.ofList [])
  let shared : Shared :=
    ⟨.items [], ⟨[slot, slot, slot, slot], false⟩, ["second", "first"]⟩
  let store : Store := ⟨#[.held shared], #[], #[]⟩
  let desk : Linked.Desk := [none, none, none, branch 0, branch 2, branch 1, branch 3]
  have hforks : Reached ["first", "second"] desk store := .run 0 forks .start rfl
  have hdrops : Desk.runLinked 0 [(0, .use .drop [3, 4, 5, 6])] [desk] store =
      .ok (([(0, [])], [[none, none, none, none, none, none, none]]),
        ⟨#[.vacant], #[], #[.closed "second", .closed "first"]⟩) := by cbv
  have howned : .hooks (.fanout 0) ["second", "first"] ∈ store.assets :=
    Store.mem_assets.mpr (.inl ⟨0, shared, rfl,
      Multiset.mem_add.mpr (.inr (Multiset.mem_singleton_self _))⟩)
  have hwaits : (.fanout 0, ["second", "first"]) ∈ waitingIn (store.assets + Desk.assets desk) :=
    (Multiset.mem_filterMap _ _).mpr ⟨_, Multiset.mem_add.mpr (.inl howned), rfl⟩
  exact ⟨⟨_, _, _, hforks⟩, ⟨_, _, _, .run 0 _ hforks hdrops⟩, rfl, hwaits, rfl, rfl⟩

end LazyCalc
