import LazyCalc.Proofs.Desk.Labels
/-!
A sequence with a label of its own, at any later moment: all that comes from it reads one source,
which has been asked as often as any of its readers would have asked it alone, and for what waits for
that reader besides.
-/

namespace LazyCalc

/-- Of the sequences that have a label, or come from one that has it, there is just one, which has
its source to itself, or they are all branches of one fan-out. -/
inductive Recollection.OneSource (R : Recollection) (b : Book) (label : String) : Prop
  | alone (labels : List String) (hwait : b.1.filter (label ∈ ·.2) = {(.direct, labels)})
    (h : ∀ s, R.Recalls b s → label ∈ s.right.hooks →
      ∃ source, s.left.origin = .direct source ∧ label ∈ s.left.hooks)
  | shared (i : Nat)
    (h : ∀ s, R.Recalls b s → label ∈ s.right.hooks → ∃ slot, s.left.origin = .branch ⟨i, slot⟩)

/-- Every reader of a source that counts how often it is asked would alone have asked it just so
often that what waits for it makes up the difference. -/
def Recollection.Counted (R : Recollection) (st : Store) : Prop :=
  ∀ (i : Nat) (shared : Shared) (answer : Nat → Option PlainItem) (asked : Nat),
    st.Shows i (.held shared) → shared.source = .generated (.answers answer asked) →
    shared.fanout.done = false → ∀ (slot : Nat) (s : Slot Linked.Item) (S : Lone.Source),
      shared.fanout.slot? slot = some s → R.stream ⟨i, slot⟩ = some S →
      ∃ k, S = .generated (.answers answer k) ∧ k + s.backlog.toList.length = asked

section

variable {R : Recollection} {b : Book} {s : Twins.Sequence}

/-- A label that a lone sequence has waits with a sequence that has its source to itself only if that
stands for it. -/
theorem Recollection.Recalls.of_waits (h : R.Recalls b s) {label : String}
    (hlabel : label ∈ s.right.hooks) {w : Carrier × List String}
    (hsole : ∀ w' ∈ b.1, label ∈ w'.2 → w' = w) :
    match w.1 with
    | .direct => ∃ source, s.left.origin = .direct source ∧ label ∈ s.left.hooks
    | .branch place => s.left.origin = .branch place
    | .fanout i => ∃ slot, s.left.origin = .branch ⟨i, slot⟩ := by
  cases h with
  | direct source hint finished hooks hwait =>
    rw [← hsole _ hwait hlabel]
    exact ⟨_, rfl, hlabel⟩
  | branch place stream hint finished before hooks passed hstream hwait hpassed hbefore =>
    obtain hbefore' | hown := List.mem_append.mp hlabel
    · rw [← hsole _ hpassed (hbefore.subset hbefore')]
      exact ⟨place.slot, rfl⟩
    · rw [← hsole _ hwait hown]

theorem Book.sole {label : String} (h : b.all.count label = 1) {w : Carrier × List String}
    (hw : w ∈ b.1) (hlabel : label ∈ w.2) : b.1.filter (label ∈ ·.2) = {w} := by
  obtain ⟨W, hW⟩ := Multiset.exists_cons_of_mem hw
  have hwaits : 0 < w.2.count label := List.count_pos_iff.mpr hlabel
  rw [Book.all, hW, Multiset.map_cons, Multiset.sum_cons, Multiset.count_add, Multiset.count_add,
    Multiset.coe_count] at h
  have hrest : (W.map fun w => (w.2 : Multiset String)).sum.count label = 0 := by omega
  have hmore : (w ::ₘ W).filter (label ∈ ·.2) = w ::ₘ W.filter (label ∈ ·.2) :=
    Multiset.filter_cons_of_pos W hlabel
  rw [hW, hmore, Multiset.filter_eq_nil.mpr, Multiset.cons_zero]
  intro w' hw' hlabel'
  obtain ⟨W', rfl⟩ := Multiset.exists_cons_of_mem hw'
  rw [Multiset.map_cons, Multiset.sum_cons, Multiset.count_add, Multiset.coe_count] at hrest
  have : 0 < w'.2.count label := List.count_pos_iff.mpr hlabel'
  omega

end

theorem Lone.of_step_answers {n : Nat} {S : Lone.Source} {item : Option Lone.Item}
    {answer : Nat → Option PlainItem} {asked : Nat}
    (h : S.step (Drive.alone n) = some (item, .generated (.answers answer asked))) :
    ∃ k, S = .generated (.answers answer k) ∧ asked = k + 1 := by
  cases S with
  | generated g =>
    cases g with
    | answers answer' k =>
      obtain ⟨-, hsource⟩ := Prod.mk.inj (Option.some.inj h)
      obtain ⟨rfl, rfl⟩ := Generator.answers.inj (Source.generated.inj hsource)
      exact ⟨k, rfl, rfl⟩
    | bounded _ | counted _ | permutations _ _ _ | product _ _ _ => cases h
  | items remaining => cases remaining <;> cases h
  | mapped inner mapping =>
    obtain ⟨⟨_ | _ | _, _⟩, -, h⟩ := Option.bind_eq_some_iff.mp h
    · cases h
    · cases h
    · obtain ⟨_, -, h⟩ := Option.bind_eq_some_iff.mp h
      cases h
  | filtered inner test held invert =>
    obtain ⟨⟨_ | _, _⟩, -, h⟩ := Option.bind_eq_some_iff.mp h <;> cases h
  | zipped left right pairing =>
    obtain ⟨⟨_ | _ | _, _⟩, -, h⟩ := Option.bind_eq_some_iff.mp h
    · cases h
    · cases h
    · obtain ⟨⟨_ | _ | _, _⟩, -, h⟩ := Option.bind_eq_some_iff.mp h
      all_goals
        obtain ⟨_, -, h⟩ := Option.bind_eq_some_iff.mp h
        cases h
  | window inner skip take =>
    cases take with
    | zero => cases h
    | succ take =>
      obtain ⟨_, -, h⟩ := Option.bind_eq_some_iff.mp h
      obtain ⟨_, -, h⟩ := Option.bind_eq_some_iff.mp h
      cases h

theorem Leads.counted {S : Lone.Source} {Xs : List Lone.Item} {answer : Nat → Option PlainItem}
    {asked : Nat} (h : Leads false (.generated (.answers answer asked)) S Xs) :
    ∃ k, S = .generated (.answers answer k) ∧ k + Xs.length = asked := by
  generalize hd : false = done at h
  generalize hZ : Source.generated (.answers answer asked) = Z at h
  induction h with
  | caught Z => exact ⟨asked, hZ.symm, rfl⟩
  | ended h => cases hd
  | failed h => cases hd
  | next h hXs ih =>
    obtain ⟨k, rfl, rfl⟩ := ih hd hZ
    obtain ⟨n, hn⟩ := h.exists
    obtain ⟨k, rfl, rfl⟩ := Lone.of_step_answers hn
    exact ⟨k, rfl, by rw [List.length_cons]; omega⟩

theorem Recollection.Tells.counted {R : Recollection} {b : Book} {st : Store} {desk : Twins.Desk}
    (h : R.Tells b st desk) : R.Counted st := by
  intro i shared answer asked hi hsource hdone slot s S hs hS
  obtain ⟨hleft, -⟩ := h.source i shared hi
  obtain ⟨xs, hxs, -, hleads⟩ := h.backlog i shared slot s hi hs
  have hright : right (R.source i) = .generated (.answers answer asked) := by
    rw [hsource] at hleft
    cases hR : R.source i with
    | generated g =>
      rw [hR] at hleft
      obtain rfl := Source.generated.inj hleft
      rfl
    | items _ | mapped _ _ | filtered _ _ _ _ | zipped _ _ _ | window _ _ _ =>
      rw [hR] at hleft
      cases hleft
  obtain ⟨k, rfl, hk⟩ := (hright ▸ hdone ▸ hleads S hS).counted
  refine ⟨k, rfl, ?_⟩
  rw [← hk, ← hxs]
  exact congrArg (k + ·) ((List.length_map _).trans (List.length_map _).symm)

/-- All that comes from a sequence with a label of its own reads one source. -/
theorem Moment.one_source (M : Moment) (R : Recollection) (label : String)
    (h : M.labels.count label = 1) : R.OneSource M.book label := by
  have hall : M.book.all.count label = 1 := by
    rw [M.all_book, Multiset.coe_count]
    exact h
  by_cases hwaits : ∃ w ∈ M.book.1, label ∈ w.2
  · obtain ⟨⟨carrier, labels⟩, hw, hlabel⟩ := hwaits
    have hfilter := Book.sole hall hw hlabel
    have hsole (w' : Carrier × List String) (hw' : w' ∈ M.book.1) (hlabel' : label ∈ w'.2) :
        w' = (carrier, labels) :=
      Multiset.mem_singleton.mp (hfilter ▸ Multiset.mem_filter.mpr ⟨hw', hlabel'⟩)
    cases carrier with
    | direct => exact .alone labels hfilter fun s hs hlabel' => hs.of_waits hlabel' hsole
    | branch place =>
      exact .shared place.fanout fun s hs hlabel' => ⟨place.slot, hs.of_waits hlabel' hsole⟩
    | fanout i => exact .shared i fun s hs hlabel' => hs.of_waits hlabel' hsole
  · refine .shared 0 fun s hs hlabel' => ?_
    obtain ⟨w, hw, hlabel, -⟩ := hs.waits hlabel'
    exact absurd ⟨w, hw, hlabel⟩ hwaits

end LazyCalc
