import LazyCalc.Proofs.Aggregates.Elements
import LazyCalc.Proofs.Counts.Tuples
import LazyCalc.Proofs.Lone.Untroubled
/-!
How many elements a lone sequence still gives if nothing fails, read off the state it is in. A pull
that gives an element takes one away, so that more elements than that never come, and where nothing
fails just as many.
-/

namespace LazyCalc

open Filter

/-- A generator that still gives `count` elements if none of them fails. -/
inductive Generator.Lasts : Generator → (count : Nat) → Prop
  | counted {p : Counted} (h : p.remaining ≠ 0 → p.pending.isSome) : Lasts (.counted p) p.remaining
  | permutations {tuples : Permutations} (h : tuples.Valid) (items : List Scalar)
    (assemble : Assembly) : Lasts (.permutations tuples items assemble) tuples.left
  | product {tuples : Odometer} (h : tuples.Valid) (sources : List (List Scalar))
    (assemble : Assembly) : Lasts (.product tuples sources assemble) tuples.left

namespace Generator.Lasts

variable {g : Generator} {c : Nat}

theorem assembled {c' : Nat} (item : Except Failure Plain) (h : g.Lasts c') (hc : c' + 1 = c) :
    match (some item, g) with
    | (some (.ok _), g) => ∃ c', c = c' + 1 ∧ g.Lasts c'
    | (some (.error _), _) => True
    | (none, _) => c = 0 := by
  cases item with
  | ok t => exact ⟨c', hc.symm, h⟩
  | error e => trivial

theorem next (h : g.Lasts c) :
    match g.next with
    | (some (.ok _), g') => ∃ c', c = c' + 1 ∧ g'.Lasts c'
    | (some (.error _), _) => True
    | (none, _) => c = 0 := by
  cases h with
  | @counted p h =>
    obtain ⟨pending, remaining, advance⟩ := p
    cases remaining with
    | zero => rfl
    | succ remaining =>
      obtain _ | e | current := pending
      · exact nomatch h (Nat.succ_ne_zero remaining)
      · trivial
      · refine ⟨remaining, rfl, .counted (p := ⟨_, remaining, advance⟩) fun hsome => ?_⟩
        rw [if_neg hsome]
        rfl
  | @permutations tuples h items assemble =>
    have hnext := Permutations.left_next h
    rw [Generator.next]
    generalize tuples.next = given at hnext ⊢
    obtain ⟨_ | is, tuples'⟩ := given
    · exact hnext
    · exact assembled _ (.permutations hnext.1 items assemble) hnext.2
  | @product tuples h sources assemble =>
    have hnext := Odometer.left_next h
    rw [Generator.next]
    generalize tuples.next = given at hnext ⊢
    obtain ⟨_ | is, tuples'⟩ := given
    · exact hnext
    · exact assembled _ (.product hnext.1 sources assemble) hnext.2

end Generator.Lasts

namespace Lone

/-- A sequence that still gives `count` elements if nothing fails. -/
inductive Lasts : Sequence → (count : Nat) → Prop
  | finished {s : Sequence} (h : s.finished = true) : Lasts s 0
  | generated {g : Generator} {c : Nat} (h : g.Lasts c) (hint : Hint) (hooks : List String) :
    Lasts ⟨.direct (.generated g), hint, false, hooks⟩ c
  | items (items : List Item) (hint : Hint) (hooks : List String) :
    Lasts ⟨.direct (.items items), hint, false, hooks⟩ items.length
  | mapped {inner : Sequence} {c : Nat} (h : Lasts inner c) (mapping : Mapping Snapshot)
    (hint : Hint) (hooks : List String) : Lasts ⟨.direct (.mapped inner mapping), hint, false, hooks⟩ c
  | zipped {l r : Sequence} {a b : Nat} (hl : Lasts l a) (hr : Lasts r b)
    (pairing : Pairing Snapshot) (hint : Hint) (hooks : List String) :
    Lasts ⟨.direct (.zipped l r pairing), hint, false, hooks⟩ (min a b)
  | window {inner : Sequence} {c : Nat} (h : Lasts inner c) (skip take : Nat) (hint : Hint)
    (hooks : List String) :
    Lasts ⟨.direct (.window inner skip take), hint, false, hooks⟩ (min (c - skip) take)

def Came (c : Nat) : Option Item × Sequence → Prop
  | (some (.ok _), s) => ∃ c', c = c' + 1 ∧ Lasts s c'
  | (some (.error _), s) | (none, s) => s.finished = true

/-- Pulls that take one away for each element they give. -/
def Counting (d : Lone.Drive) : Prop :=
  ∀ {s : Sequence} {c : Nat} {answer : Option Item × Sequence}, Lasts s c →
    d.pull s = some answer → Came c answer

namespace Counting

variable {fuel : Nat} {pull : Sequence → Option (Option Item × Sequence)}
  (h : Counting (Drive.lone fuel pull))

include h

theorem discard {skip came : Nat} {s : Sequence} {c : Nat} {r : Nat × Sequence} (hs : Lasts s c)
    (hr : s.discard (Drive.lone fuel pull) skip came = some r) :
    Lasts r.2 (c - skip) ∨ Lasts r.2 0 := by
  induction skip generalizing came s c with
  | zero =>
    obtain rfl := Option.some.inj hr
    exact .inl hs
  | succ skip ih =>
    obtain ⟨⟨item, s₁⟩, hpull, hr⟩ := Option.bind_eq_some_iff.mp hr
    have hcame := h hs hpull
    obtain _ | e | v := item
    · obtain rfl := Option.some.inj hr
      exact .inr (.finished hcame)
    · refine .inr ?_
      obtain hlasts | hlasts := ih (.finished hcame) hr
      · rwa [Nat.zero_sub] at hlasts
      · exact hlasts
    · obtain ⟨c', hc, hlasts⟩ := hcame
      rw [hc, Nat.add_sub_add_right]
      exact ih hlasts hr

section

variable {source' : Source} {hint : Hint} {hooks : List String} {item : Option Item}

theorem mapped {inner : Sequence} {c : Nat} {mapping : Mapping Snapshot} (hinner : Lasts inner c)
    (hstep : (LazyCalc.Source.mapped inner mapping).step (Drive.lone fuel pull) =
      some (item, source')) :
    Came c (item, ⟨.direct source', hint, LazyCalc.Sequence.closes item, hooks⟩) := by
  obtain ⟨⟨x, inner'⟩, hpull, hstep⟩ := Option.bind_eq_some_iff.mp hstep
  have hcame := h hinner hpull
  obtain _ | e | v := x
  · cases hstep
    exact rfl
  · cases hstep
    exact rfl
  · obtain ⟨c', hc, hlasts⟩ := hcame
    obtain ⟨y, _, hy⟩ := Option.bind_eq_some_iff.mp hstep
    cases hy
    cases y with
    | error e => exact rfl
    | ok w => exact ⟨c', hc, .mapped hlasts mapping hint hooks⟩

theorem zipped {l r : Sequence} {a b : Nat} {pairing : Pairing Snapshot} (hl : Lasts l a)
    (hr : Lasts r b) (hstep : (LazyCalc.Source.zipped l r pairing).step (Drive.lone fuel pull) =
      some (item, source')) :
    Came (min a b) (item, ⟨.direct source', hint, LazyCalc.Sequence.closes item, hooks⟩) := by
  obtain ⟨⟨x, l'⟩, hleft, hstep⟩ := Option.bind_eq_some_iff.mp hstep
  have hcame := h hl hleft
  obtain _ | e | v := x
  · cases hstep
    exact rfl
  · cases hstep
    exact rfl
  · obtain ⟨a', ha, hl'⟩ := hcame
    obtain ⟨⟨y, r'⟩, hright, hstep⟩ := Option.bind_eq_some_iff.mp hstep
    have hcame := h hr hright
    obtain _ | e | w := y
    · cases hstep
      exact rfl
    · cases hstep
      exact rfl
    · obtain ⟨b', hb, hr'⟩ := hcame
      obtain ⟨z, _, hz⟩ := Option.bind_eq_some_iff.mp hstep
      cases hz
      cases z with
      | error e => exact rfl
      | ok u =>
        refine ⟨min a' b', ?_, .zipped hl' hr' pairing hint hooks⟩
        rw [ha, hb, Nat.add_min_add_right]

theorem window {inner : Sequence} {c skip take : Nat} (hinner : Lasts inner c)
    (hstep : (LazyCalc.Source.window inner skip take).step (Drive.lone fuel pull) =
      some (item, source')) :
    Came (min (c - skip) take)
      (item, ⟨.direct source', hint, LazyCalc.Sequence.closes item, hooks⟩) := by
  cases take with
  | zero =>
    cases hstep
    exact rfl
  | succ take =>
    obtain ⟨⟨_, inner₁⟩, hdiscard, hstep⟩ := Option.bind_eq_some_iff.mp hstep
    obtain ⟨⟨x, inner₂⟩, hpull, hstep⟩ := Option.bind_eq_some_iff.mp hstep
    cases hstep
    obtain hlasts | hlasts := h.discard hinner hdiscard
    · have hcame := h hlasts hpull
      obtain _ | e | v := item
      · exact rfl
      · exact rfl
      · obtain ⟨c', hc, hlasts'⟩ := hcame
        refine ⟨min (c' - 0) take, ?_, .window hlasts' 0 take hint hooks⟩
        rw [hc, Nat.sub_zero, Nat.add_min_add_right]
    -- What was passed over came to its end: nothing comes any more.
    · have hcame := h hlasts hpull
      obtain _ | e | v := item
      · exact rfl
      · exact rfl
      · obtain ⟨c', ⟨⟩, -⟩ := hcame

theorem step {source : Source} {c : Nat} (hs : Lasts ⟨.direct source, hint, false, hooks⟩ c)
    (hstep : source.step (Drive.lone fuel pull) = some (item, source')) :
    Came c (item, ⟨.direct source', hint, LazyCalc.Sequence.closes item, hooks⟩) := by
  cases hs with
  | finished hfinished => cases hfinished
  | @generated g c hg =>
    obtain ⟨rfl, rfl⟩ : g.next.1.map (Except.map Tree.ofPlain) = item ∧
        .generated g.next.2 = source' := Prod.mk.inj (Option.some.inj hstep)
    have hnext := hg.next
    generalize g.next = given at hnext ⊢
    obtain ⟨_ | e | t, g'⟩ := given
    · exact rfl
    · exact rfl
    · obtain ⟨c', hc, hlasts⟩ := hnext
      exact ⟨c', hc, .generated hlasts hint hooks⟩
  | items items =>
    cases items with
    | nil =>
      cases hstep
      exact rfl
    | cons x items =>
      cases hstep
      cases x with
      | error e => exact rfl
      | ok v => exact ⟨items.length, rfl, .items items hint hooks⟩
  | mapped hinner => exact h.mapped hinner hstep
  | zipped hl hr => exact h.zipped hl hr hstep
  | window hinner => exact h.window hinner hstep

end

theorem answered {s : Sequence} {c : Nat} {answer : Option Item × Sequence} (hs : Lasts s c)
    (hstep : s.step (Drive.lone fuel pull) Empty.elim = some answer) : Came c answer := by
  obtain ⟨origin, hint, finished, hooks⟩ := s
  cases finished with
  | true =>
    obtain rfl := Option.some.inj hstep
    exact rfl
  | false =>
    cases origin with
    | branch place => exact place.elim
    | direct source =>
      obtain ⟨⟨item, source'⟩, hsource, hanswer⟩ := Option.bind_eq_some_iff.mp hstep
      obtain rfl := Option.some.inj hanswer
      exact h.step hs hsource

end Counting

theorem counting_alone (n : Nat) : Counting (Drive.alone n) := by
  induction n with
  | zero => exact nofun
  | succ n ih => exact fun hs hstep => Counting.answered ih hs hstep

/-- A pull comes to one of those that are left, or none is left and it comes to the end. -/
def Goes (s : Sequence) (c : Nat) : Prop :=
  (∃ v s' c', Settles (fun n => (Drive.alone n).pull s) (some (.ok v), s') ∧
    c = c' + 1 ∧ Lasts s' c') ∨
  ∃ s', Settles (fun n => (Drive.alone n).pull s) (none, s') ∧ c = 0

namespace Goes

variable {s inner l r : Sequence} {c : Nat} {hint : Hint} {hooks : List String}

theorem finished (h : s.finished = true) : Goes s 0 := by
  obtain ⟨origin, hint, _, hooks⟩ := s
  obtain rfl := h
  exact .inr ⟨_, .succ (.const _), rfl⟩

theorem settles_direct {source source' : Source} {item : Option Item}
    (h : Settles (fun n => source.step (Drive.alone n)) (item, source')) :
    Settles (fun n => (Drive.alone n).pull ⟨.direct source, hint, false, hooks⟩)
      (item, ⟨.direct source', hint, LazyCalc.Sequence.closes item, hooks⟩) :=
  .succ (h.bind (.const _))

theorem generated {g : Generator} (hlasts : g.Lasts c) (h : ∀ e, g.next.1 ≠ some (.error e)) :
    Goes ⟨.direct (.generated g), hint, false, hooks⟩ c := by
  have hstep : Settles (fun n => (LazyCalc.Source.generated g : Source).step (Drive.alone n))
      (g.next.1.map (·.map Tree.ofPlain), .generated g.next.2) := .const _
  have hnext := hlasts.next
  generalize g.next = given at h hnext hstep
  obtain ⟨_ | e | t, g'⟩ := given
  · exact .inr ⟨_, settles_direct hstep, hnext⟩
  · exact absurd rfl (h e)
  · obtain ⟨c', hc, hlasts'⟩ := hnext
    exact .inl ⟨_, _, c', settles_direct hstep, hc, .generated hlasts' hint hooks⟩

theorem items {items : List Item} (h : ∀ e, items.head? ≠ some (.error e)) :
    Goes ⟨.direct (.items items), hint, false, hooks⟩ items.length := by
  match items with
  | [] => exact .inr ⟨_, settles_direct (.const _), rfl⟩
  | .error e :: items => exact absurd rfl (h e)
  | .ok v :: items =>
    exact .inl ⟨v, _, items.length, settles_direct (.const _), rfl, .items items hint hooks⟩

theorem mapped {mapping : Mapping Snapshot} (h : Goes inner c)
    (hkernel : ∀ v s', Settles (fun n => (Drive.alone n).pull inner) (some (.ok v), s') →
      Passes mapping.Reads fun n => mapping.apply (Drive.alone n) v) :
    Goes ⟨.direct (.mapped inner mapping), hint, false, hooks⟩ c := by
  obtain ⟨v, inner', c', hpull, hc, hlasts⟩ | ⟨inner', hpull, hc⟩ := h
  · obtain ⟨w, hw⟩ := (hkernel v inner' hpull).exists_ok (Steady.mapping · v)
    exact .inl ⟨w, _, c', settles_direct (hpull.bind (hw.bind (.const _))), hc,
      .mapped hlasts mapping hint hooks⟩
  · exact .inr ⟨_, settles_direct (hpull.bind (.const _)), hc⟩

theorem zipped {a b : Nat} {pairing : Pairing Snapshot} (hl : Goes l a)
    (hr : ∀ v l', Settles (fun n => (Drive.alone n).pull l) (some (.ok v), l') → Goes r b)
    (hkernel : ∀ v l' w r', Settles (fun n => (Drive.alone n).pull l) (some (.ok v), l') →
      Settles (fun n => (Drive.alone n).pull r) (some (.ok w), r') →
      Passes pairing.Reads fun n => pairing.apply (Drive.alone n) v w) :
    Goes ⟨.direct (.zipped l r pairing), hint, false, hooks⟩ (min a b) := by
  obtain ⟨v, l', a', hleft, ha, hlasts⟩ | ⟨l', hleft, ha⟩ := hl
  · obtain ⟨w, r', b', hright, hb, hlasts'⟩ | ⟨r', hright, hb⟩ := hr v l' hleft
    · obtain ⟨x, hx⟩ :=
        (hkernel v l' w r' hleft hright).exists_ok (Steady.pairing · v w)
      refine .inl ⟨x, _, min a' b',
        settles_direct (hleft.bind (hright.bind (hx.bind (.const _)))), ?_,
        .zipped hlasts hlasts' pairing hint hooks⟩
      rw [ha, hb, Nat.add_min_add_right]
    · refine .inr ⟨_, settles_direct (hleft.bind (hright.bind (.const _))), ?_⟩
      rw [hb, Nat.min_zero]
  · refine .inr ⟨_, settles_direct (hleft.bind (.const _)), ?_⟩
    rw [ha, Nat.zero_min]

theorem discard {skip : Nat} (came : Nat) (hlasts : Lasts s c)
    (h : ∀ k s', k ≤ skip → After k s s' → ∀ c', Lasts s' c' → Goes s' c') :
    ∃ seen s', Settles (fun n => s.discard (Drive.alone n) skip came) (seen, s') ∧
      Goes s' (c - skip) := by
  induction skip generalizing came s c with
  | zero => exact ⟨came, s, .const _, h 0 s (Nat.le_refl 0) (.zero s) c hlasts⟩
  | succ skip ih =>
    obtain ⟨v, s₁, c', hpull, rfl, hlasts'⟩ | ⟨s', hpull, rfl⟩ :=
      h 0 s (Nat.zero_le _) (.zero s) c hlasts
    · rw [Nat.add_sub_add_right]
      have hrest (k : Nat) (s' : Sequence) (hk : k ≤ skip) (hafter : After k s₁ s') :=
        h (k + 1) s' (Nat.succ_le_succ hk) (.succ hpull hafter)
      obtain ⟨seen, s', hdiscard, hgoes⟩ := ih _ hlasts' hrest
      exact ⟨seen, s', hpull.bind hdiscard, hgoes⟩
    · rw [Nat.zero_sub]
      refine ⟨came, s', hpull.bind (.const _), .finished ?_⟩
      obtain ⟨n, hn⟩ := hpull.exists
      exact counting_alone n hlasts hn

theorem window {skip take : Nat} (hlasts : Lasts inner c)
    (h : take ≠ 0 → ∀ k s', k ≤ skip → After k inner s' → ∀ c', Lasts s' c' → Goes s' c') :
    Goes ⟨.direct (.window inner skip take), hint, false, hooks⟩ (min (c - skip) take) := by
  cases take with
  | zero => exact .inr ⟨_, settles_direct (.const _), Nat.min_zero _⟩
  | succ take =>
    obtain ⟨seen, inner₁, hdiscard, hgoes⟩ := discard 0 hlasts (h (Nat.succ_ne_zero take))
    obtain ⟨v, inner₂, c', hpull, hc, hlasts'⟩ | ⟨inner₂, hpull, hc⟩ := hgoes
    · refine .inl ⟨v, _, min (c' - 0) take,
        settles_direct (hdiscard.bind (hpull.bind (.const _))), ?_,
        .window hlasts' 0 take hint hooks⟩
      rw [hc, Nat.sub_zero, Nat.add_min_add_right]
    · refine .inr ⟨_, settles_direct (hdiscard.bind (hpull.bind (.const _))), ?_⟩
      rw [hc, Nat.zero_min]

end Goes

namespace Lasts

variable {s : Sequence} {c : Nat}

theorem length_le_of_gather {n k wanted : Nat} {taken : List Value} {s' : Sequence}
    {flow : Flow (Option Nat × List Value) (Gathered Sequence)} (h : Lasts s c)
    (hwalk : (Drive.alone n).walkFor LazyCalc.Sequence.gatherStep k (some wanted, taken) s =
      some (flow, s')) :
    (∀ state, flow = .onward state → state.2.length ≤ taken.length + c) ∧
      ∀ items, flow = .halt ⟨items, none⟩ → items.length ≤ taken.length + c := by
  -- a pull moves one from those that are left to those that are taken, so that their sum stays
  induction k generalizing wanted taken s c with
  | zero => cases hwalk
  | succ k ih =>
    rw [Drive.walkFor] at hwalk
    obtain ⟨⟨item, s₁⟩, hpull, hwalk⟩ := Option.bind_eq_some_iff.mp hwalk
    have hcame := counting_alone n h hpull
    obtain _ | e | v := item
    · cases hwalk
      constructor <;> rintro _ ⟨⟩
      exact Nat.le_add_right _ _
    · cases hwalk
      constructor <;> rintro _ ⟨⟩
    · obtain ⟨c', hc, hlasts⟩ := hcame
      obtain ⟨visited, hvisit, hwalk⟩ := Option.bind_eq_some_iff.mp hwalk
      rw [LazyCalc.Sequence.gatherStep] at hvisit
      split at hvisit
      · cases hvisit
        cases hwalk
        constructor <;> rintro _ ⟨⟩
        simp only [List.length_reverse, List.length_cons]
        omega
      · cases hvisit
        have hlength : (v :: taken).length + c' = taken.length + c := by
          rw [hc, List.length_cons]
          omega
        rw [← hlength]
        exact ih hlasts hwalk

theorem length_le {n m : Nat} {vs : List Value} {s' : Sequence} (h : Lasts s c)
    (htake : s.takeList (Drive.alone n) m = some (.ok (.list vs), s')) : vs.length ≤ c := by
  obtain ⟨⟨gathered, s₁⟩, hgather, htake⟩ := Option.bind_eq_some_iff.mp htake
  obtain ⟨x, hsettle, htake⟩ := Option.bind_eq_some_iff.mp htake
  cases htake
  obtain ⟨items, failure⟩ := gathered
  cases failure with
  | some e => cases hsettle
  | none =>
    cases hsettle
    rw [LazyCalc.Sequence.gather] at hgather
    split at hgather
    · cases hgather
      exact Nat.zero_le _
    · obtain ⟨⟨flow, s₂⟩, hwalk, hgather⟩ := Option.bind_eq_some_iff.mp hgather
      obtain ⟨honward, hhalt⟩ := h.length_le_of_gather hwalk
      cases flow with
      | onward state =>
        cases hgather
        simpa using honward _ rfl
      | halt gathered =>
        cases hgather
        simpa using hhalt _ rfl

end Lasts

end Lone

end LazyCalc
