import LazyCalc.Proofs.Fanout.Family
/-!
The whole life of a family of readers: a single sequence that owns its source, then branches of one
fan-out, then nothing. Every act on a reader does what its cursor does.
-/

namespace LazyCalc

namespace Cursors

variable {cs : Cursors} {r : Nat} {c₁ c₂ : Cursor}

theorem move_move (h : c₁.position ≤ c₂.position) : (cs.move r c₁).move r c₂ = cs.move r c₂ := by
  simp only [move, List.set_set, Nat.max_assoc, Nat.max_eq_right h]

end Cursors

namespace Readers

variable {g : Generator} {pool : Pool} {cs : Cursors} {st : Store} {r : Nat} {s : Linked.Sequence}
  {c c' : Cursor}

section

variable {α : Type} {l : List (Option α)} {r₀ : Nat} {a a₀ : α}

theorem eq_of_alone (hl : ∀ j, at? l j = if j = r₀ then some a₀ else none) (ha : at? l r = some a) :
    r₀ = r ∧ a₀ = a := by
  rw [hl] at ha
  split at ha
  · next heq => exact ⟨heq.symm, Option.some.inj ha⟩
  · cases ha

theorem at?_set_alone (hl : ∀ j, at? l j = if j = r then some a₀ else none) (a : Option α) (j : Nat) :
    at? (l.set r a) j = if j = r then a else none := by
  rw [at?_set (lt_of_at? (a := a₀) (by rw [hl, if_pos rfl])), hl]
  split <;> rfl

end

inductive Stands (g : Generator) (pool : Pool) (cs : Cursors) (st : Store) : Prop
  | alone (r : Nat) (s : Linked.Sequence) (c : Cursor)
      (pool_eq : ∀ j, at? pool j = if j = r then some s else none)
      (cursors_eq : ∀ j, at? cs.cursors j = if j = r then some c else none)
      (origin : s.origin = .direct (.generated (g.after cs.reached)))
      (finished : s.finished = c.finished)
      (position : c.position = cs.reached)
  | shared (i : Nat) (fanout : Fanout Linked.Item) (hooks : List String)
      (shares : Shares g i fanout hooks pool cs st)
  | gone (pool_eq : ∀ j, at? pool j = none) (cursors_eq : ∀ j, at? cs.cursors j = none)

/-- The readers of a pool do what the cursors of the same numbers do. -/
structure Accords (g : Generator) (pool : Pool) (cs : Cursors) (st : Store) : Prop where
  valid : cs.Valid g.answer
  length_eq : pool.length = cs.cursors.length
  stands : Stands g pool cs st

/-- The readers of another pool are these under other numbers: the one with the number `j` had the
number `ρ j`. -/
structure Renamed (ρ : Nat → Nat) (pool : Pool) (cs : Cursors) (pool' : Pool) (cs' : Cursors) :
    Prop where
  reached : cs'.reached = cs.reached
  length_eq : pool'.length = cs'.cursors.length
  sequence : ∀ {j s}, at? pool' j = some s → at? pool (ρ j) = some s
  cursor : ∀ {j c}, at? cs'.cursors j = some c → at? cs.cursors (ρ j) = some c
  alive : ∀ j, at? pool' j = none ↔ at? cs'.cursors j = none
  apart : ∀ {j j' s s'}, at? pool' j = some s → at? pool' j' = some s' → ρ j = ρ j' → j = j'
  onto : ∀ {r s}, at? pool r = some s → ∃ j, ρ j = r ∧ at? pool' j = some s

namespace Renamed

variable {ρ : Nat → Nat} {pool' : Pool} {cs' : Cursors}

theorem valid (hρ : Renamed ρ pool cs pool' cs') (h : cs.Valid g.answer) : cs'.Valid g.answer where
  cursor hc := by
    rw [hρ.reached]
    exact h.cursor (hρ.cursor hc)
  reached := by
    rw [hρ.reached]
    exact h.reached

theorem at?_eq_none (hρ : Renamed ρ pool cs pool' cs') (hp : ∀ j, at? pool j = none) (j : Nat) :
    at? pool' j = none :=
  Option.eq_none_iff_forall_ne_some.mpr fun s hs => by
    have hnone := hp (ρ j)
    rw [hρ.sequence hs] at hnone
    cases hnone

theorem pool_alone (hρ : Renamed ρ pool cs pool' cs')
    (hp : ∀ j, at? pool j = if j = ρ r then some s else none) (hs : at? pool' r = some s) (j : Nat) :
    at? pool' j = if j = r then some s else none := by
  split
  · next heq => rw [heq, hs]
  · next hne =>
    refine Option.eq_none_iff_forall_ne_some.mpr fun s' hs' => hne (hρ.apart hs' hs ?_)
    exact (eq_of_alone hp (hρ.sequence hs')).1.symm

theorem cursors_alone (hρ : Renamed ρ pool cs pool' cs')
    (hk : ∀ j, at? cs.cursors j = if j = ρ r then some c else none)
    (hp : ∀ j, at? pool' j = if j = r then some s else none) (j : Nat) :
    at? cs'.cursors j = if j = r then some c else none := by
  split
  · next heq =>
    have hne : at? cs'.cursors j ≠ none := fun hn => by
      have hs := (hρ.alive j).mpr hn
      rw [hp, if_pos heq] at hs
      cases hs
    obtain ⟨c', hc⟩ := Option.ne_none_iff_exists'.mp hne
    rw [hc, (eq_of_alone hk (hρ.cursor hc)).2]
  · next hne => exact (hρ.alive j).mp (by rw [hp, if_neg hne])

theorem shares {i : Nat} {fanout : Fanout Linked.Item} {hooks : List String}
    (hρ : Renamed ρ pool cs pool' cs') (h : Shares g i fanout hooks pool cs st) :
    Shares g i fanout hooks pool' cs' st where
  held := by
    rw [hρ.reached]
    exact h.held
  length_eq := hρ.length_eq
  alive := hρ.alive
  reads hs hc := by
    rw [hρ.reached]
    exact h.reads (hρ.sequence hs) (hρ.cursor hc)
  apart hs hs' heq := hρ.apart hs hs' (h.apart (hρ.sequence hs) (hρ.sequence hs') heq)
  owned slot hslot := by
    obtain ⟨r, s, hs, ho⟩ := h.owned slot hslot
    obtain ⟨j, -, hj⟩ := hρ.onto hs
    exact ⟨j, s, hj, ho⟩
  ended := by
    rw [hρ.reached]
    exact h.ended
  going hdone _ _ hc := by
    rw [hρ.reached]
    exact h.going hdone (hρ.cursor hc)

theorem stands (hρ : Renamed ρ pool cs pool' cs') (h : Stands g pool cs st) :
    Stands g pool' cs' st := by
  cases h with
  | alone r s c hp hk horigin hfinished hposition =>
    obtain ⟨j, rfl, hj⟩ := hρ.onto (r := r) (s := s) (by rw [hp, if_pos rfl])
    have hp' := hρ.pool_alone hp hj
    exact .alone j s c hp' (hρ.cursors_alone hk hp') (by rw [hρ.reached, horigin]) hfinished
      (by rw [hρ.reached, hposition])
  | shared i fanout hooks hshares => exact .shared i fanout hooks (hρ.shares hshares)
  | gone hp hk =>
    have hp' := hρ.at?_eq_none hp
    exact .gone hp' fun j => (hρ.alive j).mp (hp' j)

end Renamed

namespace Accords

theorem alive (h : Accords g pool cs st) (j : Nat) :
    at? pool j = none ↔ at? cs.cursors j = none := by
  cases h.stands with
  | alone r s c hp hc => rw [hp, hc]; split <;> simp
  | shared i fanout hooks hs => exact hs.alive j
  | gone hp hc => simp [hp, hc]

theorem cursor_of (h : Accords g pool cs st) (hs : at? pool r = some s) :
    ∃ c, at? cs.cursors r = some c :=
  Option.ne_none_iff_exists'.mp fun hn => by simp [(h.alive r).mpr hn] at hs

theorem pull_alone (hp : ∀ j, at? pool j = if j = r then some s else none)
    (hk : ∀ j, at? cs.cursors j = if j = r then some c else none)
    (horigin : s.origin = .direct (.generated (g.after cs.reached)))
    (hfinished : s.finished = c.finished) (hposition : c.position = cs.reached) (fuel : Nat)
    (st : Store) :
    ∃ s', s.pull (fuel + 1) st = .ok (((c.step g.answer).1.map .ofPlain, s'), st) ∧
      Stands g (pool.set r (some s')) (cs.move r (c.step g.answer).2) st := by
  have hpool (s' : Linked.Sequence) := at?_set_alone hp (some s')
  have hcursors (c' : Cursor) (j : Nat) :
      at? (cs.move r c').cursors j = if j = r then some c' else none := at?_set_alone hk (some c') j
  cases hf : c.finished with
  | true =>
    have hstep : c.step g.answer = (none, c) := by simp [Cursor.step, hf]
    have hreached : (cs.move r c).reached = cs.reached := by simp [Cursors.move, hposition]
    rw [hstep]
    refine ⟨s, Sequence.step_of_finished (hfinished.trans hf), ?_⟩
    exact .alone r s c (hpool s) (hcursors c) (by rw [horigin, hreached]) hfinished
      (hposition.trans hreached.symm)
  | false =>
    have hstep : c.step g.answer =
        (g.answer c.position, ⟨c.position + 1, Cursor.stops (g.answer c.position)⟩) := by
      simp [Cursor.step, hf]
    have hreached : (cs.move r (c.step g.answer).2).reached = cs.reached + 1 := by
      rw [hstep]
      simp only [Cursors.move]
      omega
    have hnext : Source.step (Drive.linked fuel (Sequence.pull fuel))
        (.generated (g.after cs.reached) : Linked.Source) st =
          .ok (((g.answer c.position).map .ofPlain, .generated (g.after (cs.reached + 1))), st) := by
      rw [hposition]
      rfl
    refine ⟨{ s with
      origin := .direct (.generated (g.after (cs.reached + 1))),
      finished := Cursor.stops (g.answer c.position) }, ?_, ?_⟩
    · rw [hstep]
      exact Sequence.step_of_direct (hfinished.trans hf) horigin hnext
    · refine .alone r _ _ (hpool _) (hcursors _) (by rw [hreached]) (by rw [hstep]) ?_
      rw [hreached, hstep, ← hposition]

theorem pull (h : Accords g pool cs st) (hs : at? pool r = some s)
    (hc : at? cs.cursors r = some c) (fuel : Nat) :
    ∃ s' st', s.pull (fuel + 1) st = .ok (((c.step g.answer).1.map .ofPlain, s'), st') ∧
      Accords g (pool.set r (some s')) (cs.move r (c.step g.answer).2) st' := by
  have hvalid := h.valid.move hc (Cursor.valid_step (h.valid.cursor hc).1)
  have hlength (s' : Linked.Sequence) : (pool.set r (some s')).length =
      (cs.move r (c.step g.answer).2).cursors.length := by
    simpa [Cursors.move] using h.length_eq
  cases h.stands with
  | gone hp => simp [hp] at hs
  | shared i fanout hooks hshares =>
    obtain ⟨s', fanout', st', hstep, hshares⟩ :=
      hshares.pull h.valid hs hc (.linked fuel (Sequence.pull fuel))
    exact ⟨s', st', hstep, hvalid, hlength s', .shared i fanout' hooks hshares⟩
  | alone r₀ s₀ c₀ hp hk horigin hfinished hposition =>
    obtain ⟨rfl, rfl⟩ := eq_of_alone hp hs
    obtain ⟨-, rfl⟩ := eq_of_alone hk hc
    obtain ⟨s', hpull, hstands⟩ := pull_alone hp hk horigin hfinished hposition fuel st
    exact ⟨s', st, hpull, hvalid, hlength s', hstands⟩

theorem fork (h : Accords g pool cs st) (hs : at? pool r = some s)
    (hc : at? cs.cursors r = some c) :
    ∃ s' other st', s.fork st = .ok ((s', other), st') ∧
      Accords g (pool.set r (some s') ++ [some other]) (cs.add c) st' := by
  have hvalid := h.valid.add hc
  have hlength (s' other : Linked.Sequence) : (pool.set r (some s') ++ [some other]).length =
      (cs.add c).cursors.length := by
    simpa [Cursors.add] using h.length_eq
  cases h.stands with
  | gone hp => simp [hp] at hs
  | shared i fanout hooks hshares =>
    obtain ⟨s', other, fanout', hooks', st', hfork, hshares⟩ :=
      hshares.fork h.valid hs hc st.fanouts.size
    exact ⟨s', other, st', hfork, hvalid, hlength s' other, .shared i fanout' hooks' hshares⟩
  | alone r₀ s₀ c₀ hp hk horigin hfinished hposition =>
    obtain ⟨rfl, rfl⟩ := eq_of_alone hp hs
    obtain ⟨-, rfl⟩ := eq_of_alone hk hc
    let branch : Linked.Sequence :=
      { s₀ with origin := .branch ⟨st.fanouts.size, 0⟩, hooks := [] }
    have hself : at? (pool.set r₀ (some branch)) r₀ = some branch := by
      rw [at?_set (lt_of_at? hs), if_pos rfl]
    have hsingle := Shares.single st s₀.hooks branch h.valid (lt_of_at? hs) h.length_eq hp hk rfl
      hfinished hposition
    have hnew := hsingle.joined hself hc rfl (Fanout.slot?_single 0)
      { s₀ with origin := .branch ⟨st.fanouts.size, (Fanout.single.join []).1⟩, hooks := [] }
      s₀.hooks rfl rfl
    rw [Store.setFanout_addFanout] at hnew
    refine ⟨_, _, _, ?_, hvalid, hlength _ _, .shared _ _ _ hnew⟩
    simp only [Sequence.fork, Sequence.forkWithin, horigin]
    rw [Engine.bind_eq rfl]
    rfl

theorem drop (h : Accords g pool cs st) (hs : at? pool r = some s)
    (hc : at? cs.cursors r = some c) :
    ∃ st', Engine.dropValues [.sequence s] st = .ok ((), st') ∧
      Accords g (pool.set r none) (cs.remove r) st' := by
  have hvalid := h.valid.remove hc
  have hlength : (pool.set r none).length = (cs.remove r).cursors.length := by
    simpa [Cursors.remove] using h.length_eq
  cases h.stands with
  | gone hp => simp [hp] at hs
  | shared i fanout hooks hshares =>
    obtain ⟨st', hdrop, hp | ⟨fanout', hshares⟩⟩ := hshares.drop hs hc
    · refine ⟨st', hdrop, hvalid, hlength, .gone hp fun j => ?_⟩
      have hj := hp j
      rw [at?_set (lt_of_at? hs)] at hj
      rw [Cursors.remove, at?_set (lt_of_at? hc)]
      split
      · rfl
      · next hne =>
        rw [if_neg hne] at hj
        exact (h.alive j).mp hj
    · exact ⟨st', hdrop, hvalid, hlength, .shared i fanout' hooks hshares⟩
  | alone r₀ s₀ c₀ hp hk horigin =>
    obtain ⟨rfl, rfl⟩ := eq_of_alone hp hs
    obtain ⟨-, rfl⟩ := eq_of_alone hk hc
    obtain ⟨origin, hint, finished, hooks⟩ := s₀
    obtain rfl : origin = .direct (.generated (g.after cs.reached)) := horigin
    have hrelease : release
        [.sequence ⟨.direct (.generated (g.after cs.reached)), hint, finished, hooks⟩] st =
          .ok (st.record (hooks.map .closed)) :=
      release_direct.trans ((release_generated _ _ _).trans (release_nil _))
    refine ⟨_, Engine.dropValues_sequence hrelease, hvalid, hlength, .gone ?_ ?_⟩
    · exact fun j => (at?_set_alone hp none j).trans (ite_self _)
    · exact fun j => (at?_set_alone hk none j).trans (ite_self _)

theorem rename (h : Accords g pool cs st) {pool' : Pool} {cs' : Cursors} (ρ : Nat → Nat)
    (hρ : Renamed ρ pool cs pool' cs') : Accords g pool' cs' st :=
  ⟨hρ.valid h.valid, hρ.length_eq, hρ.stands h.stands⟩

theorem renumber (h : Accords g pool cs st) (hs : at? pool r = some s)
    (hc : at? cs.cursors r = some c) :
    Accords g (pool.set r none ++ [some s]) ((cs.remove r).add c) st := by
  have hlt := lt_of_at? hs
  have hp : ∀ j, at? (pool.set r none ++ [some s]) j =
      if j = pool.length then some s else if j = r then none else at? pool j := by
    intro j
    rw [at?_append, List.length_set, at?_set hlt]
  have hk : ∀ j, at? ((cs.remove r).add c).cursors j =
      if j = pool.length then some c else if j = r then none else at? cs.cursors j := by
    intro j
    rw [Cursors.add, Cursors.remove, at?_append, List.length_set, at?_set (lt_of_at? hc), h.length_eq]
  refine h.rename (fun j => if j = pool.length then r else j) ⟨rfl, ?_, ?_, ?_, ?_, ?_, ?_⟩
  · simpa [Cursors.add, Cursors.remove] using h.length_eq
  · intro j s' hj
    rw [hp] at hj
    split at hj <;> simp_all
  · intro j c' hj
    rw [hk] at hj
    split at hj <;> simp_all
  · intro j
    rw [hp, hk]
    split
    · simp
    · split
      · simp
      · exact h.alive j
  · intro j j' s₁ s₂ hj hj' he
    rw [hp] at hj hj'
    split at hj <;> split at hj' <;> simp_all
  · intro r₁ s₁ h₁
    by_cases hr : r₁ = r
    · refine ⟨pool.length, by simp [hr], ?_⟩
      rw [hp, if_pos rfl, ← hs, ← hr, h₁]
    · have hne : r₁ ≠ pool.length := Nat.ne_of_lt (lt_of_at? h₁)
      exact ⟨r₁, by simp [hne], by rw [hp, if_neg hne, if_neg hr, h₁]⟩

theorem forget {cursors : List (Option Cursor)} {reached : Nat}
    (h : Accords g (pool ++ [none]) ⟨cursors ++ [none], reached⟩ st) :
    Accords g pool ⟨cursors, reached⟩ st := by
  have hat : ∀ {α : Type} (l : List (Option α)) j, at? (l ++ [none]) j = at? l j := by
    intro α l j
    rw [at?_append]
    split
    · next he => simp [at?, he]
    · rfl
  have halive := h.alive
  simp only [hat] at halive
  refine h.rename (fun j => j) ⟨rfl, ?_, ?_, ?_, halive, ?_, ?_⟩
  · simpa using h.length_eq
  · simp [hat]
  · simp [hat]
  · intro j j' s s' _ _ he
    exact he
  · intro r s hs
    exact ⟨r, rfl, by rwa [hat] at hs⟩

end Accords

end Readers

end LazyCalc
