import LazyCalc.Proofs.Fanout.Accord
namespace LazyCalc

namespace Cursor

variable {answer : Nat → Option PlainItem}

theorem position_le_discard (n : Nat) (c : Cursor) : c.position ≤ (discard answer n c).position := by
  induction n generalizing c with
  | zero => exact Nat.le_refl _
  | succ n ih => exact Nat.le_trans position_le_step (ih _)

theorem finished_of_step_eq_none {c : Cursor} (h : (c.step answer).1 = none) :
    (c.step answer).2.finished = true := by
  unfold step at h ⊢
  split
  · next hf => exact hf
  · next hf =>
    rw [if_neg hf] at h
    simp only at h
    simp [h, stops]

theorem discard_of_finished {c : Cursor} (h : c.finished = true) (n : Nat) :
    discard answer n c = c := by
  induction n with
  | zero => rfl
  | succ n ih => simp [discard, step, h, ih]

theorem position_le_gather (n : Nat) (c : Cursor) :
    c.position ≤ (gather answer n c).2.position := by
  induction n generalizing c with
  | zero => exact Nat.le_refl _
  | succ n ih =>
    have hstep : c.position ≤ (c.step answer).2.position := position_le_step
    unfold gather
    split <;> simp_all only
    exact Nat.le_trans hstep (ih _)

theorem position_le_seek (index left : Nat) (c : Cursor) :
    c.position ≤ (seek answer index left c).2.position := by
  induction left generalizing c with
  | zero =>
    have hstep : c.position ≤ (c.step answer).2.position := position_le_step
    unfold seek
    split <;> simp_all only
  | succ left ih =>
    have hstep : c.position ≤ (c.step answer).2.position := position_le_step
    unfold seek
    split <;> simp_all only
    exact Nat.le_trans hstep (ih _)

end Cursor

namespace Readers

variable {g : Generator} {pool : Pool} {cs : Cursors} {st : Store} {r : Nat} {s : Linked.Sequence}
  {c : Cursor}

namespace Accords

theorem pulled (h : Accords g pool cs st) (hs : at? pool r = some s)
    (hc : at? cs.cursors r = some c) (fuel : Nat) :
    ∃ s' st', (Drive.ofFuel (fuel + 1)).pull s st =
        .ok (((c.step g.answer).1.map .ofPlain, s'), st') ∧
      Accords g (pool.set r (some s')) (cs.move r (c.step g.answer).2) st' ∧
      at? (pool.set r (some s')) r = some s' ∧
      at? (cs.move r (c.step g.answer).2).cursors r = some (c.step g.answer).2 := by
  obtain ⟨s', st', hpull, h'⟩ := h.pull hs hc fuel
  refine ⟨s', st', hpull, h', ?_, ?_⟩
  · rw [at?_set (lt_of_at? hs), if_pos rfl]
  · rw [Cursors.move, at?_set (lt_of_at? hc), if_pos rfl]

theorem discard (h : Accords g pool cs st) (hs : at? pool r = some s)
    (hc : at? cs.cursors r = some c) (fuel n came : Nat) :
    ∃ came' s' st', Sequence.discard (.ofFuel (fuel + 1)) n came s st = .ok ((came', s'), st') ∧
      Accords g (pool.set r (some s')) (cs.move r (c.discard g.answer n)) st' := by
  induction n generalizing pool cs s c came st with
  | zero =>
    refine ⟨came, s, st, rfl, ?_⟩
    rw [Cursor.discard, set_of_at? hs, Shares.move_self hc (h.valid.cursor hc).2]
    exact h
  | succ n ih =>
    obtain ⟨s₁, st₁, hpull, h₁, hs₁, hc₁⟩ := h.pulled hs hc fuel
    simp only [Cursor.discard]
    cases hitem : (c.step g.answer).1 with
    | none =>
      rw [hitem] at hpull
      rw [Cursor.discard_of_finished (Cursor.finished_of_step_eq_none hitem)]
      refine ⟨came, s₁, st₁, ?_, h₁⟩
      unfold Sequence.discard
      rw [Engine.bind_eq hpull]
      rfl
    | some x =>
      rw [hitem] at hpull
      obtain ⟨came', s', st', hrest, h'⟩ := ih h₁ hs₁ hc₁ (came + 1)
      rw [List.set_set, Cursors.move_move (Cursor.position_le_discard n _)] at h'
      refine ⟨came', s', st', ?_, h'⟩
      unfold Sequence.discard
      rw [Engine.bind_eq hpull]
      simp only [Option.map_some]
      rw [Engine.bind_eq (Drive.dropItem_ofPlain _ x st₁), hrest]

inductive Ends : Flow (Option Nat × List Linked.Value) (Gathered Linked.Sequence) → List Plain → Option Failure → Prop
  | onward (wanted : Option Nat) (items : List Plain) :
    Ends (.onward (wanted, (items.map .ofPlain).reverse)) items none
  | halt (items : List Plain) (failure : Option Failure) :
    Ends (.halt ⟨items.map .ofPlain, failure⟩) items failure

def outcome (items : List Plain) : Option Failure → Except Failure (List Plain)
  | none => .ok items
  | some e => .error e

theorem gatherFor (h : Accords g pool cs st) (hs : at? pool r = some s)
    (hc : at? cs.cursors r = some c) (fuel n left : Nat) (hleft : n < left) (taken : List Plain) :
    ∃ flow s' st' items failure,
      (Drive.ofFuel (fuel + 1)).walkFor Sequence.gatherStep left
        (some (n + 1), (taken.map .ofPlain).reverse) s st = .ok ((flow, s'), st') ∧
      Ends flow (taken ++ items) failure ∧
      (c.gather g.answer (n + 1)).1 = outcome items failure ∧
      Accords g (pool.set r (some s')) (cs.move r (c.gather g.answer (n + 1)).2) st' := by
  -- on the turns that are left, which are more than the elements that are wanted
  induction left generalizing pool cs s c st n taken with
  | zero => omega
  | succ left ih =>
    obtain ⟨s₁, st₁, hpull, h₁, hs₁, hc₁⟩ := h.pulled hs hc fuel
    unfold Drive.walkFor
    rw [Engine.bind_eq hpull]
    rcases hstep : c.step g.answer with ⟨_ | e | v, c₁⟩ <;> rw [hstep] at h₁ hc₁
    · refine ⟨_, s₁, st₁, [], none, rfl, ?_, by simp [Cursor.gather, hstep, outcome],
        by simpa [Cursor.gather, hstep] using h₁⟩
      rw [List.append_nil]
      exact .onward _ taken
    · refine ⟨_, s₁, st₁, [], some e, rfl, ?_, by simp [Cursor.gather, hstep, outcome],
        by simpa [Cursor.gather, hstep] using h₁⟩
      rw [List.append_nil, List.reverse_reverse]
      exact .halt taken (some e)
    · have hgather : c.gather g.answer (n + 1) =
          ((c₁.gather g.answer n).1.map (v :: ·), (c₁.gather g.answer n).2) := by
        simp [Cursor.gather, hstep]
      rw [hgather]
      cases n with
      | zero =>
        refine ⟨_, s₁, st₁, [v], none, rfl, ?_, rfl, h₁⟩
        have hends : Ends (.halt ⟨(taken ++ [v]).map .ofPlain, none⟩) (taken ++ [v]) none := .halt _ _
        simpa using hends
      | succ n =>
        obtain ⟨flow, s', st', items, failure, hwalk, hends, hfound, h'⟩ :=
          ih h₁ hs₁ hc₁ n (by omega) (taken ++ [v])
        rw [List.set_set, Cursors.move_move (Cursor.position_le_gather _ _)] at h'
        refine ⟨flow, s', st', v :: items, failure, ?_, by simpa using hends, ?_, h'⟩
        · simpa [Sequence.gatherStep] using hwalk
        · rw [hfound]
          cases failure <;> rfl

theorem gather (h : Accords g pool cs st) (hs : at? pool r = some s)
    (hc : at? cs.cursors r = some c) (fuel count : Nat) (hcount : count ≤ fuel) :
    ∃ items failure s' st',
      s.gather (.ofFuel (fuel + 1)) (some count) st = .ok ((⟨items.map .ofPlain, failure⟩, s'), st') ∧
      (c.gather g.answer count).1 = outcome items failure ∧
      Accords g (pool.set r (some s')) (cs.move r (c.gather g.answer count).2) st' := by
  unfold Sequence.gather
  cases count with
  | zero =>
    refine ⟨[], none, s, st, rfl, rfl, ?_⟩
    rw [Cursor.gather, set_of_at? hs, Shares.move_self hc (h.valid.cursor hc).2]
    exact h
  | succ n =>
    obtain ⟨flow, s', st', items, failure, hwalk, hends, hfound, h'⟩ :=
      h.gatherFor hs hc fuel n (fuel + 1) (by omega) []
    change (Drive.ofFuel (fuel + 1)).walk Sequence.gatherStep (some (n + 1), []) s st = _ at hwalk
    refine ⟨items, failure, s', st', ?_, hfound, h'⟩
    rw [if_neg (by simp), Engine.bind_eq hwalk]
    cases hends with
    | onward wanted items => simp
    | halt items failure => rfl

theorem settle_ofPlain (fuel : Nat) (items : List Plain) (failure : Option Failure) (st : Store) :
    (Drive.ofFuel fuel).settle ⟨items.map .ofPlain, failure⟩ st =
      .ok (.ofPlain ((outcome items failure).map .list), st) := by
  cases failure with
  | none => simp [Drive.settle, outcome, Item.ofPlain, Except.map, Tree.ofPlain, Tree.map,
      Tree.mapList_eq_map]
  | some e =>
    change (Engine.dropValues (items.map .ofPlain) >>= _) st = _
    rw [Engine.bind_eq (Engine.dropValues_ofPlain items st)]
    rfl

theorem takeList (h : Accords g pool cs st) (hs : at? pool r = some s)
    (hc : at? cs.cursors r = some c) (fuel count : Nat) (hcount : count ≤ fuel) :
    ∃ s' st', s.takeList (.ofFuel (fuel + 1)) count st =
        .ok ((.ofPlain ((c.gather g.answer count).1.map .list), s'), st') ∧
      Accords g (pool.set r (some s')) (cs.move r (c.gather g.answer count).2) st' := by
  obtain ⟨items, failure, s', st', hgather, hfound, h'⟩ := h.gather hs hc fuel count hcount
  refine ⟨s', st', ?_, h'⟩
  unfold Sequence.takeList
  rw [Engine.bind_eq hgather]
  dsimp only
  rw [Engine.bind_eq (settle_ofPlain _ items failure st'), hfound]
  rfl

theorem seekFor (h : Accords g pool cs st) (hs : at? pool r = some s)
    (hc : at? cs.cursors r = some c) (fuel index seen left : Nat) (hseen : seen + left = index)
    (walk : Nat) (hwalk : left < walk) :
    ∃ flow s' st', (Drive.ofFuel (fuel + 1)).walkFor (Sequence.indexStep (.ofFuel (fuel + 1)) index) walk seen s st =
        .ok ((flow, s'), st') ∧
      (flow = .halt (.ofPlain (c.seek g.answer index left).1) ∨ ∃ seen', flow = .onward seen' ∧
        (c.seek g.answer index left).1 = .error (.indexOutOfRange index seen')) ∧
      Accords g (pool.set r (some s')) (cs.move r (c.seek g.answer index left).2) st' := by
  -- what has been passed over and what is still to be passed over make up the index
  induction walk generalizing pool cs s c st seen left with
  | zero => omega
  | succ walk ih =>
    obtain ⟨s₁, st₁, hpull, h₁, hs₁, hc₁⟩ := h.pulled hs hc fuel
    unfold Drive.walkFor
    rw [Engine.bind_eq hpull]
    rcases hstep : c.step g.answer with ⟨_ | e | v, c₁⟩ <;> rw [hstep] at h₁ hc₁
    · have hseek : c.seek g.answer index left = (.error (.indexOutOfRange index seen), c₁) := by
        cases left with
        | zero => simp [Cursor.seek, hstep, ← hseen]
        | succ left => simp [Cursor.seek, hstep, ← hseen]
      rw [hseek]
      exact ⟨_, s₁, st₁, rfl, .inr ⟨seen, rfl, rfl⟩, h₁⟩
    · have hseek : c.seek g.answer index left = (.error e, c₁) := by
        cases left <;> simp [Cursor.seek, hstep]
      rw [hseek]
      exact ⟨_, s₁, st₁, rfl, .inl rfl, h₁⟩
    · cases left with
      | zero =>
        have hseek : c.seek g.answer index 0 = (.ok v, c₁) := by simp [Cursor.seek, hstep]
        rw [hseek]
        refine ⟨_, s₁, st₁, ?_, .inl rfl, h₁⟩
        simp [Sequence.indexStep, show seen = index by omega]
      | succ left =>
        have hseek : c.seek g.answer index (left + 1) = c₁.seek g.answer index left := by
          simp [Cursor.seek, hstep]
        rw [hseek]
        obtain ⟨flow, s', st', hrest, hflow, h'⟩ :=
          ih h₁ hs₁ hc₁ (seen + 1) left (by omega) (by omega)
        rw [List.set_set, Cursors.move_move (Cursor.position_le_seek _ _ _)] at h'
        refine ⟨flow, s', st', ?_, hflow, h'⟩
        simp only [Option.map_some, Item.ofPlain_ok, Sequence.indexStep, if_neg (show seen ≠ index by omega)]
        have hvisit : (do (Drive.ofFuel (fuel + 1)).drop [Tree.ofPlain v]; pure (.onward (seen + 1)) :
            Engine (Flow Nat Linked.Item)) st₁ = .ok (.onward (seen + 1), st₁) :=
          Engine.bind_eq (Engine.dropValues_ofPlain [v] st₁)
        rw [Engine.bind_eq hvisit]
        exact hrest

theorem retire {walker walker' : Linked.Sequence} {c' : Cursor}
    (h : Accords g ((pool ++ [some walker]).set pool.length (some walker'))
      ((cs.add c).move pool.length c') st) (hlength : pool.length = cs.cursors.length)
    (fuel : Nat) :
    ∃ st', (Drive.ofFuel fuel).dropSequence walker' st = .ok ((), st') ∧
      Accords g pool (cs.reach c') st' := by
  have hs : at? ((pool ++ [some walker]).set pool.length (some walker')) pool.length =
      some walker' := by
    rw [at?_set (by simp), if_pos rfl]
  have hk : at? ((cs.add c).move pool.length c').cursors pool.length = some c' := by
    rw [Cursors.move, at?_set (by simp [Cursors.add, hlength]), if_pos rfl]
  obtain ⟨st', hdrop, h'⟩ := h.drop hs hk
  refine ⟨st', hdrop, ?_⟩
  have hpool : ((pool ++ [some walker]).set pool.length (some walker')).set pool.length none =
      pool ++ [none] := by simp
  have hcursors : ((cs.add c).move pool.length c').remove pool.length =
      ⟨cs.cursors ++ [none], max cs.reached c'.position⟩ := by
    simp [Cursors.remove, Cursors.move, Cursors.add, hlength]
  rw [hpool, hcursors] at h'
  exact h'.forget

theorem index (h : Accords g pool cs st) (hs : at? pool r = some s)
    (hc : at? cs.cursors r = some c) (fuel place : Nat) (hplace : place ≤ fuel) :
    ∃ s' st', s.index (.ofFuel (fuel + 1)) place st =
        .ok ((.ofPlain (c.seek g.answer place place).1, s'), st') ∧
      Accords g (pool.set r (some s')) (cs.reach (c.seek g.answer place place).2) st' := by
  obtain ⟨s', walker, st₁, hfork, h₁⟩ := h.fork hs hc
  have hlength : (pool.set r (some s')).length = cs.cursors.length := by
    simpa using h.length_eq
  have hwalker : at? (pool.set r (some s') ++ [some walker]) (pool.set r (some s')).length =
      some walker := by
    rw [at?_append, if_pos rfl]
  have hk : at? (cs.add c).cursors (pool.set r (some s')).length = some c := by
    rw [Cursors.add, at?_append, hlength, if_pos rfl]
  obtain ⟨flow, walker', st₂, hwalk, hflow, h₂⟩ :=
    h₁.seekFor hwalker hk fuel place 0 place (Nat.zero_add place) (fuel + 1) (by omega)
  change (Drive.ofFuel (fuel + 1)).walk (Sequence.indexStep (.ofFuel (fuel + 1)) place) 0 walker st₁ = _ at hwalk
  obtain ⟨st₃, hdrop, h₃⟩ := retire h₂ hlength (fuel + 1)
  refine ⟨s', st₃, ?_, h₃⟩
  unfold Sequence.index
  change (s.fork >>= _) st = _
  rw [Engine.bind_eq hfork]
  dsimp only
  rw [Engine.bind_eq hwalk]
  dsimp only
  rw [Engine.bind_eq hdrop]
  rcases hflow with rfl | ⟨seen, rfl, hmissed⟩
  · rfl
  · rw [hmissed]
    rfl

theorem spend {walker : Linked.Sequence} (h : Accords g (pool ++ [some walker]) (cs.add c) st)
    (hlength : pool.length = cs.cursors.length) (fuel start stop : Nat)
    (hcount : stop - start ≤ fuel) :
    ∃ st', walker.spend (.ofFuel (fuel + 1)) start (some (stop - start)) st =
        .ok (.ofPlain ((c.slice g.answer start stop).1.map .list), st') ∧
      Accords g pool (cs.reach (c.slice g.answer start stop).2) st' := by
  have hs : at? (pool ++ [some walker]) pool.length = some walker := by
    rw [at?_append, if_pos rfl]
  have hc : at? (cs.add c).cursors pool.length = some c := by
    rw [Cursors.add, at?_append, hlength, if_pos rfl]
  unfold Sequence.spend Cursor.slice
  by_cases hnone : stop - start = 0
  · have hstay := h
    rw [← set_of_at? hs, ← Shares.move_self hc (h.valid.cursor hc).2] at hstay
    obtain ⟨st', hdrop, h'⟩ := retire hstay hlength (fuel + 1)
    rw [if_pos hnone, if_pos (by rw [hnone])]
    refine ⟨st', ?_, h'⟩
    rw [Engine.bind_eq hdrop]
    rfl
  · obtain ⟨came, walker₁, st₁, hdiscard, h₁⟩ := h.discard hs hc fuel start 0
    have hs₁ : at? ((pool ++ [some walker]).set pool.length (some walker₁)) pool.length =
        some walker₁ := by
      rw [at?_set (lt_of_at? hs), if_pos rfl]
    have hc₁ : at? ((cs.add c).move pool.length (c.discard g.answer start)).cursors pool.length =
        some (c.discard g.answer start) := by
      rw [Cursors.move, at?_set (lt_of_at? hc), if_pos rfl]
    obtain ⟨items, failure, walker₂, st₂, hgather, hfound, h₂⟩ :=
      h₁.gather hs₁ hc₁ fuel (stop - start) hcount
    rw [List.set_set, Cursors.move_move (Cursor.position_le_gather _ _)] at h₂
    obtain ⟨st₃, hdrop, h₃⟩ := retire h₂ hlength (fuel + 1)
    rw [if_neg hnone, if_neg (by simpa using hnone)]
    refine ⟨st₃, ?_, h₃⟩
    rw [Engine.bind_eq hdiscard]
    dsimp only
    rw [Engine.bind_eq hgather]
    dsimp only
    rw [Engine.bind_eq hdrop, hfound, settle_ofPlain]

theorem slice (h : Accords g pool cs st) (hs : at? pool r = some s)
    (hc : at? cs.cursors r = some c) (fuel start stop : Nat) (hcount : stop - start ≤ fuel) :
    ∃ s' st', s.slice (.ofFuel (fuel + 1)) start stop st =
        .ok ((.ofPlain ((c.slice g.answer start stop).1.map .list), s'), st') ∧
      Accords g (pool.set r (some s')) (cs.reach (c.slice g.answer start stop).2) st' := by
  obtain ⟨s', walker, st₁, hfork, h₁⟩ := h.fork hs hc
  obtain ⟨st₂, hspend, h₂⟩ := h₁.spend (by simpa using h.length_eq) fuel start stop hcount
  refine ⟨s', st₂, ?_, h₂⟩
  unfold Sequence.slice
  change (s.fork >>= _) st = _
  rw [Engine.bind_eq hfork]
  dsimp only
  rw [Engine.bind_eq hspend]
  rfl

theorem on (h : Accords g pool cs st) (r : Nat)
    {work : Linked.Sequence → Engine (Reply Linked.Sequence × Pool)} {task : Cursor → Reply Empty × Cursors}
    (hwork : ∀ s c, at? pool r = some s → at? cs.cursors r = some c →
      ∃ pool' st', work s st = .ok ((.ofPlain (task c).1, pool'), st') ∧
        Accords g pool' (task c).2 st') :
    ∃ pool' st', Readers.act.on pool r work st =
        .ok ((.ofPlain (Cursors.act.on cs r task).1, pool'), st') ∧
      Accords g pool' (Cursors.act.on cs r task).2 st' := by
  unfold Readers.act.on Cursors.act.on
  cases hs : at? pool r with
  | none =>
    rw [(h.alive r).mp hs]
    exact ⟨pool, st, rfl, h⟩
  | some s =>
    obtain ⟨c, hc⟩ := h.cursor_of hs
    rw [hc]
    exact hwork s c hs hc

theorem act (h : Accords g pool cs st) (a : Act) (fuel : Nat) (hreach : a.reach ≤ fuel) :
    ∃ pool' st', Readers.act (.ofFuel (fuel + 1)) a pool st =
        .ok ((.ofPlain (cs.act g.answer a).1, pool'), st') ∧
      Accords g pool' (cs.act g.answer a).2 st' := by
  cases a with
  | next r =>
    refine h.on r fun s c hs hc => ?_
    obtain ⟨s', st', hpull, h'⟩ := h.pull hs hc fuel
    change (Drive.ofFuel (fuel + 1)).pull s st = _ at hpull
    refine ⟨pool.set r (some s'), st', ?_, h'⟩
    rw [Engine.bind_eq hpull]
    rfl
  | fork r =>
    refine h.on r fun s c hs hc => ?_
    obtain ⟨s', other, st', hfork, h'⟩ := h.fork hs hc
    change (Drive.ofFuel (fuel + 1)).fork s st = _ at hfork
    refine ⟨pool.set r (some s') ++ [some other], st', ?_, h'⟩
    rw [Engine.bind_eq hfork]
    rfl
  | split r =>
    refine h.on r fun s c hs hc => ?_
    have hrenumbered := h.renumber hs hc
    have hlength : pool.length = cs.cursors.length := h.length_eq
    have hs' : at? (pool.set r none ++ [some s]) pool.length = some s := by simp [at?_append]
    have hc' : at? ((cs.remove r).add c).cursors pool.length = some c := by
      simp [Cursors.add, Cursors.remove, at?_append, hlength]
    obtain ⟨s', other, st', hfork, h'⟩ := hrenumbered.fork hs' hc'
    change (Drive.ofFuel (fuel + 1)).fork s st = _ at hfork
    refine ⟨pool.set r none ++ [some s', some other], st', ?_, by simpa using h'⟩
    rw [Engine.bind_eq hfork]
    rfl
  | index r place =>
    refine h.on r fun s c hs hc => ?_
    obtain ⟨s', st', hindex, h'⟩ := h.index hs hc fuel place hreach
    refine ⟨pool.set r (some s'), st', ?_, h'⟩
    rw [Engine.bind_eq hindex]
    rfl
  | slice r start stop =>
    refine h.on r fun s c hs hc => ?_
    obtain ⟨s', st', hslice, h'⟩ := h.slice hs hc fuel start stop hreach
    refine ⟨pool.set r (some s'), st', ?_, h'⟩
    rw [Engine.bind_eq hslice]
    rfl
  | take r count =>
    refine h.on r fun s c hs hc => ?_
    obtain ⟨s', st', htake, h'⟩ := h.takeList hs hc fuel count hreach
    refine ⟨pool.set r (some s'), st', ?_, h'⟩
    rw [Engine.bind_eq htake]
    rfl
  | drop r =>
    refine h.on r fun s c hs hc => ?_
    obtain ⟨st', hdrop, h'⟩ := h.drop hs hc
    change (Drive.ofFuel (fuel + 1)).dropSequence s st = _ at hdrop
    refine ⟨pool.set r none, st', ?_, h'⟩
    rw [Engine.bind_eq hdrop]
    rfl

theorem source_eq (h : Accords g pool cs st) (hs : at? pool r = some s) :
    source? st s = some (.generated (g.after cs.reached)) := by
  cases h.stands with
  | gone hp => simp [hp] at hs
  | alone r₀ s₀ c₀ hp _ horigin =>
    rw [hp] at hs
    split at hs
    · obtain rfl := Option.some.inj hs
      simp [source?, horigin]
    · cases hs
  | shared i fanout hooks hshares =>
    obtain ⟨c, hc⟩ := hshares.cursor_of hs
    obtain ⟨slot, -, -, horigin, -⟩ := (hshares.reads hs hc).slot
    simp [source?, horigin, hshares.held]

theorem start (g : Generator) (hint : Hint) (hooks : List String) (st : Store) :
    Accords g [some ⟨.direct (.generated g), hint, false, hooks⟩] .start st := by
  have hone : ∀ {α : Type} (a : α) j, at? [some a] j = if j = 0 then some a else none := by
    intro α a j
    cases j <;> simp [at?]
  refine ⟨⟨?_, ?_⟩, rfl, .alone 0 _ ⟨0, false⟩ (hone _) (hone _) rfl rfl rfl⟩
  · intro r c hc
    rw [Cursors.start, hone] at hc
    split at hc
    · obtain rfl := Option.some.inj hc
      exact ⟨fun k hk => absurd hk (Nat.not_lt_zero k), Nat.le_refl _⟩
    · cases hc
  · intro k hk
    exact absurd hk (Nat.not_lt_zero _)

end Accords

theorem run_accords (acts : List Act) (h : Accords g pool cs st) (fuel : Nat)
    (hreach : ∀ a ∈ acts, a.reach ≤ fuel) :
    ∃ pool' st', run (.ofFuel (fuel + 1)) acts pool st =
        .ok (((cs.run g.answer acts).1.map .ofPlain, pool'), st') ∧
      Accords g pool' (cs.run g.answer acts).2 st' := by
  induction acts generalizing pool cs st with
  | nil => exact ⟨pool, st, rfl, h⟩
  | cons a acts ih =>
    obtain ⟨pool₁, st₁, hact, h₁⟩ := h.act a fuel (hreach a List.mem_cons_self)
    obtain ⟨pool', st', hrun, h'⟩ := ih h₁ fun b hb => hreach b (List.mem_cons_of_mem a hb)
    refine ⟨pool', st', ?_, h'⟩
    unfold run
    rw [Engine.bind_eq hact]
    dsimp only
    rw [Engine.bind_eq hrun]
    rfl

/-- Whatever is done with a sequence over a generator and with all that are forked from it, each of
them reads the stream as if it were alone. The generator is asked as often as the one that has come
furthest needed, and every answer but the last was an element. -/
theorem run_forks_eq_cursors (g : Generator) (hint : Hint) (hooks : List String) (st : Store)
    (acts : List Act) :
    ∃ bound, ∀ fuel ≥ bound, ∃ pool st',
      run (.ofFuel fuel) acts [some ⟨.direct (.generated g), hint, false, hooks⟩] st =
        .ok (((Cursors.start.run g.answer acts).1.map .ofPlain, pool), st') ∧
      (∀ r, at? pool r = none ↔ at? (Cursors.start.run g.answer acts).2.cursors r = none) ∧
      (∀ r s, at? pool r = some s → source? st' s =
        some (.generated (g.after (Cursors.start.run g.answer acts).2.reached))) ∧
      ∀ k, k + 1 < (Cursors.start.run g.answer acts).2.reached → Delivers g.answer k := by
  refine ⟨(acts.map Act.reach).max?.getD 0 + 1, fun fuel hfuel => ?_⟩
  obtain ⟨fuel, rfl⟩ : ∃ n, fuel = n + 1 := ⟨fuel - 1, by omega⟩
  have hreach : ∀ a ∈ acts, a.reach ≤ fuel := by
    intro a ha
    have : a.reach ≤ (acts.map Act.reach).max?.getD 0 :=
      List.le_max?_getD_of_mem (List.mem_map_of_mem ha)
    omega
  obtain ⟨pool, st', hrun, h⟩ := run_accords acts (Accords.start g hint hooks st) fuel hreach
  exact ⟨pool, st', hrun, h.alive, fun r s hs => h.source_eq hs, h.valid.reached⟩

end Readers

end LazyCalc
