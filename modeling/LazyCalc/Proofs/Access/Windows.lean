import LazyCalc.Proofs.Access.Positions
/-!
Some of the elements of a collection. Those of a list are cut out at once; those of a sequence are
passed over and taken as they are pulled, and any number of such windows over one sequence are each
by themselves.
-/

namespace LazyCalc

open Filter

open List (Forall₂)

open Readers (at?)

open Scalar (wordLimit)

namespace Lone

namespace Remainder

variable (r : Remainder)

def take (n : Nat) : Remainder := if r.length < n then r else ⟨r.element, n, none⟩

/-- What a window shows: nothing, if the end or the failure comes before its start. -/
def window (start count : Nat) : Remainder := (r.drop start).take count

variable {r}

theorem take_of_lt {n : Nat} (h : r.length < n) : r.take n = r := if_pos h

theorem take_of_le {n : Nat} (h : n ≤ r.length) : r.take n = ⟨r.element, n, none⟩ :=
  if_neg h.not_gt

/-- The elements are those of a list, and then comes the end. -/
structure Lists (r : Remainder) (xs : List Value) : Prop where
  length : r.length = xs.length
  failure : r.failure = none
  element : ∀ (i : Nat) (h : i < xs.length), r.element i = xs[i]

theorem lists_ofList (xs : List Value) : (ofList xs).Lists xs :=
  ⟨rfl, rfl, fun _ => element_ofList⟩

variable {xs : List Value}

theorem Lists.drop (h : r.Lists xs) (n : Nat) : (r.drop n).Lists (xs.drop n) := by
  rcases le_or_gt n xs.length with hle | hlt
  · rw [drop_of_le (h.length ▸ Nat.cast_le.mpr hle)]
    refine ⟨?_, h.failure, fun i hi => ?_⟩
    · rw [List.length_drop, ENat.natCast_sub, ← h.length]
    · rw [List.length_drop] at hi
      rw [List.getElem_drop, h.element (n + i) (by omega)]
  · rw [drop_of_lt (h.length ▸ Nat.cast_lt.mpr hlt), List.drop_eq_nil_of_le hlt.le]
    exact ⟨rfl, rfl, fun i hi => absurd hi (Nat.not_lt_zero i)⟩

theorem Lists.take (h : r.Lists xs) (n : Nat) : (r.take n).Lists (xs.take n) := by
  rcases lt_or_ge xs.length n with hlt | hle
  · rw [take_of_lt (h.length ▸ Nat.cast_lt.mpr hlt), List.take_of_length_le hlt.le]
    exact h
  · rw [take_of_le (h.length ▸ Nat.cast_le.mpr hle)]
    refine ⟨?_, rfl, fun i hi => ?_⟩
    · rw [List.length_take_of_le hle]
    · rw [List.length_take_of_le hle] at hi
      rw [List.getElem_take, h.element i (hi.trans_le hle)]

end Remainder

variable {s : Sequence} {r : Remainder}

theorem Remains.of_lists {xs : List Value} (h : Remains s r) (hxs : r.Lists xs) :
    Remains s (.ofList xs) := by
  obtain ⟨rest, h0, hgives, hstops⟩ := h
  refine ⟨rest, h0, fun i hi => ?_, fun k hk => ?_⟩
  · have hlt : i < xs.length := Nat.cast_lt.mp hi
    rw [Remainder.element_ofList hlt, ← hxs.element i hlt]
    exact hgives i (hxs.length ▸ hi)
  · have hstop := hstops k (hxs.length.trans hk)
    rwa [hxs.failure] at hstop

theorem tells_window {s s₁ s' : Sequence} {skip came : Nat} {item : Option Item}
    {texts texts' : List String}
    (hdiscard : Tells (fun n => LazyCalc.Sequence.discard (Drive.told n) skip 0 s) (came, s₁) texts)
    (hpull : Tells (fun n => (Drive.told n).pull s₁) (item, s') texts') (count : Nat)
    (hint : Hint) :
    Tells (fun n => (Drive.told n).pull ⟨.direct (.window s skip (count + 1)), hint, false, []⟩)
      (item, ⟨.direct (.window s' 0 count), hint, LazyCalc.Sequence.closes item, []⟩)
      (texts ++ texts') := by
  have hstep (n : Nat) :
      (Drive.told (n + 1)).pull ⟨.direct (.window s skip (count + 1)), hint, false, []⟩ =
        (LazyCalc.Source.window s skip (count + 1)).step (Drive.told n) >>= fun c =>
          pure (c.1, ⟨.direct c.2, hint, LazyCalc.Sequence.closes c.1, []⟩) := rfl
  refine .succ ?_
  simp only [hstep]
  rw [← List.append_nil (texts ++ texts')]
  have hsource : Tells (fun n => (LazyCalc.Source.window s skip (count + 1)).step (Drive.told n))
      (item, .window s' 0 count) (texts ++ texts') := by
    rw [← List.append_nil texts']
    exact hdiscard.bind (hpull.bind (.pure _))
  exact hsource.bind (.pure _)

theorem tells_window_zero (s : Sequence) (skip : Nat) (hint : Hint) :
    Tells (fun n => (Drive.told n).pull ⟨.direct (.window s skip 0), hint, false, []⟩)
      (none, ⟨.direct (.window s skip 0), hint, true, []⟩) [] := .succ (.pure _)

theorem Course.remains_window (c : Course r) {skip came : Nat} {texts : List String}
    (hdiscard : Tells (fun n => LazyCalc.Sequence.discard (Drive.told n) skip 0 s) (came, c.rest 0)
      texts) (count : Nat) (hint : Hint) :
    Remains ⟨.direct (.window s skip count), hint, false, []⟩ (r.take count) := by
  let inner (i : Nat) : Sequence := i.casesOn s fun i => c.rest (i + 1)
  let before (i : Nat) : Nat := i.casesOn skip fun _ => 0
  let rest (i : Nat) : Sequence :=
    ⟨.direct (.window (inner i) (before i) (count - i)), hint, false, []⟩
  -- only the first pull has something to pass over
  have hreached (i : Nat) : ∃ came texts,
      Tells (fun n => LazyCalc.Sequence.discard (Drive.told n) (before i) 0 (inner i))
        (came, c.rest i) texts := by
    cases i with
    | zero => exact ⟨came, texts, hdiscard⟩
    | succ i => exact ⟨0, [], .pure _⟩
  have hrest {i : Nat} (hi : i < count) :
      rest i = ⟨.direct (.window (inner i) (before i) (count - (i + 1) + 1)), hint, false, []⟩ := by
    have hcount : count - i = count - (i + 1) + 1 := by omega
    simp only [rest, hcount]
  have hgives (i : Nat) (hlength : i < r.length) (hcount : i < count) :
      Settles (fun n => (Drive.alone n).pull (rest i)) (some (.ok (r.element i)), rest (i + 1)) := by
    obtain ⟨came, texts, hreached⟩ := hreached i
    rw [hrest hcount]
    exact settles_pull_iff.mpr ⟨_, tells_window hreached (c.gives i hlength) _ hint⟩
  rcases lt_or_ge r.length (count : ℕ∞) with hlength | hlength
  · rw [Remainder.take_of_lt hlength]
    refine ⟨rest, rfl, fun i hi => hgives i hi (Nat.cast_lt.mp (hi.trans hlength)), fun k hk => ?_⟩
    obtain ⟨came, texts, hreached⟩ := hreached k
    obtain ⟨s', texts', hstop⟩ := c.stops k hk
    rw [hrest (Nat.cast_lt.mp (hk ▸ hlength))]
    exact ⟨_, settles_pull_iff.mpr ⟨_, tells_window hreached hstop _ hint⟩⟩
  · rw [Remainder.take_of_le hlength]
    refine ⟨rest, rfl, fun i hi => hgives i (hi.trans_le hlength) (Nat.cast_lt.mp hi),
      fun k hk => ?_⟩
    obtain rfl : count = k := Nat.cast_inj.mp hk
    simp only [rest, Nat.sub_self]
    exact ⟨_, settles_pull_iff.mpr ⟨_, tells_window_zero _ _ hint⟩⟩

theorem Remains.window (h : Remains s r) (start count : Nat) :
    Remains (s.window start count) (r.window start count) := by
  obtain ⟨c, rfl⟩ := h.exists_course
  obtain ⟨came, s₁, texts, hdiscard, hrest⟩ := c.tells_discard start
  obtain ⟨c₁, rfl⟩ := hrest.exists_course
  exact c₁.remains_window hdiscard count _

def cut (xs : List Value) (start count : Nat) : List Value :=
  xs.extract start (min (start + count) xs.length)

theorem cut_eq (xs : List Value) (start count : Nat) :
    cut xs start count = (xs.drop start).take count := by
  have hcount : min (start + count) xs.length - start = min count (xs.drop start).length := by
    rw [List.length_drop]
    omega
  rw [cut, List.extract_eq_take_drop, hcount, ← List.take_eq_take_min]

theorem length_cut (xs : List Value) (start count : Nat) :
    (cut xs start count).length = min (xs.length - start) count := by
  rw [cut_eq, List.length_take, List.length_drop, min_comm]

theorem Remains.cut {xs : List Value} {start count : Nat}
    (h : Remains s ((Remainder.ofList xs).window start count)) :
    Remains s (.ofList (cut xs start count)) := by
  rw [cut_eq]
  exact h.of_lists (((Remainder.lists_ofList xs).drop start).take count)

end Lone

namespace Operator

def sublistAt (start count : Nat) : Operator :=
  .listArg (sublistPlan (.integer start) (.integer count))

theorem sublistPlan_eq {start count : Nat} (hstart : start < wordLimit) (hcount : count < wordLimit)
    (extent : Extent) :
    sublistPlan (.integer start) (.integer count) extent = .ok (.read (.window start count)) := by
  rw [sublistPlan, position_of_lt (Int.natCast_nonneg start) (Int.ofNat_lt.mpr hstart),
    position_of_lt (Int.natCast_nonneg count) (Int.ofNat_lt.mpr hcount)]
  rfl

end Operator

namespace Lone

section

variable {start count : Nat} (hstart : start < wordLimit) (hcount : count < wordLimit) (n : Nat)

include hstart hcount

theorem readWith_sublist_list (xs : List Value) :
    (LazyCalc.Collection.list xs).readWith (Drive.alone n)
        (Operator.sublistPlan (.integer start) (.integer count)) =
      some (.ok (.list (cut xs start count))) := by
  rw [Collection.readWith, Operator.sublistPlan_eq hstart hcount, cut_eq]
  rfl

theorem readWith_sublist_sequence (s : Sequence) :
    (LazyCalc.Collection.sequence s).readWith (Drive.alone n)
        (Operator.sublistPlan (.integer start) (.integer count)) =
      some (.ok (.sequence (s.window start count))) := by
  rw [Collection.readWith, Operator.sublistPlan_eq hstart hcount]
  rfl

end

def starts (pairs : List (Nat × Nat)) : Plain := .list (pairs.map fun p => .scalar (.integer p.1))

def counts (pairs : List (Nat × Nat)) : Plain := .list (pairs.map fun p => .scalar (.integer p.2))

def windows (s : Sequence) (pairs : List (Nat × Nat)) : List Value :=
  pairs.map fun p => .sequence (s.window p.1 p.2)

theorem settles_windows (s : Sequence) {pairs : List (Nat × Nat)} {limit : Nat} (hlimit : 1 ≤ limit)
    (hpairs : ∀ p ∈ pairs, p.1 < wordLimit ∧ p.2 < wordLimit) (name : String) :
    ∃ w : Value,
      Settles (fun n => (Operator.listAndTwoArgs Operator.sublistPlan limit).call (Drive.alone n) name
        [.sequence s, .ofPlain (starts pairs), .ofPlain (counts pairs)]) (.ok w) ∧
      w.spread = windows s pairs := by
  -- lists of one element are unwrapped, so that a single pair is not answered by a list
  by_cases hsingle : pairs.length = 1
  · obtain ⟨p, rfl⟩ := List.length_eq_one_iff.mp hsingle
    obtain ⟨hstart, hcount⟩ := hpairs p (List.mem_singleton_self p)
    refine ⟨.sequence (s.window p.1 p.2), .of_forall fun n => ?_, rfl⟩
    refine (call_singleton_two rfl name (.integer p.1) (.integer p.2) n).trans ?_
    exact readWith_sublist_sequence hstart hcount n s
  · let ps : List (Scalar × Scalar) := pairs.map fun p => (.integer p.1, .integer p.2)
    have hps : ps.length ≠ 1 := by rwa [List.length_map]
    have hstarts : starts pairs = .list ((ps.map Prod.fst).map .scalar) := by
      rw [List.map_map, List.map_map]
      rfl
    have hcounts : counts pairs = .list ((ps.map Prod.snd).map .scalar) := by
      rw [List.map_map, List.map_map]
      rfl
    have hreads : Forall₂ (fun p x => Settles (fun n =>
        (LazyCalc.Collection.ofValue (.sequence s)).readWith (Drive.alone n)
          (Operator.sublistPlan p.1 p.2)) x) ps ((windows s pairs).map .ok) := by
      rw [windows, List.map_map, List.forall₂_map_left_iff, List.forall₂_map_right_iff,
        List.forall₂_same]
      intro p hp
      obtain ⟨hstart, hcount⟩ := hpairs p hp
      exact .of_forall fun n => readWith_sublist_sequence hstart hcount n s
    refine ⟨.list (windows s pairs), ?_, rfl⟩
    have hlisted : listed ((windows s pairs).map .ok) = .ok (.list (windows s pairs)) := by
      rw [listed, mapM_ok]
      rfl
    rw [hstarts, hcounts, ← hlisted]
    exact settles_scalar_pairs rfl name hlimit hps hreads

end Lone

namespace Moment

variable {M : Moment} {number : Nat}

theorem gives_sublist_list {xs : List Lone.Value} (hv : M.Stands [number] [.list xs])
    {start count : Nat} (hstart : start < wordLimit) (hcount : count < wordLimit) :
    M.Gives number (.sublistAt start count) [] (.ok (.list (Lone.cut xs start count))) :=
  gives_of_settles hv fun _ => .of_forall fun n =>
    Lone.readWith_sublist_list hstart hcount n xs

theorem gives_sublist_sequence {s : Lone.Sequence} (hv : M.Stands [number] [.sequence s])
    {start count : Nat} (hstart : start < wordLimit) (hcount : count < wordLimit) :
    M.Gives number (.sublistAt start count) [] (.ok (.sequence (s.window start count))) :=
  gives_of_settles hv fun _ => .of_forall fun n =>
    Lone.readWith_sublist_sequence hstart hcount n s

theorem gives_window {s : Lone.Sequence} (hv : M.Stands [number] [.sequence s]) (limit : Nat)
    {start count : Nat} (hstart : start < wordLimit) (hcount : count < wordLimit) :
    M.Gives number (.listAndTwoArgs Operator.sublistPlan limit)
      [.scalar (.integer start), .scalar (.integer count)]
      (.ok (.sequence (s.window start count))) :=
  gives_of_settles hv fun name => .of_forall fun n =>
    (Lone.call_scalars_two rfl name (.integer start) (.integer count) n).trans
      (Lone.readWith_sublist_sequence hstart hcount n s)

theorem windows_alike {s s' : Lone.Sequence} (hs : M.Stands [number] [.sequence s])
    (hs' : M.Stands [number] [.sequence s']) {pairs : List (Nat × Nat)}
    (hpairs : ∀ p ∈ pairs, p.1 < wordLimit ∧ p.2 < wordLimit) (rest : Lone.Desk) (k : Nat)
    (acts : List (Nat × Act)) (rs : List (Nat × Showing)) :
    Desk.Replies acts (Desk.only k (rest :: (Lone.windows s pairs).map fun w => [some w])) rs ↔
      Desk.Replies acts (Desk.only k (rest :: (Lone.windows s' pairs).map fun w => [some w])) rs := by
  cases k with
  | zero => rfl
  | succ k =>
    simp only [Desk.only, List.getElem?_cons_succ, Lone.windows, List.getElem?_map]
    cases hp : pairs[k]? with
    | none => rfl
    | some p =>
      obtain ⟨hstart, hcount⟩ := hpairs p (List.mem_of_getElem? hp)
      exact (gives_sublist_sequence hs hstart hcount).replies_iff
        (gives_sublist_sequence hs' hstart hcount) acts rs

/-- The elements of a list from `start` on, `count` of them or as many as there are, are cut out of
it; of a sequence over the same elements that tells how many there are comes a sequence over those
that are cut out, and it tells how many these are. Any windows that are asked of one sequence at
once, laid apart, are by themselves: whatever is done with them, each replies as that window of the
sequence does when it is the only one, and it shows what is left of the sequence after `start`, as
far as `count` elements, with a failure among these in its place and nothing of one before them. -/
theorem windows_apart (M : Moment) (number : Nat) :
    (∀ xs : List Lone.Value, M.Stands [number] [.list xs] →
      ∀ start count : Nat, start < wordLimit → count < wordLimit →
        M.Gives number (.sublistAt start count) []
          (.ok (.list (xs.extract start (min (start + count) xs.length))))) ∧
    ∀ s : Lone.Sequence, M.Stands [number] [.sequence s] →
      (∀ xs : List Lone.Value, Lone.Remains s (.ofList xs) → s.hint = .exact xs.length →
        ∀ start count : Nat, start < wordLimit → count < wordLimit →
          ∃ w : Lone.Sequence, M.Gives number (.sublistAt start count) [] (.ok (.sequence w)) ∧
            w.hint = .exact (xs.extract start (min (start + count) xs.length)).length ∧
            Lone.Remains w (.ofList (xs.extract start (min (start + count) xs.length)))) ∧
      ∀ t : Linked.Sequence, at? M.desk number = some (.sequence t) →
        ∀ (limit : Nat) (pairs : List (Nat × Nat)), 1 ≤ limit →
          (∀ p ∈ pairs, p.1 < wordLimit ∧ p.2 < wordLimit) →
          (∀ p ∈ pairs,
            M.Gives number (.listAndTwoArgs Operator.sublistPlan limit)
              [.scalar (.integer p.1), .scalar (.integer p.2)]
              (.ok (.sequence (s.window p.1 p.2))) ∧
            ∀ r, Lone.Remains s r → Lone.Remains (s.window p.1 p.2) (r.window p.1 p.2)) ∧
          ∀ (name : String) (acts : List (Nat × Act)) (out : Except Failure (List (Nat × Showing))),
            Yields (fun n => Prod.fst <$> Desk.apart (Drive.ofFuel n) Sequence.onClose name
                (.listAndTwoArgs Operator.sublistPlan limit) (List.range 3) acts
                (M.beside number [Lone.starts pairs, Lone.counts pairs])) M.store out ↔
              ∃ replies, out = .ok replies ∧ replies.map Prod.fst = acts.map Prod.fst ∧
                ∀ k, Desk.Replies (own k acts)
                  (Desk.only k ([none, none, none] ::
                    (Lone.windows s pairs).map fun w => [some w]))
                  (own k replies) := by
  refine ⟨fun xs hv start count => gives_sublist_list hv, fun s hv => ⟨?_, ?_⟩⟩
  · intro xs hs hexact start count hstart hcount
    refine ⟨_, gives_sublist_sequence hv hstart hcount, ?_, (hs.window start count).cut⟩
    have hlength : (xs.extract start (min (start + count) xs.length)).length =
        min (xs.length - start) count := Lone.length_cut xs start count
    rw [hlength]
    exact congrArg (fun hint => (Hint.skip start hint).min (.exact count)) hexact
  · intro t ht limit pairs hlimit hpairs
    refine ⟨fun p hp => ?_, fun name acts out => ?_⟩
    · obtain ⟨hstart, hcount⟩ := hpairs p hp
      exact ⟨gives_window hv limit hstart hcount, fun r hr => hr.window p.1 p.2⟩
    · obtain ⟨s', hv', happly⟩ := exists_apart_beside ht
      obtain ⟨w, hw, hspread⟩ := Lone.settles_windows s' hlimit hpairs name
      have hshows := (happly [Lone.starts pairs, Lone.counts pairs] name _ acts out).trans
        (Desk.showsApart_iff hw)
      rw [hspread] at hshows
      refine hshows.trans (exists_congr fun replies => and_congr_right fun _ =>
        and_congr_right fun _ => forall_congr' fun k => ?_)
      exact windows_alike hv' hv hpairs [none, none, none] k _ _

/-- One of three elements, a window that would go far beyond them, and two windows at once of which
one is dropped before the other is read on. -/
theorem windows_apart_three :
    ∃ (M : Moment) (s : Lone.Sequence),
      M.Stands [3] [.sequence s] ∧
      Lone.Remains s (.ofList [.scalar (.integer 4), .scalar (.integer 5), .scalar (.integer 6)]) ∧
      (∃ w : Lone.Sequence,
        M.Gives 3 (.sublistAt 1 (wordLimit - 1)) [] (.ok (.sequence w)) ∧ w.hint = .exact 2 ∧
        Lone.Remains w (.ofList [.scalar (.integer 5), .scalar (.integer 6)])) ∧
      Yields (fun n => Prod.fst <$> Desk.apart (Drive.ofFuel n) Sequence.onClose "sublist"
          (.listAndTwoArgs Operator.sublistPlan defaultLimit) (List.range 3)
          [(1, .use .pull [0]), (2, .use .pull [0]), (1, .use .drop [1]), (2, .use .pull [1])]
          (M.beside 3 [Lone.starts [(1, 1), (0, 2)], Lone.counts [(1, 1), (0, 2)]])) M.store
        (.ok [(1, [.ok (.sequence (.exact 1)), .ok (.scalar (.integer 5))]),
          (2, [.ok (.sequence (.exact 2)), .ok (.scalar (.integer 4))]), (1, []),
          (2, [.ok (.sequence (.exact 2)), .ok (.scalar (.integer 5))])]) := by
  let making : List (Nat × Act) :=
    [(0, .use (.make (.scalar (.integer 4))) []), (0, .use (.make (.scalar (.integer 5))) []),
      (0, .use (.make (.scalar (.integer 6))) []),
      (0, .use (.elements [none, none, none] (.exact 3)) [0, 1, 2])]
  let s : Lone.Sequence :=
    .ofValues [.scalar (.integer 4), .scalar (.integer 5), .scalar (.integer 6)] (.exact 3)
  have hstands : Stands _ [3] [.sequence s] := stands_run
    (rfl : Desk.runLinked 2 making [[]] .empty = .ok ((_, [_]), _))
    (Desk.settles_run (rfl : Desk.runAlone 2 making [[]] = some (_, [_]))) [3]
  have hremains := Lone.remains_ofValues
    [.scalar (.integer 4), .scalar (.integer 5), .scalar (.integer 6)] (.exact 3)
  obtain ⟨hexact, hwindows⟩ := (windows_apart _ 3).2 _ hstands
  obtain ⟨-, happly⟩ := hwindows _ rfl defaultLimit [(1, 1), (0, 2)] (by decide) (by decide)
  refine ⟨_, _, hstands, hremains, hexact _ hremains rfl 1 (wordLimit - 1) (by decide) (by decide),
    (happly "sublist" _ _).mpr ⟨_, rfl, ?_⟩⟩
  exact Desk.replies_iff_own.mp (Desk.replies_of_run
    (rfl : Desk.runAlone 3 _ ([none, none, none] :: (Lone.windows s _).map fun w => [some w]) =
      some (_, _)))

end Moment

end LazyCalc
