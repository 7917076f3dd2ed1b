import LazyCalc.Proofs.Lone.Walking
import Mathlib.Data.ENat.Basic
/-!
What is left of a lone sequence: its elements, and the end or the failure after them. An element that
is looked for, and elements that are taken, are found among them.
-/

namespace LazyCalc

open Filter

namespace Lone

/-- So many elements, if there is an end to them, and then a failure or the end. -/
structure Remainder where
  element : Nat → Value
  length : ℕ∞
  failure : Option Failure

namespace Remainder

variable (r : Remainder)

def upTo (n : Nat) : Nat := if n ≤ r.length then n else r.length.toNat

def first : Option Item :=
  if 0 < r.length then some (.ok (r.element 0)) else r.failure.map .error

def index (i : Nat) : Item :=
  if i < r.length then .ok (r.element i)
  else .error (r.failure.getD (.indexOutOfRange i r.length.toNat))

def between (start stop : Nat) : List Value :=
  (List.range' start (r.upTo stop - start)).map r.element

/-- The elements from `start` up to `stop`, unless the failure comes in their place. A failure before
`start` is passed over. -/
def slice (start stop : Nat) : Item :=
  match r.failure with
  | some e =>
    if start ≤ r.length ∧ r.length < stop then .error e else .ok (.list (r.between start stop))
  | none => .ok (.list (r.between start stop))

/-- After the failure, and after the end, nothing is left. -/
def drop (n : Nat) : Remainder :=
  if n ≤ r.length then ⟨fun i => r.element (n + i), r.length - n, r.failure⟩
  else ⟨r.element, 0, none⟩

def ofList (xs : List Value) : Remainder := ⟨fun i => xs[i]?.getD (.list []), xs.length, none⟩

theorem element_ofList {xs : List Value} {k : Nat} (h : k < xs.length) :
    (ofList xs).element k = xs[k] := by
  simp only [ofList, List.getElem?_eq_getElem h, Option.getD_some]

theorem index_ofList_lt {xs : List Value} {k : Nat} (h : k < xs.length) :
    (ofList xs).index k = .ok xs[k] := by
  have hlt : (k : ℕ∞) < (ofList xs).length := Nat.cast_lt.mpr h
  rw [index, if_pos hlt, element_ofList h]

theorem index_ofList_ge {xs : List Value} {k : Nat} (h : xs.length ≤ k) :
    (ofList xs).index k = .error (.indexOutOfRange k xs.length) := by
  have hge : ¬ (k : ℕ∞) < (ofList xs).length := not_lt.mpr (Nat.cast_le.mpr h)
  rw [index, if_neg hge]
  rfl

variable {r}

theorem exists_length {k : Nat} (h : ¬ k < r.length) : ∃ l : Nat, r.length = l ∧ l ≤ k := by
  obtain ⟨l, hl⟩ := ENat.ne_top_iff_exists.mp
    (ne_top_of_le_ne_top (ENat.natCast_ne_top k) (not_lt.mp h))
  exact ⟨l, hl.symm, Nat.cast_le.mp (hl ▸ not_lt.mp h)⟩

theorem upTo_of_le {n : Nat} (h : n ≤ r.length) : r.upTo n = n := if_pos h

theorem upTo_of_length {k n : Nat} (h : r.length = k) (hk : k ≤ n) : r.upTo n = k := by
  rw [upTo, h, ENat.toNat_natCast]
  split
  · next hle => exact le_antisymm (Nat.cast_le.mp hle) hk
  · rfl

theorem upTo_le (n : Nat) : r.upTo n ≤ n ∧ (r.upTo n : ℕ∞) ≤ r.length := by
  by_cases h : n ≤ r.length
  · rw [upTo_of_le h]
    exact ⟨le_rfl, h⟩
  · obtain ⟨k, hk, hle⟩ := exists_length (mt le_of_lt h)
    rw [upTo_of_length hk hle]
    exact ⟨hle, hk.ge⟩

theorem drop_of_le {n : Nat} (h : n ≤ r.length) :
    r.drop n = ⟨fun i => r.element (n + i), r.length - n, r.failure⟩ := if_pos h

theorem drop_of_lt {n : Nat} (h : r.length < n) : r.drop n = ⟨r.element, 0, none⟩ :=
  if_neg h.not_ge

theorem between_of_le {start stop : Nat} (h : stop ≤ start) : r.between start stop = [] := by
  rw [between, Nat.sub_eq_zero_of_le ((upTo_le stop).1.trans h)]
  rfl

theorem between_of_length_lt {start : Nat} (h : r.length < start) (stop : Nat) :
    r.between start stop = [] := by
  rw [between, Nat.sub_eq_zero_of_le (Nat.cast_le.mp ((upTo_le stop).2.trans h.le))]
  rfl

theorem between_of_length {k start stop : Nat} (h : r.length = k) (hk : k ≤ stop) :
    r.between start stop = r.between start k := by
  rw [between, between, upTo_of_length h hk, upTo_of_length h le_rfl]

theorem between_drop {start : Nat} (h : start ≤ r.length) (stop : Nat) :
    (r.drop start).between 0 (stop - start) = r.between start stop := by
  have hupTo : (r.drop start).upTo (stop - start) = r.upTo stop - start := by
    rw [drop_of_le h]
    by_cases hstop : stop ≤ r.length
    · rw [upTo_of_le hstop, upTo_of_le]
      rw [ENat.natCast_sub]
      exact tsub_le_tsub_right hstop _
    · obtain ⟨k, hk, hle⟩ := exists_length (mt le_of_lt hstop)
      rw [upTo_of_length hk hle, upTo_of_length (k := k - start)]
      · rw [hk, ENat.natCast_sub]
      · exact Nat.sub_le_sub_right hle _
  rw [between, hupTo, between, Nat.sub_zero, drop_of_le h, List.range'_eq_map_range,
    List.range'_eq_map_range, List.map_map, List.map_map]
  congr 1
  funext i
  simp

theorem slice_of_le {start stop : Nat} (h : stop ≤ start) : r.slice start stop = .ok (.list []) := by
  rw [slice, between_of_le h]
  cases r.failure with
  | none => rfl
  | some e => exact if_neg fun hmet => (hmet.1.trans_lt hmet.2).not_ge (Nat.cast_le.mpr h)

theorem slice_drop {start stop : Nat} (hlt : start < stop) :
    (r.drop start).slice 0 (stop - start) = r.slice start stop := by
  rw [slice, slice]
  -- beyond the elements there is nothing left, and the failure is not met
  by_cases h : start ≤ r.length
  · rw [between_drop h, drop_of_le h]
    have hmet : ((0 : Nat) ≤ r.length - start ∧ r.length - start < (stop - start : Nat)) ↔
        start ≤ r.length ∧ r.length < stop := by
      by_cases hstop : stop ≤ r.length
      · have hle : ((stop - start : Nat) : ℕ∞) ≤ r.length - start := by
          rw [ENat.natCast_sub]
          exact tsub_le_tsub_right hstop _
        simp only [hle.not_gt, hstop.not_gt, and_false]
      · obtain ⟨k, hk, -⟩ := exists_length (mt le_of_lt hstop)
        rw [hk, ← ENat.natCast_sub]
        rw [hk] at h hstop
        norm_cast at h hstop ⊢
        omega
    simp only [hmet]
  · have hnothing : (Remainder.mk r.element 0 none).between 0 (stop - start) = [] := by
      rw [between, upTo_of_length rfl (Nat.zero_le _)]
      rfl
    rw [between_of_length_lt (not_le.mp h), drop_of_lt (not_le.mp h), hnothing]
    cases r.failure with
    | none => rfl
    | some e => exact (if_neg fun hmet => h hmet.1).symm

end Remainder

/-- Pulls of a sequence give what is left of it. -/
def Remains (s : Sequence) (r : Remainder) : Prop :=
  ∃ rest : Nat → Sequence, rest 0 = s ∧
    (∀ i : Nat, i < r.length → Settles (fun n => (Drive.alone n).pull (rest i))
      (some (.ok (r.element i)), rest (i + 1))) ∧
    ∀ k : Nat, r.length = k →
      ∃ s', Settles (fun n => (Drive.alone n).pull (rest k)) (r.failure.map .error, s')

/-- The sequences that come after one another when what is left is pulled, and what each pull
tells. -/
structure Course (r : Remainder) where
  rest : Nat → Sequence
  texts : Nat → List String
  gives : ∀ i : Nat, i < r.length → Tells (fun n => (Drive.told n).pull (rest i))
    (some (.ok (r.element i)), rest (i + 1)) (texts i)
  stops : ∀ k : Nat, r.length = k →
    ∃ s' texts, Tells (fun n => (Drive.told n).pull (rest k)) (r.failure.map .error, s') texts

variable {r : Remainder} {s : Sequence}

theorem Remains.exists_course (h : Remains s r) : ∃ c : Course r, c.rest 0 = s := by
  obtain ⟨rest, h0, hgives, hstops⟩ := h
  have hgives (i : Nat) : ∃ texts, i < r.length → Tells (fun n => (Drive.told n).pull (rest i))
      (some (.ok (r.element i)), rest (i + 1)) texts := by
    by_cases hi : i < r.length
    · obtain ⟨texts, htells⟩ := settles_pull_iff.mp (hgives i hi)
      exact ⟨texts, fun _ => htells⟩
    · exact ⟨[], fun h => absurd h hi⟩
  choose texts hgives using hgives
  refine ⟨⟨rest, texts, hgives, fun k hk => ?_⟩, h0⟩
  obtain ⟨s', hs'⟩ := hstops k hk
  obtain ⟨texts, htells⟩ := settles_pull_iff.mp hs'
  exact ⟨s', texts, htells⟩

namespace Course

variable (c : Course r)

theorem remains : Remains (c.rest 0) r := by
  refine ⟨c.rest, rfl, fun i hi => settles_pull_iff.mpr ⟨_, c.gives i hi⟩, fun k hk => ?_⟩
  obtain ⟨s', texts, htells⟩ := c.stops k hk
  exact ⟨s', settles_pull_iff.mpr ⟨texts, htells⟩⟩

def drop {n : Nat} (h : n ≤ r.length) : Course (r.drop n) where
  rest i := c.rest (n + i)
  texts i := c.texts (n + i)
  gives i hi := by
    rw [Remainder.drop, if_pos h] at hi ⊢
    exact c.gives (n + i) (by rw [Nat.cast_add]; exact lt_tsub_iff_left.mp hi)
  stops k hk := by
    rw [Remainder.drop, if_pos h] at hk ⊢
    exact c.stops (n + k) (by rw [Nat.cast_add, ← hk]; exact (add_tsub_cancel_of_le h).symm)

theorem hint {i : Nat} (h : i ≤ r.length) : (c.rest i).hint = (c.rest 0).hint := by
  induction i with
  | zero => rfl
  | succ i ih =>
    have hlt : i < r.length := lt_of_lt_of_le (Nat.cast_lt.mpr i.lt_succ_self) h
    exact (pulled (c.gives i hlt)).1.trans (ih hlt.le)

theorem hint_of_stop {k : Nat} (hk : r.length = k) {s' : Sequence} {texts : List String}
    (h : Tells (fun n => (Drive.told n).pull (c.rest k)) (r.failure.map .error, s') texts) :
    s'.hint = (c.rest 0).hint := (pulled h).1.trans (c.hint hk.ge)

theorem walks {β γ : Type} {visit : Nat → β → Item → Told (Flow β γ)} (states : Nat → β) {m : Nat}
    (hm : m ≤ r.length) (hvisit : ∀ i < m, Tells (fun n => visit n (states i) (.ok (r.element i)))
      (.onward (states (i + 1))) []) {result : Flow β γ × Sequence} {texts : List String}
    (h : Walks visit (states m) (c.rest m) result texts) :
    ∃ texts, Walks visit (states 0) (c.rest 0) result texts := by
  induction m generalizing texts with
  | zero => exact ⟨texts, h⟩
  | succ m ih =>
    have hlt : m < r.length := lt_of_lt_of_le (Nat.cast_lt.mpr m.lt_succ_self) hm
    exact ih hlt.le (fun i hi => hvisit i (Nat.lt_succ_of_lt hi))
      (.onward (c.gives m hlt) (hvisit m m.lt_succ_self) h)

end Course

theorem remains_finished (h : s.finished = true) (element : Nat → Value) :
    Remains s ⟨element, 0, none⟩ := by
  refine ⟨fun _ => s, rfl, fun i hi => absurd hi not_lt_zero, fun k _ => ⟨s, ?_⟩⟩
  obtain ⟨origin, hint, finished, hooks⟩ := s
  obtain rfl : finished = true := h
  exact settles_pull_iff.mpr ⟨[], tells_finished origin hint hooks⟩

theorem remains_ofValues (xs : List Value) (hint : Hint) :
    Remains (.ofValues xs hint) (.ofList xs) := by
  let rest (k : Nat) : Sequence := .ofValues (xs.drop k) hint
  refine ⟨rest, rfl, fun i hi => ?_, fun k hk => ?_⟩
  · have hlt : i < xs.length := Nat.cast_lt.mp hi
    have hrest : rest i = .ofValues (xs[i] :: xs.drop (i + 1)) hint :=
      congrArg (LazyCalc.Sequence.ofValues · hint) (List.drop_eq_getElem_cons hlt)
    rw [Remainder.element_ofList hlt, hrest]
    exact settles_pull (n := 1) rfl
  · obtain rfl : xs.length = k := Nat.cast_inj.mp hk
    have hrest : rest xs.length = .ofValues [] hint :=
      congrArg (LazyCalc.Sequence.ofValues · hint) List.drop_length
    rw [hrest]
    exact ⟨_, settles_pull (n := 1) rfl⟩

def found (i : Nat) : Flow Nat Item → Item
  | .halt result => result
  | .onward seen => .error (.indexOutOfRange i seen)

theorem tells_index {i : Nat} {flow : Flow Nat Item} {s s' : Sequence} {texts : List String}
    (h : Walks (fun n => LazyCalc.Sequence.indexStep (Drive.told n) i) 0 s (flow, s') texts) :
    Tells (fun n => s.index (Drive.told n) i) (found i flow, s) texts := by
  rw [← List.append_nil texts]
  refine (Tells.pure (s, s)).bind (h.tells.bind ?_)
  cases flow <;> exact .pure _

theorem Course.tells_index (c : Course r) (i : Nat) :
    ∃ texts, Tells (fun n => (c.rest 0).index (Drive.told n) i) (r.index i, c.rest 0) texts := by
  have hvisit {k : Nat} (hk : k ≤ i) (j : Nat) (hj : j < k) :
      Tells (fun n => LazyCalc.Sequence.indexStep (Drive.told n) i j (.ok (r.element j)))
        (.onward (j + 1)) [] := by
    simp only [LazyCalc.Sequence.indexStep, if_neg (hj.trans_le hk).ne]
    exact .pure _
  -- the walk halts at the element, or else where the elements stop before it
  by_cases hi : i < r.length
  · have hlast : Tells (fun n => LazyCalc.Sequence.indexStep (Drive.told n) i i (.ok (r.element i)))
        (.halt (.ok (r.element i))) [] := by
      simp only [LazyCalc.Sequence.indexStep, if_pos]
      exact .pure _
    obtain ⟨texts, hwalk⟩ := c.walks id hi.le (hvisit le_rfl) (.halted (c.gives i hi) hlast)
    rw [Remainder.index, if_pos hi]
    exact ⟨texts, Lone.tells_index hwalk⟩
  · obtain ⟨k, hk, hle⟩ := Remainder.exists_length hi
    obtain ⟨s', texts, hstop⟩ := c.stops k hk
    rw [Remainder.index, if_neg hi, hk, ENat.toNat_natCast]
    cases hfailure : r.failure with
    | none =>
      rw [hfailure] at hstop
      obtain ⟨texts, hwalk⟩ := c.walks id hk.ge (hvisit hle) (.ended hstop)
      exact ⟨texts, Lone.tells_index hwalk⟩
    | some e =>
      rw [hfailure] at hstop
      have hlast : Tells (fun n => LazyCalc.Sequence.indexStep (Drive.told n) i k (.error e))
        (.halt (.error e)) [] := .pure _
      obtain ⟨texts, hwalk⟩ := c.walks id hk.ge (hvisit hle) (.halted hstop hlast)
      exact ⟨texts, Lone.tells_index hwalk⟩

theorem tells_discard_finished (n came : Nat) (h : s.finished = true) :
    Tells (fun m => LazyCalc.Sequence.discard (Drive.told m) n came s) (came, s) [] := by
  obtain ⟨origin, hint, finished, hooks⟩ := s
  obtain rfl : finished = true := h
  cases n with
  | zero => exact .pure _
  | succ n => exact (tells_finished origin hint hooks).bind (.pure _)

theorem Course.tells_discard_from (c : Course r) (n : Nat) {j : Nat} (hj : j ≤ r.length) (came : Nat) :
    ∃ came' s' texts,
      Tells (fun m => LazyCalc.Sequence.discard (Drive.told m) n came (c.rest j)) (came', s') texts ∧
      ((j + n : Nat) ≤ r.length → s' = c.rest (j + n)) ∧
      (r.length < (j + n : Nat) → s'.finished = true) := by
  -- once the elements stop, what is left has finished, and nothing more is passed over
  induction n generalizing j came with
  | zero => exact ⟨_, _, _, .pure _, fun _ => rfl, fun h => absurd hj h.not_ge⟩
  | succ n ih =>
    by_cases hlt : j < r.length
    · obtain ⟨came', s', texts, htells, hin, hout⟩ :=
        ih (j := j + 1) (Order.add_one_le_of_lt hlt) (came + 1)
      rw [Nat.add_right_comm] at hin hout
      exact ⟨came', s', _, (c.gives j hlt).bind ((Tells.pure ()).bind htells), hin, hout⟩
    · have hlength : r.length = j := le_antisymm (not_lt.mp hlt) hj
      have hover : ¬ ((j + (n + 1) : Nat) : ℕ∞) ≤ r.length := by
        rw [hlength, Nat.cast_le]
        omega
      obtain ⟨s', texts, hstop⟩ := c.stops j hlength
      cases hfailure : r.failure with
      | none =>
        rw [hfailure] at hstop
        exact ⟨_, _, _, hstop.bind (.pure _), fun h => absurd h hover, fun _ => (pulled hstop).2 rfl⟩
      | some e =>
        rw [hfailure] at hstop
        have hfinished := (pulled hstop).2 rfl
        exact ⟨_, _, _, hstop.bind ((Tells.pure ()).bind (tells_discard_finished n _ hfinished)),
          fun h => absurd h hover, fun _ => hfinished⟩

theorem Course.tells_discard (c : Course r) (n : Nat) :
    ∃ came s' texts,
      Tells (fun m => LazyCalc.Sequence.discard (Drive.told m) n 0 (c.rest 0)) (came, s') texts ∧
      Remains s' (r.drop n) := by
  obtain ⟨came, s', texts, htells, hin, hout⟩ := c.tells_discard_from n zero_le 0
  refine ⟨came, s', texts, htells, ?_⟩
  by_cases h : n ≤ r.length
  · rw [hin (by rwa [Nat.zero_add]), Nat.zero_add]
    exact (c.drop h).remains
  · rw [Remainder.drop_of_lt (not_le.mp h)]
    exact remains_finished (hout (by rwa [Nat.zero_add, ← not_le])) _

def gathered : Flow (Option Nat × List Value) (Gathered Sequence) → Gathered Sequence
  | .halt g => g
  | .onward state => ⟨state.2.reverse, none⟩

theorem tells_gather {n : Nat} {flow : Flow (Option Nat × List Value) (Gathered Sequence)}
    {s s' : Sequence} {texts : List String}
    (h : Walks (fun _ => LazyCalc.Sequence.gatherStep) (some (n + 1), []) s (flow, s') texts) :
    Tells (fun m => LazyCalc.Sequence.gather (Drive.told m) (some (n + 1)) s) (gathered flow, s')
      texts := by
  simp only [LazyCalc.Sequence.gather, if_neg (show ¬ some (n + 1) = some 0 by simp)]
  rw [← List.append_nil texts]
  refine h.tells.bind ?_
  cases flow <;> exact .pure _

def Remainder.taken (r : Remainder) (wanted i : Nat) : Option Nat × List Value :=
  (some (wanted - i), (r.between 0 i).reverse)

theorem Remainder.taken_zero (r : Remainder) (wanted : Nat) : r.taken wanted 0 = (some wanted, []) := by
  rw [taken, between_of_le le_rfl]
  rfl

theorem Remainder.between_succ {i : Nat} (h : i < r.length) :
    r.between 0 (i + 1) = r.between 0 i ++ [r.element i] := by
  rw [between, between, upTo_of_le h.le, upTo_of_le (Order.add_one_le_of_lt h), Nat.sub_zero,
    Nat.sub_zero, List.range'_1_concat, List.map_append, Nat.zero_add]
  rfl

theorem tells_gatherStep {wanted i : Nat} (h : i < r.length) (hi : i + 1 < wanted) :
    Tells (fun _ => LazyCalc.Sequence.gatherStep (r.taken wanted i) (.ok (r.element i)))
      (.onward (r.taken wanted (i + 1))) [] := by
  rw [Remainder.taken, Remainder.taken, Remainder.between_succ h, List.reverse_append]
  simp only [LazyCalc.Sequence.gatherStep, if_neg (show ¬ wanted - i ≤ 1 by omega), Nat.sub_sub]
  exact .pure _

section

variable (c : Course r) {n : Nat}

include c

theorem Course.tells_gather_full (h : n < r.length) :
    ∃ g s' texts,
      Tells (fun m => LazyCalc.Sequence.gather (Drive.told m) (some (n + 1)) (c.rest 0)) (g, s')
        texts ∧
      settled g = r.slice 0 (n + 1) ∧ Remains s' (r.drop (n + 1)) ∧ s'.hint = (c.rest 0).hint := by
  have hle : ((n + 1 : Nat) : ℕ∞) ≤ r.length := Order.add_one_le_of_lt h
  have hlast : Tells (fun _ => LazyCalc.Sequence.gatherStep (r.taken (n + 1) n)
      (.ok (r.element n))) (.halt ⟨r.between 0 (n + 1), none⟩) [] := by
    rw [Remainder.taken, Remainder.between_succ h]
    simp only [LazyCalc.Sequence.gatherStep, if_pos (show n + 1 - n ≤ 1 by omega),
      List.reverse_cons, List.reverse_reverse]
    exact .pure _
  obtain ⟨texts, hwalk⟩ := c.walks (r.taken (n + 1)) h.le (fun i hi => tells_gatherStep
    ((Nat.cast_lt.mpr hi).trans h) (Nat.succ_lt_succ hi)) (.halted (c.gives n h) hlast)
  rw [Remainder.taken_zero] at hwalk
  refine ⟨_, _, _, Lone.tells_gather hwalk, ?_, (c.drop hle).remains, c.hint hle⟩
  rw [Remainder.slice]
  cases r.failure with
  | none => rfl
  | some e => exact (if_neg fun hmet => hmet.2.not_ge hle).symm

theorem Course.tells_gather_short {k : Nat} (hk : r.length = k) (hle : k ≤ n) :
    ∃ g s' texts,
      Tells (fun m => LazyCalc.Sequence.gather (Drive.told m) (some (n + 1)) (c.rest 0)) (g, s')
        texts ∧
      settled g = r.slice 0 (n + 1) ∧ Remains s' (r.drop (n + 1)) ∧ s'.hint = (c.rest 0).hint := by
  obtain ⟨s', texts, hstop⟩ := c.stops k hk
  have hhint := c.hint_of_stop hk hstop
  have hvisit (i : Nat) (hi : i < k) := tells_gatherStep
    (show i < r.length from hk ▸ Nat.cast_lt.mpr hi) (show i + 1 < n + 1 by omega)
  have hover : r.length < (n + 1 : Nat) := hk ▸ Nat.cast_lt.mpr (Nat.lt_succ_of_le hle)
  have hrest : s'.finished = true → Remains s' (r.drop (n + 1)) := fun hfinished => by
    rw [Remainder.drop_of_lt hover]
    exact remains_finished hfinished _
  cases hfailure : r.failure with
  | none =>
    rw [hfailure] at hstop
    obtain ⟨texts, hwalk⟩ := c.walks (r.taken (n + 1)) hk.ge hvisit (.ended hstop)
    rw [Remainder.taken_zero] at hwalk
    refine ⟨_, _, _, Lone.tells_gather hwalk, ?_, hrest ((pulled hstop).2 rfl), hhint⟩
    rw [Remainder.slice, hfailure, Remainder.between_of_length hk (Nat.le_succ_of_le hle)]
    exact congrArg (fun vs => Except.ok (Tree.list vs)) (List.reverse_reverse _)
  | some e =>
    rw [hfailure] at hstop
    have hlast : Tells (fun _ => LazyCalc.Sequence.gatherStep (r.taken (n + 1) k) (.error e))
        (.halt ⟨(r.taken (n + 1) k).2.reverse, some e⟩) [] := .pure _
    obtain ⟨texts, hwalk⟩ := c.walks (r.taken (n + 1)) hk.ge hvisit (.halted hstop hlast)
    rw [Remainder.taken_zero] at hwalk
    refine ⟨_, _, _, Lone.tells_gather hwalk, ?_, hrest ((pulled hstop).2 rfl), hhint⟩
    rw [Remainder.slice, hfailure]
    exact (if_pos ⟨zero_le, hover⟩).symm

end

theorem Course.tells_gather (c : Course r) (n : Nat) :
    ∃ g s' texts,
      Tells (fun m => LazyCalc.Sequence.gather (Drive.told m) (some n) (c.rest 0)) (g, s') texts ∧
      settled g = r.slice 0 n ∧ Remains s' (r.drop n) ∧ s'.hint = (c.rest 0).hint := by
  cases n with
  | zero =>
    refine ⟨_, _, _, .pure _, ?_, (c.drop zero_le).remains, rfl⟩
    rw [Remainder.slice_of_le le_rfl]
    rfl
  | succ n =>
    by_cases h : n < r.length
    · exact c.tells_gather_full h
    · obtain ⟨k, hk, hle⟩ := Remainder.exists_length h
      exact c.tells_gather_short hk hle

theorem Course.tells_takeList (c : Course r) (n : Nat) :
    ∃ s' texts, Tells (fun m => (c.rest 0).takeList (Drive.told m) n) (r.slice 0 n, s') texts ∧
      Remains s' (r.drop n) ∧ s'.hint = (c.rest 0).hint := by
  obtain ⟨g, s', texts, htells, hg, hrest⟩ := c.tells_gather n
  rw [← hg]
  exact ⟨s', _, htells.bind ((tells_settle g).bind (.pure _)), hrest⟩

theorem Course.tells_slice (c : Course r) (start stop : Nat) :
    ∃ texts, Tells (fun m => (c.rest 0).slice (Drive.told m) start stop)
      (r.slice start stop, c.rest 0) texts := by
  suffices hspend : ∃ texts, Tells
      (fun m => (c.rest 0).spend (Drive.told m) start (some (stop - start))) (r.slice start stop)
      texts by
    obtain ⟨texts, hspend⟩ := hspend
    exact ⟨_, (Tells.pure (c.rest 0, c.rest 0)).bind (hspend.bind (.pure _))⟩
  by_cases hlt : start < stop
  · have hsome : ¬ some (stop - start) = some 0 := by simp; omega
    simp only [LazyCalc.Sequence.spend, if_neg hsome]
    obtain ⟨came, s₁, texts, hdiscard, hrest⟩ := c.tells_discard start
    obtain ⟨c₁, rfl⟩ := hrest.exists_course
    obtain ⟨g, s₂, texts', hgather, hg, -⟩ := c₁.tells_gather (stop - start)
    rw [← Remainder.slice_drop hlt, ← hg]
    exact ⟨_, hdiscard.bind (hgather.bind ((Tells.pure ()).bind (tells_settle g)))⟩
  · have hnone : some (stop - start) = some 0 := by simp; omega
    simp only [LazyCalc.Sequence.spend, if_pos hnone, Remainder.slice_of_le (not_lt.mp hlt)]
    exact ⟨_, (Tells.pure ()).bind (.pure _)⟩

theorem Course.tells_pull (c : Course r) :
    ∃ s' texts, Tells (fun m => (Drive.told m).pull (c.rest 0)) (r.first, s') texts ∧
      Remains s' (r.drop 1) ∧ s'.hint = (c.rest 0).hint := by
  rw [Remainder.first]
  by_cases h : 0 < r.length
  · rw [if_pos h]
    exact ⟨_, _, c.gives 0 h, (c.drop (n := 1) (Order.one_le_iff_pos.mpr h)).remains,
      (pulled (c.gives 0 h)).1⟩
  · have hlength : r.length = (0 : Nat) := le_antisymm (not_lt.mp h) zero_le
    obtain ⟨s', texts, hstop⟩ := c.stops 0 hlength
    rw [if_neg h, Remainder.drop_of_lt (hlength ▸ Nat.cast_lt.mpr Nat.one_pos)]
    refine ⟨s', texts, hstop, remains_finished ((pulled hstop).2 ?_) _, (pulled hstop).1⟩
    cases r.failure <;> rfl

end Lone

end LazyCalc
