import LazyCalc.Operator.Builtin
import LazyCalc.Proofs.Access.Beside
import LazyCalc.Proofs.Broadcast.Flat
/-!
Elements by their positions. In a list, which may be counted from its end, and in a sequence over
the same elements the same is found; a list of positions finds the list of what each position finds
by itself, or the first failure, and a list of one position what that position finds.
-/

namespace LazyCalc

open Filter

open List (Forall₂)

open Scalar (wordLimit)

namespace Operator

def nthAt (i : Int) : Operator := .listArg (nthPlan (.integer i))

section

variable {i : Int} {length k : Nat}

theorem position_of_lt (h : 0 ≤ i) (hi : i < wordLimit) (what : String) :
    (Scalar.integer i).position what = .ok i.toNat := by
  rw [Scalar.position, if_neg (not_lt.mpr h), if_pos hi]

theorem position_negative (h : i < 0) (what : String) :
    (Scalar.integer i).position what =
      .error (.domain s!"{what} must not be negative, got {i}") := by
  rw [Scalar.position, if_pos h]

theorem listPosition_nonneg (h : 0 ≤ i) :
    listPosition length (.integer i) = (Scalar.integer i).position "index" := by
  rw [listPosition, if_neg (not_lt.mpr h)]

theorem listPosition_back (h : i < 0) (hk : i = (k : Int) - length) :
    listPosition length (.integer i) = .ok k := by
  have hle : i.natAbs ≤ length := by omega
  have hback : length - i.natAbs = k := by omega
  rw [listPosition, if_pos h, if_pos hle, hback]

theorem listPosition_beyond (h : i < -length) :
    listPosition length (.integer i) =
      .error (.indexOutOfRange (min i.natAbs (wordLimit - 1)) length) := by
  have hneg : i < 0 := by omega
  have hlt : ¬ i.natAbs ≤ length := by omega
  rw [listPosition, if_pos hneg, if_neg hlt]

end

end Operator

namespace Lone

variable {v : Value} {xs : List Value} {s : Sequence} {r : Remainder}

theorem tells_element_list (xs : List Value) (k : Nat) :
    Tells (fun n => (LazyCalc.Collection.list xs).perform (Drive.told n) (.element k))
      ((Remainder.ofList xs).index k) [] := by
  simp only [Collection.perform, Collection.element]
  rcases Nat.lt_or_ge k xs.length with hk | hk
  · rw [Remainder.index_ofList_lt hk, List.getElem?_eq_getElem hk]
    exact (Tells.pure ()).bind (.pure _)
  · rw [Remainder.index_ofList_ge hk, List.getElem?_eq_none hk]
    exact (Tells.pure ()).bind (.pure _)

theorem tells_nth_list (xs : List Value) (p : Scalar) :
    Tells (fun n => (LazyCalc.Collection.list xs).readWith (Drive.told n) (Operator.nthPlan p))
      ((Operator.listPosition xs.length p).bind (Remainder.ofList xs).index) [] := by
  cases hposition : Operator.listPosition xs.length p with
  | error e =>
    refine tells_readWith_refused ?_
    rw [Collection.extent, Operator.nthPlan, hposition]
    rfl
  | ok k =>
    refine tells_readWith ?_ (tells_element_list xs k)
    rw [Collection.extent, Operator.nthPlan, hposition]
    rfl

theorem tells_nth_sequence (h : Remains s r) (p : Scalar) :
    ∃ texts, Tells
      (fun n => (LazyCalc.Collection.sequence s).readWith (Drive.told n) (Operator.nthPlan p))
      ((p.position "index").bind r.index) texts := by
  cases hposition : p.position "index" with
  | error e =>
    refine ⟨[], tells_readWith_refused ?_⟩
    rw [Collection.extent, Operator.nthPlan, hposition]
    rfl
  | ok k =>
    obtain ⟨c, rfl⟩ := h.exists_course
    obtain ⟨texts, hindex⟩ := c.tells_index k
    have helement : Tells (fun n => (LazyCalc.Collection.sequence (c.rest 0)).perform (Drive.told n)
        (.element k)) (r.index k) (texts ++ ([] ++ [])) :=
      hindex.bind ((Tells.pure ()).bind (.pure _))
    refine ⟨_, tells_readWith ?_ helement⟩
    rw [Collection.extent, Operator.nthPlan, hposition]
    rfl

theorem settles_listArg {kernel : Extent → Except Failure Plan} {x : Item} {texts : List String}
    (h : Tells (fun n => (LazyCalc.Collection.ofValue v).readWith (Drive.told n) kernel) x texts)
    (name : String) :
    Settles (fun n => (Operator.listArg kernel).call (Drive.alone n) name [v]) x :=
  (settles_iff (leads_call name (.listArg kernel) [v])
    (silently_call name (.listArg kernel) [v])).mpr ⟨texts, h⟩

theorem exists_answer_list (hv : (Tree.list xs : Value).isBatch = false) (limit : Nat)
    (p : Scalar) : ∃ x, Answers (.listAndOneArg Operator.nthPlan limit) (.list xs) p x :=
  ⟨_, (answers_iff hv).mpr (settles_listArg (tells_nth_list xs p) "")⟩

theorem exists_answer_sequence (h : Remains s r) (limit : Nat) (p : Scalar) :
    ∃ x, Answers (.listAndOneArg Operator.nthPlan limit) (.sequence s) p x := by
  obtain ⟨texts, htells⟩ := tells_nth_sequence h p
  exact ⟨_, (answers_iff rfl).mpr (settles_listArg htells "")⟩

end Lone

namespace Moment

variable {M : Moment} {number : Nat}

theorem gives_nth_list {xs : List Lone.Value} (hv : M.Stands [number] [.list xs]) (i : Int) :
    M.Gives number (.nthAt i) []
      ((Operator.listPosition xs.length (.integer i)).bind (Lone.Remainder.ofList xs).index) :=
  gives_of_settles hv (Lone.settles_listArg (Lone.tells_nth_list xs (.integer i)))

theorem gives_nth_sequence {s : Lone.Sequence} {r : Lone.Remainder}
    (hv : M.Stands [number] [.sequence s]) (hr : Lone.Remains s r) (i : Int) :
    M.Gives number (.nthAt i) [] (((Scalar.integer i).position "index").bind r.index) := by
  obtain ⟨texts, htells⟩ := Lone.tells_nth_sequence hr (.integer i)
  exact gives_of_settles hv (Lone.settles_listArg htells)

theorem gives_nth_within {xs : List Lone.Value} (hv : M.Stands [number] [.list xs]) {i : Int}
    {k : Nat} (hk : k < xs.length) (hi : i.natAbs < wordLimit) (hik : i = k ∨ i = k - xs.length) :
    M.Gives number (.nthAt i) [] (.ok xs[k]) := by
  have hposition : Operator.listPosition xs.length (.integer i) = .ok k := by
    rcases hik with rfl | hback
    · rw [Operator.listPosition_nonneg (Int.natCast_nonneg k),
        Operator.position_of_lt (Int.natCast_nonneg k) (by omega), Int.toNat_natCast]
    · exact Operator.listPosition_back (by omega) hback
  have hgives := gives_nth_list hv i
  rw [hposition] at hgives
  rw [← Lone.Remainder.index_ofList_lt hk]
  exact hgives

theorem gives_nth_outside {xs : List Lone.Value} (hv : M.Stands [number] [.list xs]) {i : Int}
    (hi : i.natAbs < wordLimit) (hout : i < -xs.length ∨ xs.length ≤ i) :
    M.Gives number (.nthAt i) [] (.error (.indexOutOfRange i.natAbs xs.length)) := by
  have hgives := gives_nth_list hv i
  rcases hout with hbeyond | hle
  · rwa [Operator.listPosition_beyond hbeyond, min_eq_left (by omega)] at hgives
  · have hnonneg : 0 ≤ i := (Int.natCast_nonneg _).trans hle
    have hindex : (Lone.Remainder.ofList xs).index i.toNat =
        .error (.indexOutOfRange i.natAbs xs.length) := by
      rw [Lone.Remainder.index_ofList_ge (by omega), show i.toNat = i.natAbs by omega]
    rw [Operator.listPosition_nonneg hnonneg, Operator.position_of_lt hnonneg (by omega)] at hgives
    rw [← hindex]
    exact hgives

/-- In a list a position is counted from the start, or from the end if it is negative, and where
there is no element the failure has the position and the length. A sequence over the same elements
has the same element or failure at a position that is not negative, and refuses any other. A list of
positions, but for one of a single position, gives the list of what each position gives alone, or
the first failure; a single position gives the same with a list around it. -/
theorem positions_found {v : Lone.Value} (hv : M.Stands [number] [v]) :
    (∀ xs : List Lone.Value, v = .list xs → ∀ i : Int,
      (i.natAbs < wordLimit →
        (∀ (k : Nat) (hk : k < xs.length), i = k ∨ i = k - xs.length →
          M.Gives number (.nthAt i) [] (.ok xs[k])) ∧
        (i < -xs.length ∨ xs.length ≤ i →
          M.Gives number (.nthAt i) [] (.error (.indexOutOfRange i.natAbs xs.length)))) ∧
      (i < -xs.length →
        ∃ index, M.Gives number (.nthAt i) [] (.error (.indexOutOfRange index xs.length)))) ∧
    (∀ (xs : List Lone.Value) (s : Lone.Sequence), v = .sequence s →
      Lone.Remains s (.ofList xs) → ∀ i : Int,
        (0 ≤ i → ∃ x, M.Gives number (.nthAt i) [] x ∧ ∀ (M' : Moment) (number' : Nat),
          M'.Stands [number'] [.list xs] → M'.Gives number' (.nthAt i) [] x) ∧
        (i < 0 → ∃ text, M.Gives number (.nthAt i) [] (.error (.domain text)))) ∧
    ∀ limit, 1 ≤ limit → v.isBatch = false →
      ((∃ xs, v = .list xs) ∨ (∃ s r, v = .sequence s ∧ Lone.Remains s r) →
        ∀ p, ∃ x, Lone.Answers (.listAndOneArg Operator.nthPlan limit) v p x) ∧
      (∀ p x, Lone.Answers (.listAndOneArg Operator.nthPlan limit) v p x →
        M.Gives number (.listAndOneArg Operator.nthPlan limit) [.scalar p] x ∧
        M.Gives number (.listAndOneArg Operator.nthPlan limit) [.list [.scalar p]] x) ∧
      ∀ (ps : List Scalar) (xs : List Lone.Item), ps.length ≠ 1 →
        Forall₂ (Lone.Answers (.listAndOneArg Operator.nthPlan limit) v) ps xs →
        M.Gives number (.listAndOneArg Operator.nthPlan limit) [.list (ps.map .scalar)]
          (Lone.listed xs) := by
  refine ⟨?_, ?_, fun limit hlimit hbatch => ⟨?_, fun p x h => ⟨?_, ?_⟩, fun ps xs hps h => ?_⟩⟩
  · rintro xs rfl i
    refine ⟨fun hi => ⟨fun k hk => gives_nth_within hv hk hi, gives_nth_outside hv hi⟩,
      fun hbeyond => ?_⟩
    have hgives := gives_nth_list hv i
    rw [Operator.listPosition_beyond hbeyond] at hgives
    exact ⟨_, hgives⟩
  · rintro xs s rfl hs i
    have hgives := gives_nth_sequence hv hs i
    refine ⟨fun hi => ⟨_, hgives, fun M' number' hv' => ?_⟩, fun hi => ?_⟩
    · rw [← Operator.listPosition_nonneg hi]
      exact gives_nth_list hv' i
    · rw [Operator.position_negative hi] at hgives
      exact ⟨_, hgives⟩
  · rintro (⟨xs, rfl⟩ | ⟨s, r, rfl, hs⟩) p
    · exact Lone.exists_answer_list hbatch limit p
    · exact Lone.exists_answer_sequence hs limit p
  · exact gives_of_settles hv h
  · exact gives_of_settles hv (Lone.settles_singleton hbatch h)
  · exact gives_of_settles hv (Lone.settles_scalars hbatch hlimit hps h)

/-- The last element of a list, a position before its start, and three positions at once. -/
theorem positions_found_back :
    ∃ M : Moment,
      M.Stands [0] [.list [.scalar (.integer 4), .scalar (.integer 5), .scalar (.integer 6)]] ∧
      M.Gives 0 (.nthAt (-1)) [] (.ok (.scalar (.integer 6))) ∧
      M.Gives 0 (.nthAt (-4)) [] (.error (.indexOutOfRange 4 3)) ∧
      M.Gives 0 (.listAndOneArg Operator.nthPlan defaultLimit)
        [.list ([.integer 2, .integer 0, .integer 2].map .scalar)]
        (.ok (.list [.scalar (.integer 6), .scalar (.integer 4), .scalar (.integer 6)])) := by
  have hM := stands_run
    (rfl : Desk.runLinked 0 [(0, .use (.make (.list [.scalar (.integer 4), .scalar (.integer 5),
      .scalar (.integer 6)])) [])] [[]] .empty = .ok ((_, [_]), _)) (Settles.const _) [0]
  obtain ⟨hlist, -, hpositions⟩ := positions_found hM
  obtain ⟨-, -, hmany⟩ := hpositions defaultLimit (by decide) rfl
  have hanswers : Forall₂ (Lone.Answers (.listAndOneArg Operator.nthPlan defaultLimit)
      (.list [.scalar (.integer 4), .scalar (.integer 5), .scalar (.integer 6)]))
      [.integer 2, .integer 0, .integer 2]
      [.ok (.scalar (.integer 6)), .ok (.scalar (.integer 4)), .ok (.scalar (.integer 6))] :=
    .cons ((Lone.answers_iff rfl).mpr (Settles.const _))
      (.cons ((Lone.answers_iff rfl).mpr (Settles.const _))
        (.cons ((Lone.answers_iff rfl).mpr (Settles.const _)) .nil))
  exact ⟨_, hM, ((hlist _ rfl (-1)).1 (by decide)).1 2 (by decide) (.inr rfl),
    ((hlist _ rfl (-4)).1 (by decide)).2 (.inl (by decide)), hmany _ _ (by decide) hanswers⟩

/-- A list of one position gives no list. -/
theorem position_listed_alone :
    ∃ M : Moment,
      M.Stands [0] [.list [.scalar (.integer 4), .scalar (.integer 5), .scalar (.integer 6)]] ∧
      M.Gives 0 (.listAndOneArg Operator.nthPlan defaultLimit) [.scalar (.integer 0)]
        (.ok (.scalar (.integer 4))) ∧
      ¬ M.Gives 0 (.listAndOneArg Operator.nthPlan defaultLimit) [.list [.scalar (.integer 0)]]
        (.ok (.list [.scalar (.integer 4)])) := by
  have hM := stands_run
    (rfl : Desk.runLinked 0 [(0, .use (.make (.list [.scalar (.integer 4), .scalar (.integer 5),
      .scalar (.integer 6)])) [])] [[]] .empty = .ok ((_, [_]), _)) (Settles.const _) [0]
  have hanswer : Lone.Answers (.listAndOneArg Operator.nthPlan defaultLimit)
      (.list [.scalar (.integer 4), .scalar (.integer 5), .scalar (.integer 6)]) (.integer 0)
      (.ok (.scalar (.integer 4))) := (Lone.answers_iff rfl).mpr (Settles.const _)
  refine ⟨_, hM, gives_of_settles hM hanswer, fun hlisted => ?_⟩
  have hsingle : Gives _ 0 _ [.list [.scalar (.integer 0)]] _ :=
    gives_of_settles hM (Lone.settles_singleton rfl hanswer)
  have hright := (hM _ _).mp ((hsingle "nth" [] []).mpr (Settles.const _))
  have hwrong := (hM _ _).mp ((hlisted "nth" [] []).mpr (Settles.const _))
  cases hwrong.unique hright

end Moment

end LazyCalc
