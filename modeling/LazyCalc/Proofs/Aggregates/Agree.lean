import LazyCalc.Operator.Builtin
import LazyCalc.Proofs.Aggregates.Elements
import LazyCalc.Proofs.Aggregates.Exact
import LazyCalc.Proofs.Desk.Standing
import Mathlib.Algebra.Order.Ring.Rat
import Mathlib.Tactic.NormNum
/-!
Means, counts and sums of the same elements. A mean times the number of elements is their sum; a
count is that number where no exact hint says anything else.
-/

namespace LazyCalc

open Filter

/-- What is counted where an exact hint is believed. -/
def Hint.countOf (hint : Hint) (elements : Nat) : Nat :=
  match hint with
  | .exact n => n
  | .estimated _ | .unknown => elements

namespace Lone

variable {s : Sequence} {xs : List Scalar} {qs : List Rat}

def addend (sum : Scalar × Nat) : Value → Option (Scalar × Nat)
  | .scalar x => (sum.1.add x).toOption.map (·, sum.2 + 1)
  | .list _ | .sequence _ => none

theorem exists_addends (hexact : List.Forall₂ Scalar.Exact xs qs) {first : Scalar} {q : Rat}
    (hfirst : first.Exact q) (count : Nat) :
    ∃ total, (xs.map Tree.scalar).foldlM addend (first, count) = some (total, count + qs.length) ∧
      total.Exact (q + qs.sum) := by
  induction hexact generalizing first q count with
  | nil => exact ⟨first, rfl, by simpa using hfirst⟩
  | @cons x r xs qs hx _ ih =>
    obtain ⟨sum, hsum, hq⟩ := Scalar.exists_add hfirst hx
    obtain ⟨total, htotal, hqs⟩ := ih hq (count + 1)
    refine ⟨total, ?_, ?_⟩
    · rw [List.map_cons, List.foldlM_cons, addend, hsum]
      change (xs.map Tree.scalar).foldlM addend (sum, count + 1) = _
      rw [htotal, List.length_cons, Nat.add_assoc, Nat.add_comm 1]
    · rwa [List.sum_cons, ← add_assoc]

theorem addStep_of_addend {n : Nat} {sum sum' : Scalar × Nat} {v : Value}
    (h : addend sum v = some sum') :
    LazyCalc.Sequence.addStep (Drive.alone n) sum (.ok v) = some (.onward sum') := by
  cases v with
  | list vs => cases h
  | sequence t => cases h
  | scalar x =>
    cases hadd : sum.1.add x with
    | error e =>
      simp only [addend, hadd] at h
      cases h
    | ok total =>
      simp only [addend, hadd] at h
      obtain rfl := Option.some.inj h
      simp only [LazyCalc.Sequence.addStep, hadd]
      rfl

theorem exists_total_exact (h : Elements s (xs.map .scalar))
    (hexact : List.Forall₂ Scalar.Exact xs qs) (hsome : qs ≠ []) :
    ∃ total : Scalar, total.Exact qs.sum ∧ ∀ finish, Settles
      (fun n => (Collection.sequence s).perform (Drive.alone n) (.total finish))
      ((finish total qs.length).map .scalar) := by
  cases hexact with
  | nil => exact absurd rfl hsome
  | @cons first q xs qs hfirst hexact =>
    cases h with
    | @cons _ s₁ _ _ hpull hrest =>
      obtain ⟨total, htotal, hsum⟩ := exists_addends hexact hfirst 1
      obtain ⟨s', hwalk⟩ := hrest.settles_walk addend
        (fun n => LazyCalc.Sequence.addStep (Drive.alone n)) (fun _ _ _ _ => addStep_of_addend) _ _
        htotal
      refine ⟨total, by rwa [List.sum_cons], fun finish => ?_⟩
      filter_upwards [hpull, hwalk, eventually_gt_atTop 0] with n hpull hwalk hn
      obtain ⟨k, rfl⟩ := Nat.exists_eq_succ_of_ne_zero hn.ne'
      change (Collection.sequence s).total (Drive.alone (k + 1)) finish (k + 1) 0 = _
      rw [Collection.total, if_neg (Nat.not_lt_zero _)]
      change Option.bind ((Drive.alone (k + 1)).pull s) _ = _
      rw [hpull]
      change Option.bind ((Drive.alone (k + 1)).walk _ (first, 1) s₁) _ = _
      rw [hwalk, List.length_cons, Nat.add_comm qs.length]
      rfl

theorem Elements.settles_count {vs : List Value} (h : Elements s vs) :
    Settles (fun n => (Collection.sequence s).perform (Drive.alone n) .count)
      (.ok (.scalar (.integer vs.length))) := by
  have hsteps (vs : List Value) (k : Nat) :
      vs.foldlM (fun k _ => some (k + 1)) k = some (k + vs.length) := by
    induction vs generalizing k with
    | nil => rfl
    | cons v vs ih =>
      rw [List.foldlM_cons]
      change vs.foldlM _ (k + 1) = _
      rw [ih, List.length_cons, Nat.add_assoc, Nat.add_comm 1]
  have hvisit (n k : Nat) (v : Value) (k' : Nat) (h : some (k + 1) = some k') :
      LazyCalc.Sequence.countStep (Drive.alone n) k (.ok v) = some (.onward k') := by
    obtain rfl := Option.some.inj h
    rfl
  obtain ⟨s', hwalk⟩ := h.settles_walk (fun k _ => some (k + 1))
    (fun n => LazyCalc.Sequence.countStep (Drive.alone n)) hvisit 0 _ (hsteps vs 0)
  filter_upwards [hwalk] with n hn
  change Option.bind ((Drive.alone n).walk _ 0 s) _ = _
  rw [hn, Nat.zero_add]
  rfl

theorem settles_readWith {kernel : Extent → Except Failure Plan} {reading : Reading} {x : Item}
    (hkernel : kernel (Collection.sequence s).extent = .ok (.read reading))
    (h : Settles (fun n => (Collection.sequence s).perform (Drive.alone n) reading) x) :
    Settles (fun n => (Collection.sequence s).readWith (Drive.alone n) kernel) x := by
  filter_upwards [h] with n hn
  rw [Collection.readWith, hkernel]
  change Option.bind ((Collection.sequence s).perform (Drive.alone n) reading) _ = _
  rw [hn]
  cases x <;> rfl

theorem Elements.settles_countPlan {vs : List Value} (h : Elements s vs) :
    Settles (fun n => (Collection.sequence s).readWith (Drive.alone n) Operator.countPlan)
      (.ok (.scalar (.integer (s.hint.countOf vs.length)))) := by
  obtain ⟨origin, hint, finished, hooks⟩ := s
  cases hint with
  | exact n =>
    exact settles_readWith (show Operator.countPlan (.sequence (.exact n)) =
      .ok (.read (.constant (.scalar (.integer n)))) from rfl) (.const _)
  | estimated n =>
    exact settles_readWith
      (show Operator.countPlan (.sequence (.estimated n)) = .ok (.read .count) from rfl)
      h.settles_count
  | unknown =>
    exact settles_readWith
      (show Operator.countPlan (.sequence .unknown) = .ok (.read .count) from rfl) h.settles_count

end Lone

theorem Tree.eq_of_mapList_scalars {σ τ : Type} {f : σ → τ} {ts : List (Tree σ)} {xs : List Scalar}
    (h : Tree.mapList f ts = xs.map .scalar) : ts = xs.map .scalar := by
  induction ts generalizing xs with
  | nil =>
    cases xs with
    | nil => rfl
    | cons x xs => cases h
  | cons t ts ih =>
    cases xs with
    | nil => cases h
    | cons x xs =>
      obtain ⟨ht, hts⟩ := List.cons.inj h
      cases t with
      | scalar y =>
        obtain rfl := Tree.scalar.inj ht
        rw [ih hts, List.map_cons]
      | list us => cases ht
      | sequence t => cases ht

namespace Desk

/-- Takes the mean of a fork of a sequence, the count of a second and the sum of a third. -/
def aggregating (limit : Nat) : List (Nat × Act) :=
  [(0, .use .fork [0]), (0, .use .fork [1]),
    (0, .use (.invoke (.builtin limit) "mean") [2]),
    (0, .use (.invoke (.builtin limit) "count") [3]),
    (0, .use (.invoke (.builtin limit) "sum") [4])]

variable {n : Nat}

theorem elements_of_replies {v : Lone.Value} {xs : List Scalar}
    (h : Replies [(0, .use .collect [0])] [[some v]] [(0, [.ok (.list (xs.map .scalar))])]) :
    Lone.Elements (.wrap v) (xs.map .scalar) := by
  obtain ⟨n, hn⟩ := h.exists
  obtain ⟨⟨replies, desks⟩, hrun, rfl⟩ := Option.map_eq_some_iff.mp hn
  obtain ⟨reply, desks₁, replies', hact, -, hcons⟩ := runAlone_cons.mp hrun
  obtain ⟨-, rfl⟩ := Prod.mk.inj (List.cons.inj hcons).1
  rw [actAt_single (X := (Sequence.wrap v).collect (Drive.alone n)) rfl] at hact
  obtain ⟨x, hcollect, hreply⟩ := Option.map_eq_some_iff.mp hact
  obtain ⟨hshown, -⟩ := List.cons.inj (Prod.mk.inj hreply).1
  cases x with
  | error e => cases hshown
  | ok w =>
    cases w with
    | scalar y => cases hshown
    | sequence s => cases hshown
    | list vs =>
      have hvs := Tree.eq_of_mapList_scalars (Tree.list.inj (Except.ok.inj hshown))
      rw [hvs] at hcollect
      exact Lone.elements_of_collect hcollect

theorem runAlone_aggregating {v : Lone.Value} {x y z : Lone.Item}
    (hmean : (Collection.sequence (.wrap v)).readWith (Drive.alone n) Operator.meanPlan = some x)
    (hcount : (Collection.sequence (.wrap v)).readWith (Drive.alone n) Operator.countPlan = some y)
    (hsum : (Collection.sequence (.wrap v)).readWith (Drive.alone n) Operator.sumPlan = some z)
    (limit : Nat) :
    let forks : Showing :=
      [.ok (.sequence (Sequence.wrap v).hint), .ok (.sequence (Sequence.wrap v).hint)]
    runAlone n (aggregating limit) [[some v]] =
      some ([(0, forks), (0, forks), (0, showing [x]), (0, showing [y]), (0, showing [z])],
        [[none, none, none, none, none, x.toOption, y.toOption, z.toOption]]) := by
  intro forks
  have hfork : actAt (Drive.alone n) (fun s _ => s) 0 (.use .fork [0]) [[some v]] =
      some (forks, [[none, some (.sequence (.wrap v)), some (.sequence (.wrap v))]]) := rfl
  refine runAlone_cons.mpr ⟨_, _, _, hfork, ?_, rfl⟩
  have hfork : actAt (Drive.alone n) (fun s _ => s) 0 (.use .fork [1])
      [[none, some (.sequence (.wrap v)), some (.sequence (.wrap v))]] =
      some (forks, [[none, none, some (.sequence (.wrap v)), some (.sequence (.wrap v)),
        some (.sequence (.wrap v))]]) := rfl
  refine runAlone_cons.mpr ⟨_, _, _, hfork, ?_, rfl⟩
  refine runAlone_cons.mpr ⟨_, _, _, actAt_single (X := some x) (congrArg Tool.single hmean), ?_, rfl⟩
  refine runAlone_cons.mpr ⟨_, _, _, actAt_single (X := some y) (congrArg Tool.single hcount), ?_, rfl⟩
  exact runAlone_cons.mpr ⟨_, _, _, actAt_single (X := some z) (congrArg Tool.single hsum), rfl, rfl⟩

end Desk

namespace Lone

variable {v : Value} {xs : List Scalar} {qs : List Rat}

theorem exists_aggregates (h : Elements (.wrap v) (xs.map .scalar))
    (hexact : List.Forall₂ Scalar.Exact xs qs) (hsome : qs ≠ []) (limit : Nat) :
    ∃ mean total : Scalar, mean.Exact (qs.sum / qs.length) ∧ total.Exact qs.sum ∧
      let hint := (LazyCalc.Sequence.wrap v).hint
      Desk.Replies (Desk.aggregating limit) [[some v]]
        [(0, [.ok (.sequence hint), .ok (.sequence hint)]),
          (0, [.ok (.sequence hint), .ok (.sequence hint)]), (0, [.ok (.scalar mean)]),
          (0, [.ok (.scalar (.integer (hint.countOf qs.length)))]), (0, [.ok (.scalar total)])] := by
  obtain ⟨total, htotal, hperform⟩ := exists_total_exact h hexact hsome
  have hlength : qs.length ≠ 0 := fun h => hsome (List.length_eq_zero_iff.mp h)
  obtain ⟨mean, hdivide, hmean⟩ := Scalar.exists_divide htotal (b := .integer qs.length)
    (q := qs.length) rfl (Nat.cast_ne_zero.mpr hlength)
  refine ⟨mean, total, hmean, htotal, ?_⟩
  intro hint
  have hsettlesMean := settles_readWith
    (show Operator.meanPlan (.sequence hint) = .ok (.read (.total _)) from rfl) (hperform _)
  have hsettlesSum := settles_readWith
    (show Operator.sumPlan (.sequence hint) = .ok (.read (.total _)) from rfl) (hperform _)
  have hsettlesCount := h.settles_countPlan
  rw [List.length_map, hexact.length_eq] at hsettlesCount
  filter_upwards [hsettlesMean, hsettlesCount, hsettlesSum] with n hx hy hz
  rw [Desk.runAlone_aggregating hx hy hz, if_neg hlength, hdivide]
  rfl

end Lone

namespace Moment

theorem exists_stands_one (M : Moment) (i : Nat) :
    M.Stands [i] [] ∨ ∃ v, M.Stands [i] [v] := by
  obtain ⟨desk, G, hdesk, h, -⟩ := M.rests
  have hstands : M.Stands [i] (Desk.take [i] (right desk : Lone.Desk)).1 := by
    intro acts rs
    rw [picked, ← hdesk]
    exact h.yields_picked_iff [i] acts rs
  change M.Stands [i] ((Readers.at? (right desk : Lone.Desk) i).toList ++ []) at hstands
  rw [List.append_nil] at hstands
  cases hat : Readers.at? (right desk : Lone.Desk) i with
  | none =>
    rw [hat] at hstands
    exact .inl hstands
  | some v =>
    rw [hat] at hstands
    exact .inr ⟨v, hstands⟩

/-- Where what is left of a sequence are exact numbers, the sum of one fork of it is that of the
numbers, the mean of another one is this sum divided by how many there are, and the count of a third
one is how many there are if no exact hint says anything else; then the mean times the count is the
sum. -/
theorem aggregates_agree (M : Moment) (i limit : Nat) {xs : List Scalar} {qs : List Rat}
    (hexact : List.Forall₂ Scalar.Exact xs qs) (hsome : qs ≠ [])
    (hleft : Yields (fun n => Desk.replies n [(0, .use .collect [0])] [M.picked [i]]) M.store
      [(0, [.ok (.list (xs.map .scalar))])]) :
    ∃ (hint : Hint) (mean total : Scalar),
      Yields (fun n => Desk.replies n (Desk.aggregating limit) [M.picked [i]]) M.store
        [(0, [.ok (.sequence hint), .ok (.sequence hint)]),
          (0, [.ok (.sequence hint), .ok (.sequence hint)]), (0, [.ok (.scalar mean)]),
          (0, [.ok (.scalar (.integer (hint.countOf qs.length)))]), (0, [.ok (.scalar total)])] ∧
      total.Exact qs.sum ∧ mean.Exact (qs.sum / qs.length) ∧
      ((∀ k, hint = .exact k → k = qs.length) → hint.countOf qs.length = qs.length ∧
        ∃ product, mean.multiply (.integer (hint.countOf qs.length)) = .ok product ∧
          product.Exact qs.sum) := by
  -- at a number without a value nothing could have been collected
  obtain hstands | ⟨v, hstands⟩ := M.exists_stands_one i
  · obtain ⟨n, hn⟩ := ((hstands _ _).mp hleft).exists
    cases hn
  have helements := Desk.elements_of_replies ((hstands _ _).mp hleft)
  obtain ⟨mean, total, hmean, htotal, hreplies⟩ :=
    Lone.exists_aggregates helements hexact hsome limit
  refine ⟨_, mean, total, (hstands _ _).mpr hreplies, htotal, hmean, fun hhint => ?_⟩
  have hcount : (Sequence.wrap v).hint.countOf qs.length = qs.length := by
    unfold Hint.countOf
    split
    · next k hk => exact hhint k hk
    · rfl
    · rfl
  refine ⟨hcount, ?_⟩
  rw [hcount]
  obtain ⟨product, hproduct, hvalue⟩ := Scalar.exists_multiply hmean
    (show Scalar.Exact (.integer qs.length) qs.length from rfl)
  have hlength : (qs.length : Rat) ≠ 0 :=
    Nat.cast_ne_zero.mpr fun h => hsome (List.length_eq_zero_iff.mp h)
  rw [div_mul_cancel₀ _ hlength] at hvalue
  exact ⟨product, hproduct, hvalue⟩

/-- Three numbers of which none has been pulled. -/
theorem aggregates_agree_fresh :
    ∃ M : Moment, Yields (fun n => Desk.replies n [(0, .use .collect [0])] [M.picked [0]]) M.store
        [(0, [.ok (.list [.scalar (.integer 1), .scalar (.integer 2), .scalar (.integer 3)])])] ∧
      ∃ (hint : Hint) (mean total : Scalar),
        Yields (fun n => Desk.replies n (Desk.aggregating 128) [M.picked [0]]) M.store
          [(0, [.ok (.sequence hint), .ok (.sequence hint)]),
            (0, [.ok (.sequence hint), .ok (.sequence hint)]), (0, [.ok (.scalar mean)]),
            (0, [.ok (.scalar (.integer (hint.countOf 3)))]), (0, [.ok (.scalar total)])] ∧
        total.Exact 6 := by
  let making : List (Nat × Act) :=
    [(0, .use (.make (.sequence (.counted (.bySum (.integer 1) (.integer 1) 3)))) [])]
  have hstands := stands_run
    (rfl : Desk.runLinked 0 making [[]] .empty = .ok ((_, [_]), _)) (Settles.const _) [0]
  have hexact : List.Forall₂ Scalar.Exact [.integer 1, .integer 2, .integer 3] [1, 2, 3] :=
    .cons rfl (.cons rfl (.cons rfl .nil))
  have hleft := (hstands [(0, .use .collect [0])] _).mpr (Desk.replies_of_run
    (rfl : Desk.runAlone 5 [(0, .use .collect [0])] _ = some (_, _)))
  obtain ⟨hint, mean, total, hyields, htotal, -⟩ :=
    aggregates_agree _ 0 128 hexact (List.cons_ne_nil _ _) hleft
  refine ⟨_, hleft, hint, mean, total, hyields, ?_⟩
  rwa [show (6 : Rat) = [(1 : Rat), 2, 3].sum by norm_num]

/-- Of three numbers the first has been pulled: the count is that of all three, and it is not the
number of elements that the mean and the sum are of. -/
theorem aggregates_disagree :
    ∃ (M : Moment) (mean total product : Scalar),
      Yields (fun n => Desk.replies n [(0, .use .collect [0])] [M.picked [1]]) M.store
        [(0, [.ok (.list [.scalar (.integer 2), .scalar (.integer 3)])])] ∧
      Yields (fun n => Desk.replies n (Desk.aggregating 128) [M.picked [1]]) M.store
        [(0, [.ok (.sequence (.exact 3)), .ok (.sequence (.exact 3))]),
          (0, [.ok (.sequence (.exact 3)), .ok (.sequence (.exact 3))]),
          (0, [.ok (.scalar mean)]), (0, [.ok (.scalar (.integer 3))]), (0, [.ok (.scalar total)])] ∧
      total.Exact 5 ∧ mean.multiply (.integer 3) = .ok product ∧ product.Exact (15 / 2) := by
  let making : List (Nat × Act) :=
    [(0, .use (.make (.sequence (.counted (.bySum (.integer 1) (.integer 1) 3)))) []),
      (0, .use .pull [0])]
  have hstands := stands_run
    (rfl : Desk.runLinked 2 making [[]] .empty = .ok ((_, [_]), _))
    (Desk.settles_run (rfl : Desk.runAlone 2 making [[]] = some (_, [_]))) [1]
  have hleft := (hstands [(0, .use .collect [0])]
    [(0, [.ok (.list [.scalar (.integer 2), .scalar (.integer 3)])])]).mpr (Desk.replies_of_run
    (rfl : Desk.runAlone 5 [(0, .use .collect [0])] _ = some (_, _)))
  have hexact : List.Forall₂ Scalar.Exact [.integer 2, .integer 3] [2, 3] :=
    .cons rfl (.cons rfl .nil)
  have helements : Lone.Elements (.wrap _) ([.integer 2, .integer 3].map .scalar) :=
    Desk.elements_of_replies ((hstands _ _).mp hleft)
  obtain ⟨mean, total, hmean, htotal, hreplies⟩ :=
    Lone.exists_aggregates helements hexact (List.cons_ne_nil _ _) 128
  obtain ⟨product, hproduct, hvalue⟩ := Scalar.exists_multiply hmean
    (show Scalar.Exact (.integer 3) 3 from rfl)
  refine ⟨_, mean, total, product, hleft, (hstands _ _).mpr hreplies, ?_,
    hproduct, ?_⟩
  · rwa [show (5 : Rat) = [(2 : Rat), 3].sum by norm_num]
  · have hquotient : [(2 : Rat), 3].sum / ([(2 : Rat), 3].length : Nat) * 3 = 15 / 2 := by
      simp only [List.sum_cons, List.sum_nil, List.length_cons, List.length_nil]
      norm_num
    rwa [← hquotient]

end Moment

end LazyCalc
