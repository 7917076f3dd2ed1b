import LazyCalc.Proofs.Desk.Moments
import LazyCalc.Proofs.Limits.Kernels
import LazyCalc.Proofs.Lone.Stable
import LazyCalc.Proofs.Operands.Building
/-!
The limit of a table and its operators. Every builtin operator that goes down into its arguments by a
broadcast or by batches is ruled by the limit of its table; sums and means are ruled by the default
limit, whatever the limit of the table.
-/

namespace LazyCalc

open Filter

namespace Operator

def deepest : Operator → List Plain → Option Nat
  | .oneArg .., [a] => some ((Grid.of id a.strip).deepest 0)
  | .twoArg .., [a, b] => some ((Grid.pair a.strip b.strip).deepest 0)
  | .listArg kernel, [c] =>
    match kernel (Collection.ofValue (Tree.ofPlain c : Lone.Value)).extent with
    | .ok ⟨_, .total _, _⟩ => some (c.rowDepth id 0)
    | _ => none
  | .listAndOneArg .., [c, a] => some (c.rowDepth (Grid.of id a.strip).deepest 0)
  | .listAndTwoArgs .., [c, a, b] => some (c.rowDepth (Grid.pair a.strip b.strip).deepest 0)
  | _, _ => none

def depthLimit : Operator → Nat
  | .oneArg _ limit | .twoArg _ limit => limit
  | .listAndOneArg _ limit | .listAndTwoArgs _ limit => limit
  | .listArg _ | .generator _ => defaultLimit

def Picks (x : Except Failure Plan) : Prop :=
  Unlimited x ∧ ∀ plan, x = .ok plan →
    (∃ index, plan = .read (.element index)) ∨ ∃ start count, plan = .read (.window start count)

/-- An operator whose kernel never fails for depth, and reads nested values by totals only. -/
inductive Sober : Operator → Prop
  | oneArg {kernel : Scalar → Outcome} {limit : Nat} (h : ∀ a, Unlimited (kernel a).result) :
    Sober (.oneArg kernel limit)
  | twoArg {kernel : Scalar → Scalar → Outcome} {limit : Nat}
    (h : ∀ a b, Unlimited (kernel a b).result) : Sober (.twoArg kernel limit)
  | listArg {kernel : Extent → Except Failure Plan}
    (h : ∀ extent before finish after, kernel extent = .ok ⟨before, .total finish, after⟩ →
      ∀ total count, Unlimited (finish total count)) : Sober (.listArg kernel)
  | listAndOneArg {kernel : Scalar → Extent → Except Failure Plan} {limit : Nat}
    (h : ∀ a extent, Picks (kernel a extent)) : Sober (.listAndOneArg kernel limit)
  | listAndTwoArgs {kernel : Scalar → Scalar → Extent → Except Failure Plan} {limit : Nat}
    (h : ∀ a b extent, Picks (kernel a b extent)) : Sober (.listAndTwoArgs kernel limit)
  | generator {kernel : Scalar → Scalar → Scalar → Outcome} : Sober (.generator kernel)

theorem exists_readWith {kernel : Extent → Except Failure Plan} (h : ∀ extent, Picks (kernel extent))
    (n : Nat) (vs : List Lone.Value) :
    ∃ x, (Collection.list vs).readWith (Drive.alone n) kernel = some x ∧ Unlimited x := by
  obtain ⟨hunlimited, hpicks⟩ := h (Collection.list vs : Lone.Collection).extent
  rw [Collection.readWith]
  cases hplan : kernel (Collection.list vs : Lone.Collection).extent with
  | error e =>
    refine ⟨.error e, rfl, ?_⟩
    rintro l ⟨⟩
    exact hunlimited l hplan
  | ok plan =>
    obtain ⟨index, rfl⟩ | ⟨start, count, rfl⟩ := hpicks plan hplan
    · simp only [Plan.read, Collection.perform, Collection.element]
      cases vs[index]? with
      | some v => exact ⟨.ok v, rfl, .ok v⟩
      | none => exact ⟨_, rfl, .indexOutOfRange index vs.length⟩
    · exact ⟨_, rfl, .ok _⟩

section

variable (name : String) {limit : Nat}

theorem heeding_oneArg {kernel : Scalar → Outcome} (h : ∀ a, Unlimited (kernel a).result)
    (a : Plain) : Heeding limit ((Grid.of id a.strip).deepest 0)
      ((Operator.oneArg kernel limit).call (Drive.alone 0) name [.ofPlain a]) := by
  change Heeding _ _ (broadcastOne (Drive.alone 0) ((Leaf.kernel kernel).run (Drive.alone 0))
    (.kernel kernel) limit 0 (.ofPlain a))
  rw [broadcastOne_plain limit (Drive.drop_alone 0)]
  exact Grid.heeding_carry 0 limit (fun x => ⟨_, rfl, (h x).map _⟩) 0 _

theorem heeding_twoArg {kernel : Scalar → Scalar → Outcome}
    (h : ∀ a b, Unlimited (kernel a b).result) (a b : Plain) :
    Heeding limit ((Grid.pair a.strip b.strip).deepest 0)
      ((Operator.twoArg kernel limit).call (Drive.alone 0) name [.ofPlain a, .ofPlain b]) := by
  change Heeding _ _ (broadcastTwo (Drive.alone 0)
    (fun x y => (Leaf.kernel fun p : Scalar × Scalar => kernel p.1 p.2).run (Drive.alone 0)
      (x, y)) (.kernel fun p => kernel p.1 p.2) limit 0 (.ofPlain a) (.ofPlain b))
  rw [broadcastTwo_plain limit (Drive.drop_alone 0)]
  exact Grid.heeding_carry 0 limit (fun p : Scalar × Scalar => ⟨_, rfl, (h p.1 p.2).map _⟩) 0 _

theorem heeding_total {kernel : Extent → Except Failure Plan} {c : Plain} {before : List String}
    {finish : Scalar → Nat → Except Failure Scalar} {after : List String}
    (hplan : kernel (Collection.ofValue (Tree.ofPlain c : Lone.Value)).extent =
      .ok ⟨before, .total finish, after⟩)
    (h : ∀ total count, Unlimited (finish total count)) :
    ∃ n, Heeding defaultLimit (c.rowDepth id 0)
      ((Operator.listArg kernel).call (Drive.alone n) name [.ofPlain c]) := by
  obtain ⟨N, x, hheeds, htotal⟩ := Lone.totalHeeds Scalar.unlimited_add h 0 c
  refine ⟨N + 1, x, ?_, hheeds⟩
  change (Collection.ofValue (Tree.ofPlain c)).readWith (Drive.alone (N + 1)) kernel = some x
  rw [Collection.readWith, hplan]
  change Option.bind ((Collection.ofValue (Tree.ofPlain c)).total (Drive.alone (N + 1)) finish
    (N + 1) 0) _ = some x
  rw [htotal N N (le_refl N) (le_refl N)]
  cases x <;> rfl

theorem heeding_listAndOneArg {kernel : Scalar → Extent → Except Failure Plan}
    (h : ∀ a extent, Picks (kernel a extent)) (c a : Plain) :
    Heeding limit (c.rowDepth (Grid.of id a.strip).deepest 0)
      ((Operator.listAndOneArg kernel limit).call (Drive.alone 0) name
        [.ofPlain c, .ofPlain a]) := by
  have hcall := (Afresh.one kernel limit (.ofPlain c) (.ofPlain a)).call_eq name 0
  refine (congrArg (Heeding _ _) hcall).mpr (Lone.heeding_byRows
    (Grid.le_deepest · _) (fun depth ts => ?_) 0 c)
  rw [Lone.readOne, broadcastOne_plain limit (Drive.drop_alone 0)]
  exact Grid.heeding_carry 0 limit (fun x => exists_readWith (h x) 0 _) depth _

theorem heeding_listAndTwoArgs {kernel : Scalar → Scalar → Extent → Except Failure Plan}
    (h : ∀ a b extent, Picks (kernel a b extent)) (c a b : Plain) :
    Heeding limit (c.rowDepth (Grid.pair a.strip b.strip).deepest 0)
      ((Operator.listAndTwoArgs kernel limit).call (Drive.alone 0) name
        [.ofPlain c, .ofPlain a, .ofPlain b]) := by
  have hcall := (Afresh.two kernel limit (.ofPlain c) (.ofPlain a) (.ofPlain b)).call_eq name 0
  refine (congrArg (Heeding _ _) hcall).mpr (Lone.heeding_byRows
    (Grid.le_deepest · _) (fun depth ts => ?_) 0 c)
  rw [Lone.readTwo, broadcastTwo_plain limit (Drive.drop_alone 0)]
  exact Grid.heeding_carry 0 limit
    (fun p : Scalar × Scalar => exists_readWith (h p.1 p.2) 0 _) depth _

end

/-- A call of an operator whose kernel never fails for depth heeds the limit of the operator. -/
theorem Sober.exists_call {op : Operator} (hop : op.Sober) {args : List Plain} {d : Nat}
    (hd : op.deepest args = some d) (name : String) :
    ∃ n x, op.call (Drive.alone n) name (args.map Tree.ofPlain) = some x ∧
      Heeds op.depthLimit d x := by
  -- only the number of arguments that the operator takes has a deepest level
  cases hop with
  | oneArg h =>
    obtain _ | ⟨a, _ | ⟨b, rest⟩⟩ := args
    case cons.nil =>
      obtain rfl := Option.some.inj hd
      exact ⟨0, heeding_oneArg name h a⟩
    all_goals cases hd
  | twoArg h =>
    obtain _ | ⟨a, _ | ⟨b, _ | ⟨c, rest⟩⟩⟩ := args
    case cons.cons.nil =>
      obtain rfl := Option.some.inj hd
      exact ⟨0, heeding_twoArg name h a b⟩
    all_goals cases hd
  | listArg h =>
    obtain _ | ⟨c, _ | ⟨a, rest⟩⟩ := args
    case cons.nil =>
      simp only [deepest] at hd
      split at hd
      · next hplan =>
        obtain rfl := Option.some.inj hd
        exact heeding_total name hplan (h _ _ _ _ hplan)
      · cases hd
    all_goals cases hd
  | listAndOneArg h =>
    obtain _ | ⟨c, _ | ⟨a, _ | ⟨b, rest⟩⟩⟩ := args
    case cons.cons.nil =>
      obtain rfl := Option.some.inj hd
      exact ⟨0, heeding_listAndOneArg name h c a⟩
    all_goals cases hd
  | listAndTwoArgs h =>
    obtain _ | ⟨c, _ | ⟨a, _ | ⟨b, _ | ⟨d, rest⟩⟩⟩⟩ := args
    case cons.cons.cons.nil =>
      obtain rfl := Option.some.inj hd
      exact ⟨0, heeding_listAndTwoArgs name h c a b⟩
    all_goals cases hd
  | generator => cases hd

theorem picks_nthPlan (a : Scalar) (extent : Extent) : Picks (nthPlan a extent) := by
  refine ⟨unlimited_nthPlan a extent, fun plan hplan => .inl ?_⟩
  unfold nthPlan at hplan
  split at hplan
  · next length =>
    cases hposition : listPosition length a with
    | error e => rw [hposition] at hplan; cases hplan
    | ok index => rw [hposition] at hplan; cases hplan; exact ⟨index, rfl⟩
  · cases hposition : a.position "index" with
    | error e => rw [hposition] at hplan; cases hplan
    | ok index => rw [hposition] at hplan; cases hplan; exact ⟨index, rfl⟩

theorem picks_sublistPlan (a b : Scalar) (extent : Extent) : Picks (sublistPlan a b extent) :=
  ⟨unlimited_sublistPlan a b extent, fun _ hplan => .inr (exists_window hplan)⟩

theorem Sober.ofUnary {f : Scalar → Except Failure Scalar} (h : ∀ a, Unlimited (f a)) (limit : Nat) :
    Sober ((ofUnary f).withLimit limit) :=
  .oneArg fun a => (h a).map Tree.scalar

theorem Sober.ofBinary {f : Scalar → Scalar → Except Failure Scalar}
    (h : ∀ a b, Unlimited (f a b)) (limit : Nat) : Sober ((ofBinary f).withLimit limit) :=
  .twoArg fun a b => (h a b).map Tree.scalar

theorem sober_of_mem {name : String} {op : Operator} {doc : String} (h : (name, op, doc) ∈ builtins)
    (limit : Nat) : (op.withLimit limit).Sober := by
  simp only [builtins, List.mem_cons, Prod.mk.injEq, List.not_mem_nil, or_false] at h
  obtain ⟨-, rfl, -⟩ | ⟨-, rfl, -⟩ | ⟨-, rfl, -⟩ | ⟨-, rfl, -⟩ | ⟨-, rfl, -⟩ | ⟨-, rfl, -⟩ |
    ⟨-, rfl, -⟩ | ⟨-, rfl, -⟩ | ⟨-, rfl, -⟩ | ⟨-, rfl, -⟩ | ⟨-, rfl, -⟩ | ⟨-, rfl, -⟩ |
    ⟨-, rfl, -⟩ | ⟨-, rfl, -⟩ | ⟨-, rfl, -⟩ | ⟨-, rfl, -⟩ | ⟨-, rfl, -⟩ | ⟨-, rfl, -⟩ := h
  · exact .ofBinary Scalar.unlimited_add limit
  · exact .ofBinary Scalar.unlimited_subtract limit
  · exact .ofBinary Scalar.unlimited_multiply limit
  · exact .ofBinary Scalar.unlimited_divide limit
  · exact .ofBinary unlimited_checkedPower limit
  · exact .ofUnary Scalar.unlimited_negate limit
  · exact .ofUnary (fun a => a.unlimited_multiply a) limit
  · refine .listArg ?_
    rintro extent before finish after ⟨⟩ total count
    exact .ok total
  · refine .listArg ?_
    rintro extent before finish after ⟨⟩ total count
    dsimp only
    split
    · exact .domain _
    · exact total.unlimited_divide _
  · refine .listArg fun extent before finish after hplan => ?_
    simp only [countPlan] at hplan
    split at hplan <;> cases hplan
  · exact .listAndOneArg picks_nthPlan
  · exact .listAndTwoArgs picks_sublistPlan
  · exact .twoArg fun a b => unlimited_boundedRange a b (.integer 1)
  · exact .generator
  · exact .generator
  · exact .generator
  · exact .generator
  · exact .oneArg unlimited_permuteDigits

end Operator

namespace Table

variable {name : String} {entry : Operator.Entry}

theorem mem_of_find? {table : Table} (h : table.find? name = some entry) :
    (name, entry) ∈ table.entries := by
  obtain ⟨before, after, hentries, -⟩ := List.lookup_eq_some_iff.mp h
  rw [hentries]
  exact List.mem_append_right _ (List.mem_cons_self ..)

theorem mem_entries_fill (ops : List (String × Operator × String)) (table : Table)
    (h : (name, entry) ∈ (ops.foldl (fun table (name, operator, doc) =>
      table.register name operator (some doc)) table).entries) :
    (∃ op doc, (name, op, doc) ∈ ops ∧ entry = ⟨op.withLimit table.limit, some doc⟩) ∨
      (name, entry) ∈ table.entries := by
  induction ops generalizing table with
  | nil => exact .inr h
  | cons first ops ih =>
    obtain ⟨op, doc, hmem, rfl⟩ | hmem := ih _ h
    · exact .inl ⟨op, doc, List.mem_cons_of_mem _ hmem, rfl⟩
    · obtain heq | hmem := List.mem_cons.mp hmem
      · obtain ⟨rfl, rfl⟩ := Prod.mk.inj heq
        exact .inl ⟨first.2.1, first.2.2, List.mem_cons_self .., rfl⟩
      · exact .inr (List.mem_filter.mp hmem).1

theorem of_find?_builtin {limit : Nat} (h : (builtin limit).find? name = some entry) :
    ∃ op doc, (name, op, doc) ∈ Operator.builtins ∧ entry = ⟨op.withLimit limit, some doc⟩ := by
  obtain hmem | hmem := mem_entries_fill Operator.builtins (empty limit) (mem_of_find? h)
  · exact hmem
  · cases hmem

def builtinLimit (limit : Nat) (name : String) : Nat :=
  if name = "sum" ∨ name = "mean" then defaultLimit else limit

theorem depthLimit_of_mem {op : Operator} {doc : String} (h : (name, op, doc) ∈ Operator.builtins)
    {limit d : Nat} {args : List Plain} (hd : (op.withLimit limit).deepest args = some d) :
    (op.withLimit limit).depthLimit = builtinLimit limit name := by
  simp only [Operator.builtins, List.mem_cons, Prod.mk.injEq, List.not_mem_nil, or_false] at h
  obtain ⟨rfl, rfl, -⟩ | ⟨rfl, rfl, -⟩ | ⟨rfl, rfl, -⟩ | ⟨rfl, rfl, -⟩ | ⟨rfl, rfl, -⟩ |
    ⟨rfl, rfl, -⟩ | ⟨rfl, rfl, -⟩ | ⟨rfl, rfl, -⟩ | ⟨rfl, rfl, -⟩ | ⟨rfl, rfl, -⟩ |
    ⟨rfl, rfl, -⟩ | ⟨rfl, rfl, -⟩ | ⟨rfl, rfl, -⟩ | ⟨rfl, rfl, -⟩ | ⟨rfl, rfl, -⟩ |
    ⟨rfl, rfl, -⟩ | ⟨rfl, rfl, -⟩ | ⟨rfl, rfl, -⟩ := h
  case inr.inr.inr.inr.inr.inr.inr.inr.inr.inl =>
    -- a count is no total
    obtain _ | ⟨c, _ | ⟨a, rest⟩⟩ := args
    case cons.nil =>
      simp only [Operator.withLimit, Operator.deepest] at hd
      split at hd
      · next hplan =>
        simp only [Operator.countPlan] at hplan
        split at hplan <;> cases hplan
      · cases hd
    all_goals cases hd
  all_goals first | rfl | cases hd

end Table

def verdict {α : Type} (x : Except Failure α) : Except Failure Unit := x.map fun _ => ()

theorem Moment.yields_call (M : Moment) {name : String} {op : Operator} {args : List Plain}
    {n : Nat} {x : Lone.Item}
    (h : op.call (Drive.alone n) name (args.map Tree.ofPlain) = some x) :
    Yields (fun n => verdict <$> op.call (Drive.ofFuel n) name (args.map Tree.ofPlain)) M.store
      (verdict x) := by
  obtain ⟨desk, G, -, hrests, -⟩ := M.rests
  obtain ⟨r, hready⟩ := hrests.ready
  let ts : List (Tree Twins.Sequence) := args.map Tree.ofPlain
  have hleft : (left ts : List Linked.Value) = args.map Tree.ofPlain := by
    rw [left_list, List.map_map]
    exact List.map_congr_left fun t _ => Tree.map_ofPlain left t
  have hright : (right ts : List Lone.Value) = args.map Tree.ofPlain := by
    rw [right_list, List.map_map]
    exact List.map_congr_left fun t _ => Tree.map_ofPlain right t
  have hparts : (parts ts : Twins.Parts) = 0 := by
    rw [← parts_ofPlains args, Tree.mapList_eq_map]
    rfl
  have hconcord (n : Nat) : Concord false Twins.Item n G.book (fun _ => []) (parts desk)
      (op.call (Drive.ofFuel n) name (args.map Tree.ofPlain) M.store)
      (fun n => op.call (Drive.alone n) name (args.map Tree.ofPlain)) := by
    have hcall := (agreeing n (pullsAgree n)).frame (parts desk)
      ((agreeing n (pullsAgree n)).call name op ts) G M.store 0 r (by rwa [hparts, zero_add])
    rw [hleft, hright] at hcall
    obtain hnone | ⟨c, st', hx, hY, hYn, hr⟩ := hcall
    · exact .inl hnone
    · obtain ⟨G', h', hG⟩ := hrests.reached hr
      exact .inr ⟨c, G', st', hx, hY, hYn, h'.congr (by rw [zero_add]), hG⟩
  have hshown (c : Twins.Item) : verdict (left c : Linked.Item) = verdict (right c : Lone.Item) := by
    cases c <;> rfl
  refine (Concord.yields_iff hconcord hshown _).mpr ?_
  filter_upwards [Lone.settles_call h] with m hm
  rw [hm]
  rfl

namespace Table

/-- The builtin operators that do not go down into their arguments: one counts what is there, the
others are for plain scalars. -/
def flat : List String :=
  ["count", "interval_range", "sized_range", "geometric_range", "exponential_range"]

theorem exists_deepest {name doc : String} {op : Operator}
    (h : (name, op, doc) ∈ Operator.builtins) (hname : name ∉ flat) (limit : Nat)
    {args : List Plain} (hargs : args.length = op.arity) :
    ∃ d, (op.withLimit limit).deepest args = some d := by
  simp only [Operator.builtins, List.mem_cons, Prod.mk.injEq, List.not_mem_nil, or_false] at h
  obtain ⟨rfl, rfl, -⟩ | ⟨rfl, rfl, -⟩ | ⟨rfl, rfl, -⟩ | ⟨rfl, rfl, -⟩ | ⟨rfl, rfl, -⟩ |
    ⟨rfl, rfl, -⟩ | ⟨rfl, rfl, -⟩ | ⟨rfl, rfl, -⟩ | ⟨rfl, rfl, -⟩ | ⟨rfl, rfl, -⟩ |
    ⟨rfl, rfl, -⟩ | ⟨rfl, rfl, -⟩ | ⟨rfl, rfl, -⟩ | ⟨rfl, rfl, -⟩ | ⟨rfl, rfl, -⟩ |
    ⟨rfl, rfl, -⟩ | ⟨rfl, rfl, -⟩ | ⟨rfl, rfl, -⟩ := h
  all_goals first
    | (obtain ⟨a, rfl⟩ := List.length_eq_one_iff.mp hargs
       exact ⟨_, rfl⟩)
    | (obtain ⟨a, b, rfl⟩ := List.length_eq_two.mp hargs
       exact ⟨_, rfl⟩)
    | (obtain ⟨a, b, c, rfl⟩ := List.length_eq_three.mp hargs
       exact ⟨_, rfl⟩)
    | exact absurd (by simp [flat]) hname

/-- A limit rules every operator in the table of a calculator that goes down into its arguments, but
for sums and means, which the default limit rules: at every moment, a call on values without
sequences goes through only if it goes no deeper than the limit, it is refused for its depth only if
it goes deeper, and where no kernel and no element fails it fails just if it goes deeper. -/
theorem builtin_heeds (M : Moment) (limit : Nat) {name : String} {args : List Plain}
    {entry : Operator.Entry} (hentry : (builtin limit).find? name = some entry)
    (hname : name ∉ flat) (hargs : args.length = entry.operator.arity) :
    ∃ (d : Nat) (out : Except Failure Unit), entry.operator.deepest args = some d ∧
      Yields (fun n => verdict <$>
        (builtin limit).invoke (Drive.ofFuel n) name (args.map Tree.ofPlain)) M.store out ∧
      Heeds (builtinLimit limit name) d out ∧
      ((∀ e, out = .error e → ∃ l, e = .nestingTooDeep l) →
        ((∃ e, out = .error e) ↔ builtinLimit limit name < d) ∧
          ∀ e, out = .error e → e = .nestingTooDeep (builtinLimit limit name)) := by
  have hinvoke (n : Nat) : (builtin limit).invoke (Drive.ofFuel n) name (args.map Tree.ofPlain) =
      entry.operator.call (Drive.ofFuel n) name (args.map Tree.ofPlain) := by
    rw [invoke, hentry]
  obtain ⟨op, doc, hmem, rfl⟩ := of_find?_builtin hentry
  have harity : (op.withLimit limit).arity = op.arity := by cases op <;> rfl
  obtain ⟨d, hd⟩ := exists_deepest hmem hname limit (hargs.trans harity)
  obtain ⟨n, x, hcall, hheeds⟩ := (Operator.sober_of_mem hmem limit).exists_call hd name
  rw [depthLimit_of_mem hmem hd] at hheeds
  have hverdict : Heeds (builtinLimit limit name) d (verdict x) := hheeds.map _
  refine ⟨d, verdict x, hd, ?_, hverdict, fun hx => hverdict.fails_iff hx⟩
  simp only [hinvoke]
  exact M.yields_call hcall

/-- Three levels of list under a limit of one. -/
theorem builtin_heeds_negated :
    let args : List Plain := [.list [.list [.list [.scalar (.integer 1)]]]]
    ∃ entry, (builtin 1).find? "neg" = some entry ∧ "neg" ∉ flat ∧
      args.length = entry.operator.arity ∧
      ∃ (d : Nat) (out : Except Failure Unit), entry.operator.deepest args = some d ∧
        Yields (fun n => verdict <$>
          (builtin 1).invoke (Drive.ofFuel n) "neg" (args.map Tree.ofPlain)) Store.empty out ∧
        Heeds 1 d out ∧
        ((∀ e, out = .error e → ∃ l, e = .nestingTooDeep l) →
          ((∃ e, out = .error e) ↔ 1 < d) ∧ ∀ e, out = .error e → e = .nestingTooDeep 1) := by
  intro args
  have hname : "neg" ∉ flat := by decide
  exact ⟨_, rfl, hname, rfl, builtin_heeds default 1 rfl hname rfl⟩

/-- Rows are summed also where the limit allows for none. -/
theorem sum_unlimited :
    let args : List Plain := [.list [.list [.scalar (.integer 1), .scalar (.integer 2)],
      .list [.scalar (.integer 3)]]]
    (∃ entry, (builtin 0).find? "sum" = some entry ∧ entry.operator.deepest args = some 1) ∧
      Yields (fun n => verdict <$>
        (builtin 0).invoke (Drive.ofFuel n) "sum" (args.map Tree.ofPlain)) Store.empty (.ok ()) := by
  intro args
  refine ⟨⟨_, rfl, rfl⟩, ?_⟩
  have hcall : (Operator.listArg Operator.sumPlan).call (Drive.alone 4) "sum"
      (args.map Tree.ofPlain) = some (.ok (.list [.scalar (.integer 3), .scalar (.integer 3)])) := rfl
  exact (default : Moment).yields_call hcall

end Table

end LazyCalc
