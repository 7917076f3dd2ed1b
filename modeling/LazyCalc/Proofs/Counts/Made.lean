import LazyCalc.Proofs.Collections.Afresh
import LazyCalc.Proofs.Desk.Basic
/-!
What is made of lone sequences without pulling any: broadcasts, sublists and generators give trees
whose sequences have a property, if those in the arguments have it and it is kept by every way to
build a sequence over others.
-/

namespace LazyCalc

namespace Tree

variable {σ τ : Type} {P : σ → Prop}

mutual

def All (P : σ → Prop) : Tree σ → Prop
  | .scalar _ => True
  | .list ts => AllList P ts
  | .sequence s => P s

def AllList (P : σ → Prop) : List (Tree σ) → Prop
  | [] => True
  | t :: ts => All P t ∧ AllList P ts

end

theorem allList_iff {ts : List (Tree σ)} : AllList P ts ↔ ∀ t ∈ ts, t.All P := by
  induction ts with
  | nil => exact ⟨nofun, fun _ => trivial⟩
  | cons t ts ih => rw [AllList, ih, List.forall_mem_cons]

theorem allList_reverse {ts : List (Tree σ)} (h : AllList P ts) : AllList P ts.reverse :=
  allList_iff.mpr fun t ht => allList_iff.mp h t (List.mem_reverse.mp ht)

theorem All.unwrap {t : Tree σ} (h : t.All P) : t.unwrap.All P := by
  fun_induction Tree.unwrap t with
  | case1 t ih => exact ih h.1
  | case2 t _ => exact h

theorem All.spread {t : Tree σ} (h : t.All P) : AllList P t.spread := by
  cases t with
  | list ts => exact h
  | scalar x => exact ⟨h, trivial⟩
  | sequence s => exact ⟨h, trivial⟩

mutual

theorem all_map {Q : τ → Prop} {f : σ → τ} (hf : ∀ s, P s → Q (f s)) {t : Tree σ} (h : t.All P) :
    (t.map f).All Q := by
  cases t with
  | scalar x => trivial
  | list ts => exact allList_map hf h
  | sequence s => exact hf s h

theorem allList_map {Q : τ → Prop} {f : σ → τ} (hf : ∀ s, P s → Q (f s)) {ts : List (Tree σ)}
    (h : AllList P ts) : AllList Q (mapList f ts) := by
  cases ts with
  | nil => trivial
  | cons t ts => exact ⟨all_map hf h.1, allList_map hf h.2⟩

end

end Tree

def Gives {α : Type} (P : α → Prop) (x : Option α) : Prop := ∀ a, x = some a → P a

namespace Gives

variable {α β : Type} {P : α → Prop} {Q : β → Prop} {x : Option α} {a : α}

theorem pure (h : P a) : Gives P (some a) := fun _ ha => Option.some.inj ha ▸ h

theorem bind {f : α → Option β} (hx : Gives P x) (hf : ∀ a, P a → Gives Q (f a)) :
    Gives Q (x >>= f) := by
  intro b hb
  obtain ⟨a, ha, hb⟩ := Option.bind_eq_some_iff.mp hb
  exact hf a (hx a ha) b hb

end Gives

/-- The drafts of progressions, of orderings and of tuples. -/
inductive Draft.Regular : Draft → Prop
  | bounded {start stop step : Scalar} {d : Draft} (h : Draft.bounded start stop step = .ok d) :
    Regular d
  | bySum (start step : Scalar) (count : Nat) : Regular (.counted (.bySum start step count))
  | byProduct (start ratio : Scalar) (count : Nat) : Regular (.counted (.byProduct start ratio count))
  | byPower (start exponent : Scalar) (count : Nat) :
    Regular (.counted (.byPower start exponent count))
  | permutations (items : List Scalar) (assemble : Assembly) : Regular (.permutations items assemble)
  | product (sources : List (List Scalar)) (assemble : Assembly) : Regular (.product sources assemble)

/-- A kernel whose sequences are those of regular drafts. -/
def Outcome.Regular (outcome : Outcome) : Prop :=
  ∀ t, outcome.result = .ok t → t.All Draft.Regular

/-- An operator that broadcasts, makes a sequence of scalars, or picks a window. -/
inductive Operator.Regular : Operator → Prop
  | oneArg {kernel : Scalar → Outcome} (h : ∀ a, (kernel a).Regular) (limit : Nat) :
    Regular (.oneArg kernel limit)
  | twoArg {kernel : Scalar → Scalar → Outcome} (h : ∀ a b, (kernel a b).Regular) (limit : Nat) :
    Regular (.twoArg kernel limit)
  | generator {kernel : Scalar → Scalar → Scalar → Outcome} (h : ∀ a b c, (kernel a b c).Regular) :
    Regular (.generator kernel)
  | sublist {kernel : Scalar → Scalar → Extent → Except Failure Plan}
    (h : ∀ a b extent plan, kernel a b extent = .ok plan →
      ∃ start count, plan.reading = .window start count) (limit : Nat) :
    Regular (.listAndTwoArgs kernel limit)

/-- A tool that builds: it pulls nothing, and what it gives are regular drafts, what it is given,
or sequences over that. -/
inductive Tool.Regular : Tool → (numbers : List Nat) → Prop
  | make {t : Template} (h : t.All Draft.Regular) (numbers : List Nat) : Regular (.make t) numbers
  | empty : Regular (.elements [] (.exact 0)) []
  | list (numbers : List Nat) : Regular .list numbers
  | spread (numbers : List Nat) : Regular .spread numbers
  | unwrap (numbers : List Nat) : Regular .unwrap numbers
  | wrap (numbers : List Nat) : Regular .wrap numbers
  | mapped (mapping : Mapping Empty) (numbers : List Nat) : Regular (.mapped mapping) numbers
  | filtered (test : Outline → Except Failure Bool) (invert : Bool) (numbers : List Nat) :
    Regular (.filtered test invert) numbers
  | zipped (pairing : Pairing Empty) (numbers : List Nat) : Regular (.zipped pairing) numbers
  | window (start count : Nat) (numbers : List Nat) : Regular (.window start count) numbers
  | call (name : String) {op : Operator} (h : op.Regular) (numbers : List Nat) :
    Regular (.call name op) numbers
  | invoke {table : Table} {name : String}
    (h : ∀ entry, table.find? name = some entry → entry.operator.Regular) (numbers : List Nat) :
    Regular (.invoke table name) numbers
  | copy (numbers : List Nat) : Regular .copy numbers
  | fork (numbers : List Nat) : Regular .fork numbers

namespace Lone

def Item.All (P : Sequence → Prop) : Item → Prop
  | .ok v => v.All P
  | .error _ => True

def Collection.All (P : Sequence → Prop) : Collection → Prop
  | .list vs => Tree.AllList P vs
  | .sequence s => P s

/-- A property of sequences that those of regular drafts have, and that every way to build a sequence
over others keeps. -/
structure Closed (P : Sequence → Prop) : Prop where
  draft : ∀ {d : Draft}, d.Regular → P (.ofDraft d)
  wrap : ∀ {v : Value}, v.All P → P (.wrap v)
  mapped : ∀ {s : Sequence} (mapping : Mapping Snapshot), P s → P (s.mapped mapping)
  filtered : ∀ {s : Sequence} (test : Outline → Except Failure Bool) (held : List Value)
    (invert : Bool), P s → P (s.filtered test held invert)
  zipped : ∀ {s t : Sequence} (pairing : Pairing Snapshot), P s → P t → P (s.zipped t pairing)
  window : ∀ {s : Sequence} (start count : Nat), P s → P (s.window start count)

namespace Closed

variable {P : Sequence → Prop} (hP : Closed P) {n : Nat}

theorem of_drop (vs : List Value) {x : Option Item} (hx : Gives (Item.All P) x) :
    Gives (Item.All P) ((Drive.alone n).drop vs >>= fun _ => x) := hx

theorem refuseDepth (limit : Nat) (vs : List Value) :
    Gives (Item.All P) ((Drive.alone n).refuseDepth limit vs) :=
  .pure trivial

theorem of_retain {α : Type} (leaf : Leaf Snapshot α) {x : Option Item}
    (hx : Gives (Item.All P) x) :
    Gives (Item.All P) (leaf.retain (Drive.alone n) >>= fun _ => x) := by
  cases leaf with
  | kernel => exact hx
  | reading => exact hx

include hP

theorem mappedBy {α : Type} {s : Sequence} (leaf : Leaf Snapshot α) (mapping : Mapping Snapshot)
    (hs : P s) : Gives (Item.All P) ((Drive.alone n).mappedBy s leaf mapping) :=
  of_retain leaf (.pure (hP.mapped mapping hs))

theorem zippedBy {s t : Sequence} (leaf : Leaf Snapshot (Scalar × Scalar)) (limit depth : Nat)
    (hs : P s) (ht : P t) :
    Gives (Item.All P) ((Drive.alone n).zippedBy s t leaf limit depth) :=
  of_retain leaf (.pure (hP.zipped _ hs ht))

section

omit hP

variable {run : Scalar → Option Item} (leaf : Leaf Snapshot Scalar) (limit : Nat)

mutual

theorem broadcastOne (hP : Closed P) (hrun : ∀ x, Gives (Item.All P) (run x)) (depth : Nat)
    {v : Value} (hv : v.All P) :
    Gives (Item.All P) (LazyCalc.broadcastOne (Drive.alone n) run leaf limit depth v) := by
  rw [broadcastOne_eq]
  split
  · exact refuseDepth limit [v]
  · have hunwrap := hv.unwrap
    have hsize := Tree.sizeOf_unwrap_le v
    generalize v.unwrap = w at hunwrap hsize ⊢
    cases w with
    | scalar x => exact hrun x
    | list vs => exact broadcastItems hP hrun (depth + 1) hunwrap trivial
    | sequence s => exact hP.mappedBy leaf _ hunwrap
termination_by sizeOf v
decreasing_by simp only [Tree.list.sizeOf_spec] at hsize; omega

theorem broadcastItems (hP : Closed P) (hrun : ∀ x, Gives (Item.All P) (run x)) (depth : Nat)
    {vs made : List Value} (hvs : Tree.AllList P vs) (hmade : Tree.AllList P made) :
    Gives (Item.All P) (LazyCalc.broadcastItems (Drive.alone n) run leaf limit depth vs made) := by
  cases vs with
  | nil =>
    rw [LazyCalc.broadcastItems]
    exact .pure (Tree.allList_reverse hmade)
  | cons v vs =>
    rw [LazyCalc.broadcastItems]
    refine (broadcastOne hP hrun depth hvs.1).bind ?_
    rintro (e | w) hw
    · exact of_drop vs (of_drop made.reverse (.pure trivial))
    · exact broadcastItems hP hrun depth hvs.2 ⟨hw, hmade⟩
termination_by sizeOf vs

end

end

section

omit hP

variable {run : Scalar → Scalar → Option Item} (leaf : Leaf Snapshot (Scalar × Scalar))
  (limit : Nat)

mutual

theorem broadcastTwo (hP : Closed P) (hrun : ∀ x y, Gives (Item.All P) (run x y)) (depth : Nat)
    {a b : Value} (ha : a.All P) (hb : b.All P) :
    Gives (Item.All P) (LazyCalc.broadcastTwo (Drive.alone n) run leaf limit depth a b) := by
  rw [broadcastTwo_eq]
  split
  · exact refuseDepth limit [b, a]
  · have hua := ha.unwrap
    have hub := hb.unwrap
    have hsa := Tree.sizeOf_unwrap_le a
    have hsb := Tree.sizeOf_unwrap_le b
    generalize a.unwrap = a' at hua hsa ⊢
    generalize b.unwrap = b' at hub hsb ⊢
    cases a' with
    | scalar x =>
      cases b' with
      | scalar y => exact hrun x y
      | list ys => exact broadcastRights hP hrun (depth + 1) x hub trivial
      | sequence s => exact hP.mappedBy leaf _ hub
    | list xs =>
      cases b' with
      | scalar y => exact broadcastLefts hP hrun (depth + 1) y hua trivial
      | list ys => exact broadcastPairs hP hrun (depth + 1) hua hub trivial
      | sequence s => exact hP.zippedBy leaf _ _ (hP.wrap (v := .list xs) hua) hub
    | sequence s =>
      cases b' with
      | scalar y => exact hP.mappedBy leaf _ hua
      | list ys => exact hP.zippedBy leaf _ _ hua (hP.wrap (v := .list ys) hub)
      | sequence t => exact hP.zippedBy leaf _ _ hua hub
termination_by sizeOf a + sizeOf b
decreasing_by
  all_goals
    simp only [Tree.scalar.sizeOf_spec, Tree.list.sizeOf_spec] at hsa hsb ⊢
    omega

theorem broadcastPairs (hP : Closed P) (hrun : ∀ x y, Gives (Item.All P) (run x y)) (depth : Nat)
    {xs ys made : List Value} (hxs : Tree.AllList P xs) (hys : Tree.AllList P ys)
    (hmade : Tree.AllList P made) :
    Gives (Item.All P) (LazyCalc.broadcastPairs (Drive.alone n) run leaf limit depth xs ys made) := by
  match xs, ys with
  | x :: xs, y :: ys =>
    rw [LazyCalc.broadcastPairs]
    refine (broadcastTwo hP hrun depth hxs.1 hys.1).bind ?_
    rintro (e | w) hw
    · exact of_drop xs (of_drop ys (of_drop made.reverse (.pure trivial)))
    · exact broadcastPairs hP hrun depth hxs.2 hys.2 ⟨hw, hmade⟩
  | [], ys =>
    rw [LazyCalc.broadcastPairs]
    · exact of_drop [] (of_drop ys (.pure (Tree.allList_reverse hmade)))
    · exact nofun
  | x :: xs, [] =>
    rw [LazyCalc.broadcastPairs]
    · exact of_drop (x :: xs) (of_drop [] (.pure (Tree.allList_reverse hmade)))
    · exact nofun
termination_by sizeOf xs + sizeOf ys

theorem broadcastLefts (hP : Closed P) (hrun : ∀ x y, Gives (Item.All P) (run x y)) (depth : Nat)
    {xs made : List Value} (y : Scalar) (hxs : Tree.AllList P xs) (hmade : Tree.AllList P made) :
    Gives (Item.All P) (LazyCalc.broadcastLefts (Drive.alone n) run leaf limit depth xs y made) := by
  cases xs with
  | nil =>
    rw [LazyCalc.broadcastLefts]
    exact .pure (Tree.allList_reverse hmade)
  | cons x xs =>
    rw [LazyCalc.broadcastLefts]
    refine (broadcastTwo hP hrun depth hxs.1 (b := .scalar y) trivial).bind ?_
    rintro (e | w) hw
    · exact of_drop xs (of_drop made.reverse (.pure trivial))
    · exact broadcastLefts hP hrun depth y hxs.2 ⟨hw, hmade⟩
termination_by sizeOf xs + sizeOf (Tree.scalar y : Value)

theorem broadcastRights (hP : Closed P) (hrun : ∀ x y, Gives (Item.All P) (run x y)) (depth : Nat)
    (x : Scalar) {ys made : List Value} (hys : Tree.AllList P ys) (hmade : Tree.AllList P made) :
    Gives (Item.All P) (LazyCalc.broadcastRights (Drive.alone n) run leaf limit depth x ys made) := by
  cases ys with
  | nil =>
    rw [LazyCalc.broadcastRights]
    exact .pure (Tree.allList_reverse hmade)
  | cons y ys =>
    rw [LazyCalc.broadcastRights]
    refine (broadcastTwo hP hrun depth (a := .scalar x) trivial hys.1).bind ?_
    rintro (e | w) hw
    · exact of_drop ys (of_drop made.reverse (.pure trivial))
    · exact broadcastRights hP hrun depth x hys.2 ⟨hw, hmade⟩
termination_by sizeOf (Tree.scalar x : Value) + sizeOf ys

end

end

theorem run {α : Type} (kernel : α → Outcome) {a : α} (h : (kernel a).Regular) :
    Gives (Item.All P) ((Leaf.kernel kernel : Leaf Snapshot α).run (Drive.alone n) a) := by
  refine .pure ?_
  cases hresult : (kernel a).result with
  | error e => trivial
  | ok t => exact Tree.all_map (fun _ => hP.draft) (h t hresult)

theorem readWith {kernel : Extent → Except Failure Plan}
    (h : ∀ extent plan, kernel extent = .ok plan →
      ∃ start count, plan.reading = .window start count) {c : Collection} (hc : c.All P) :
    Gives (Item.All P) (c.readWith (Drive.alone n) kernel) := by
  unfold Collection.readWith
  cases hplan : kernel c.extent with
  | error e => exact of_drop [c.toValue] (.pure trivial)
  | ok plan =>
    obtain ⟨start, count, hreading⟩ := h c.extent plan hplan
    have hwindow : Gives (Item.All P) (c.perform (Drive.alone n) plan.reading) := by
      rw [hreading]
      cases c with
      | list vs =>
        refine .pure (Tree.allList_iff.mpr fun v hv => Tree.allList_iff.mp hc v ?_)
        exact List.mem_of_mem_drop (List.mem_of_mem_take hv)
      | sequence s => exact .pure (hP.window start count hc)
    change Gives _ (c.perform (Drive.alone n) plan.reading >>= _)
    refine hwindow.bind ?_
    rintro (e | w) hw
    · exact .pure trivial
    · exact .pure hw

section

omit hP

variable {limit : Nat} {read : (depth : Nat) → Collection → Option Item}

mutual

theorem byRows (hread : ∀ depth {c : Collection}, c.All P → Gives (Item.All P) (read depth c))
    (depth : Nat) {v : Value} (hv : v.All P) :
    Gives (Item.All P) (Lone.byRows limit read depth v) := by
  by_cases hlt : limit < depth
  · have hrefused : Lone.byRows limit read depth v = some (.error (.nestingTooDeep limit)) := by
      cases v <;> simp [Lone.byRows, hlt]
    rw [hrefused]
    exact .pure trivial
  · cases v with
    | scalar x =>
      rw [Lone.byRows, if_neg hlt]
      · exact hread depth ⟨hv, trivial⟩
      · exact nofun
    | sequence s =>
      rw [Lone.byRows, if_neg hlt]
      · exact hread depth hv
      · exact nofun
    | list vs =>
      rw [Lone.byRows, if_neg hlt]
      split
      · intro x hx
        obtain ⟨rows, hrows, rfl⟩ := Option.map_eq_some_iff.mp hx
        have hall := ofRows hread (depth + 1) hv rows hrows
        cases rows with
        | error e => trivial
        | ok ws => exact hall ws rfl
      · exact hread depth hv

theorem ofRows (hread : ∀ depth {c : Collection}, c.All P → Gives (Item.All P) (read depth c))
    (depth : Nat) {vs : List Value} (hvs : Tree.AllList P vs) :
    Gives (fun rows => ∀ ws, rows = .ok ws → Tree.AllList P ws)
      (Lone.ofRows limit read depth vs) := by
  cases vs with
  | nil =>
    refine .pure ?_
    rintro _ ⟨⟩
    trivial
  | cons v vs =>
    rw [Lone.ofRows]
    refine (byRows hread depth hvs.1).bind ?_
    rintro (e | w) hw
    · exact .pure nofun
    · intro rows hrows ws hws
      obtain ⟨rest, hrest, rfl⟩ := Option.map_eq_some_iff.mp hrows
      cases rest with
      | error e => cases hws
      | ok us =>
        cases hws
        exact ⟨hw, ofRows hread depth hvs.2 _ hrest us rfl⟩

end

end

theorem call {op : Operator} (h : op.Regular) (name : String) {vs : List Value}
    (hvs : Tree.AllList P vs) : Gives (Item.All P) (op.call (Drive.alone n) name vs) := by
  cases h with
  | oneArg h limit =>
    obtain _ | ⟨a, _ | ⟨b, rest⟩⟩ := vs
    · exact .pure trivial
    · exact hP.broadcastOne _ limit (fun x => hP.run _ (h x)) 0 hvs.1
    · exact .pure trivial
  | @twoArg kernel h limit =>
    obtain _ | ⟨a, _ | ⟨b, _ | ⟨c, rest⟩⟩⟩ := vs
    case cons.cons.nil =>
      have hrun (x y : Scalar) := hP.run (n := n) (Function.uncurry kernel) (a := (x, y)) (h x y)
      exact hP.broadcastTwo _ limit hrun 0 hvs.1 hvs.2.1
    all_goals exact .pure trivial
  | generator h =>
    obtain _ | ⟨a, _ | ⟨b, _ | ⟨c, _ | ⟨d, rest⟩⟩⟩⟩ := vs
    case cons.cons.cons.nil =>
      refine Gives.bind (P := fun _ => True) (fun _ _ => trivial) ?_
      rintro (e | x) -
      · exact .pure trivial
      · refine Gives.bind (P := fun _ => True) (fun _ _ => trivial) ?_
        rintro (e | y) -
        · exact .pure trivial
        · refine Gives.bind (P := fun _ => True) (fun _ _ => trivial) ?_
          rintro (e | z) -
          · exact .pure trivial
          · exact hP.run _ (h x y z)
    all_goals exact .pure trivial
  | @sublist kernel h limit =>
    obtain _ | ⟨c, _ | ⟨a, _ | ⟨b, _ | ⟨d, rest⟩⟩⟩⟩ := vs
    case cons.cons.cons.nil =>
      rw [(Operator.Afresh.two kernel limit c a b).call_eq name n]
      refine byRows (fun depth c hc => ?_) 0 hvs.1
      exact hP.broadcastTwo _ limit (fun x y => hP.readWith (h x y) hc) depth hvs.2.1 hvs.2.2.1
    all_goals exact .pure trivial

theorem work {tool : Tool} {numbers : List Nat} (h : tool.Regular numbers) {vs : List Value}
    (hvs : Tree.AllList P vs) (hlength : vs.length ≤ numbers.length) :
    Gives (fun items => ∀ x ∈ items, Item.All P x) (tool.work (Drive.alone n) vs) := by
  have hback : ∀ x ∈ vs.map Except.ok, Item.All P x :=
    List.forall_mem_map.mpr (Tree.allList_iff.mp hvs)
  have hone {x : Option Item} (hx : Gives (Item.All P) x) :
      Gives (fun items => ∀ x ∈ items, Item.All P x) (Tool.single x) :=
    hx.bind fun y hy => .pure (List.forall_mem_singleton.mpr hy)
  have hvalue {f : Value → Option (List Item)}
      (hf : ∀ v : Value, v.All P → Gives (fun items => ∀ x ∈ items, Item.All P x) (f v)) :
      Gives (fun items => ∀ x ∈ items, Item.All P x) (Tool.onValue f vs) := by
    obtain _ | ⟨v, _ | ⟨w, rest⟩⟩ := vs
    · exact .pure hback
    · exact hf v hvs.1
    · exact .pure hback
  cases h with
  | make h => exact .pure (List.forall_mem_cons.mpr ⟨Tree.all_map (fun _ => hP.draft) h, hback⟩)
  | empty =>
    obtain rfl := List.eq_nil_of_length_eq_zero (Nat.le_zero.mp hlength)
    exact hone (.pure (hP.wrap (v := .list []) trivial))
  | list => exact .pure (List.forall_mem_singleton.mpr hvs)
  | spread =>
    exact hvalue fun v hv => .pure (List.forall_mem_map.mpr (Tree.allList_iff.mp hv.spread))
  | unwrap => exact hvalue fun v hv => .pure (List.forall_mem_singleton.mpr hv.unwrap)
  | wrap => exact hvalue fun v hv => .pure (List.forall_mem_singleton.mpr (hP.wrap hv))
  | mapped mapping => exact hvalue fun v hv => hone (.pure (hP.mapped _ (hP.wrap hv)))
  | filtered test invert =>
    obtain _ | ⟨v, held⟩ := vs
    · exact .pure nofun
    · exact hone (.pure (hP.filtered test held invert (hP.wrap hvs.1)))
  | zipped pairing =>
    obtain _ | ⟨a, _ | ⟨b, _ | ⟨c, rest⟩⟩⟩ := vs
    case cons.cons.nil => exact hone (.pure (hP.zipped _ (hP.wrap hvs.1) (hP.wrap hvs.2.1)))
    all_goals exact .pure hback
  | window start count =>
    exact hvalue fun v hv => hone (.pure (hP.window start count (hP.wrap hv)))
  | call name h => exact hone (hP.call h name hvs)
  | @invoke table name h =>
    refine hone ?_
    rw [Table.invoke]
    cases hentry : table.find? name with
    | none => exact .pure trivial
    | some entry => exact hP.call (h entry hentry) name hvs
  | copy =>
    refine hvalue fun v hv => ?_
    rw [Drive.copy_alone]
    exact .pure (List.forall_mem_cons.mpr ⟨hv, List.forall_mem_singleton.mpr hv⟩)
  | fork =>
    refine hvalue fun v hv => .pure (List.forall_mem_cons.mpr ⟨hP.wrap hv, ?_⟩)
    exact List.forall_mem_singleton.mpr (hP.wrap hv)

end Closed

end Lone

end LazyCalc
