import LazyCalc.Proofs.Coupling.Broadcast
namespace LazyCalc

namespace Coupling

variable {m₁ m₂ : Type → Type} [Monad m₁] [Monad m₂] {ρ₁ κ₁ ρ₂ κ₂ σ κ : Type}
  [Paired σ (Sequence ρ₁ κ₁) (Sequence ρ₂ κ₂)] [Paired κ κ₁ κ₂]
  (C : Coupling m₁ m₂ ρ₁ κ₁ ρ₂ κ₂ σ κ)

theorem copy (v : Tree σ) :
    C.Triple (Tree σ × Tree σ) (parts v) (fun n => (C.first n).copy (left v))
      (fun n => (C.second n).copy (right v)) 0 :=
  C.copyWith (f := fun n => (C.first n).fork) (g := fun n => (C.second n).fork) C.fork v

structure Trails {ω ω₁ ω₂ : Type} [Paired ω ω₁ ω₂] [Parted σ κ ω]
    (t₁ : Nat → Trailing m₁ ρ₁ κ₁ ω₁) (t₂ : Nat → Trailing m₂ ρ₂ κ₂ ω₂)
    (values : ω → List (Tree σ)) : Prop where
  left_values : ∀ n a, (t₁ n).values (left a) = left (values a)
  right_values : ∀ n a, (t₂ n).values (right a) = right (values a)
  parts_values : ∀ a, (parts (values a) : Parts σ κ) = parts a
  copy : ∀ a : ω, C.Triple (ω × ω) (parts a) (fun n => (t₁ n).copy (left a))
    (fun n => (t₂ n).copy (right a)) 0
  spread : ∀ (depth : Nat) (c : Collection σ) (a : ω), C.Triple (Except Failure (Tree σ))
    (parts c + parts a) (fun n => (t₁ n).spread depth (left c) (left a))
    (fun n => (t₂ n).spread depth (right c) (right a)) 0

section

variable {ω ω₁ ω₂ : Type} [Paired ω ω₁ ω₂] [Parted σ κ ω]
  {t₁ : Nat → Trailing m₁ ρ₁ κ₁ ω₁} {t₂ : Nat → Trailing m₂ ρ₂ κ₂ ω₂} {values : ω → List (Tree σ)}
  (ht : C.Trails t₁ t₂ values) (limit : Nat)

include ht

theorem dropTrailing (a : ω) :
    C.Triple Unit (parts a) (fun n => (C.first n).drop ((t₁ n).values (left a)).reverse)
      (fun n => (C.second n).drop ((t₂ n).values (right a)).reverse) 0 := by
  simp only [ht.left_values, ht.right_values]
  exact C.of_eq (C.dropReverse (values a)) (ht.parts_values a).symm rfl

theorem refuseTrailing (a : ω) (v : Tree σ) :
    C.Triple (Except Failure (Tree σ)) (parts a + parts v)
      (fun n => (C.first n).refuseDepth limit (((t₁ n).values (left a)).reverse ++ [left v]))
      (fun n => (C.second n).refuseDepth limit (((t₂ n).values (right a)).reverse ++ [right v]))
      0 := by
  have hl : (left (values a)).reverse ++ [left v] = left ((values a).reverse ++ [v]) := by
    simp only [left_list, List.map_append, List.map_reverse, List.map_cons, List.map_nil]
  have hr : (right (values a)).reverse ++ [right v] = right ((values a).reverse ++ [v]) := by
    simp only [right_list, List.map_append, List.map_reverse, List.map_cons, List.map_nil]
  simp only [ht.left_values, ht.right_values, hl, hr]
  exact C.of_eq (C.refuseDepth limit ((values a).reverse ++ [v]))
    (by simp [ht.parts_values]) rfl

mutual

theorem applyBatch (depth : Nat) (a : ω) (v : Tree σ) :
    C.Triple (Except Failure (Tree σ)) (parts a + parts v)
      (fun n => LazyCalc.applyBatch (C.first n) (t₁ n) limit depth (left a) (left v))
      (fun n => LazyCalc.applyBatch (C.second n) (t₂ n) limit depth (right a) (right v)) 0 := by
  cases v with
  | list items =>
    change C.Triple _ _
      (fun n => LazyCalc.applyBatch (C.first n) (t₁ n) limit depth (left a) (.list (left items)))
      (fun n => LazyCalc.applyBatch (C.second n) (t₂ n) limit depth (right a)
        (.list (right items))) _
    simp only [LazyCalc.applyBatch]
    split
    · exact C.refuseTrailing ht limit a (.list items)
    · have hbatch : (Tree.list (left items)).isBatch = (Tree.list items).isBatch ∧
          (Tree.list (right items)).isBatch = (Tree.list items).isBatch := by
        rcases items with _ | ⟨_ | _ | _, items⟩ <;> exact ⟨rfl, rfl⟩
      rw [hbatch.1, hbatch.2]
      split
      · refine C.bind 0 (applyBatchItems (depth + 1) a [] items) (by simp) ?_
        rintro ⟨result, a⟩
        refine C.bind (parts result) (C.dropTrailing ht a) (by simp; abel) fun _ => ?_
        exact C.pure result (by simp)
      · exact C.of_eq (ht.spread depth (.list items) a) (by simp [Collection.toValue]; abel) rfl
  | scalar x =>
    change C.Triple _ _ (fun _ => ite (limit < depth) _ _) (fun _ => ite (limit < depth) _ _) _
    split
    · exact C.refuseTrailing ht limit a (.scalar x)
    · exact C.of_eq (ht.spread depth (.list [.scalar x]) a) (by simp [Collection.toValue]) rfl
  | sequence s =>
    change C.Triple _ _ (fun _ => ite (limit < depth) _ _) (fun _ => ite (limit < depth) _ _) _
    split
    · exact C.refuseTrailing ht limit a (.sequence s)
    · exact C.of_eq (ht.spread depth (.sequence s) a) (by simp [Collection.toValue]; abel) rfl

theorem applyBatchItems (depth : Nat) (a : ω) (made vs : List (Tree σ)) :
    C.Triple (Except Failure (Tree σ) × ω) (parts a + parts made + parts vs)
      (fun n => LazyCalc.applyBatchItems (C.first n) (t₁ n) limit depth (left a) (left made)
        (left vs))
      (fun n => LazyCalc.applyBatchItems (C.second n) (t₂ n) limit depth (right a) (right made)
        (right vs)) 0 := by
  cases vs with
  | nil =>
    change C.Triple _ _
      (fun _ => pure ((.ok (.list (left made).reverse) : Item ρ₁ κ₁), left a))
      (fun _ => pure ((.ok (.list (right made).reverse) : Item ρ₂ κ₂), right a)) _
    simp only [← left_reverse, ← right_reverse]
    exact C.pure ((.ok (.list made.reverse) : Except Failure (Tree σ)), a) (by simp; abel)
  | cons v vs =>
    refine C.bind (parts made + parts v + parts vs) (ht.copy a) (by simp; abel) ?_
    rintro ⟨a, own⟩
    refine C.bind (parts a + parts made + parts vs) (applyBatch depth own v) (by simp; abel) ?_
    rintro (e | w)
    · refine C.bind (parts a + parts made) (C.drop vs) (by simp; abel) fun _ => ?_
      refine C.bind (parts a) (C.dropReverse made) (by simp; abel) fun _ => ?_
      exact C.pure ((.error e : Except Failure (Tree σ)), a) (by simp)
    · exact C.of_eq (applyBatchItems depth a (w :: made) vs) (by simp; abel) rfl

end

end

theorem share {α : Type} (plan : α → Extent → Except Failure Plan) (c : Collection σ)
    {use₁ : Nat → Leaf κ₁ α → m₁ (Item ρ₁ κ₁)} {use₂ : Nat → Leaf κ₂ α → m₂ (Item ρ₂ κ₂)}
    (A : Parts σ κ) (h : ∀ leaf : Leaf κ α, C.Triple (Except Failure (Tree σ)) (A + parts leaf)
      (fun n => use₁ n (left leaf)) (fun n => use₂ n (right leaf)) (parts leaf)) :
    C.Triple (Except Failure (Tree σ)) (parts c + A)
      (fun n => (left c).share (C.first n) plan (use₁ n))
      (fun n => (right c).share (C.second n) plan (use₂ n)) 0 := by
  refine C.bind A (C.keep c) rfl fun k => ?_
  refine C.bind 0 (h (.reading k plan)) (by simp; abel) fun result => ?_
  refine C.bind (parts result) (C.dismissLeaf (Leaf.reading k plan)) (by simp; abel) fun _ => ?_
  exact C.pure result (by simp)

theorem trails_one (plan : Scalar → Extent → Except Failure Plan) (limit : Nat) :
    C.Trails (fun n => Trailing.one (C.first n) plan limit)
      (fun n => Trailing.one (C.second n) plan limit) (fun a : Tree σ => [a]) where
  left_values _ _ := rfl
  right_values _ _ := rfl
  parts_values a := by simp
  copy := C.copy
  spread depth c a := by
    simp only [Trailing.one]
    refine C.share plan c (parts a) fun leaf => ?_
    exact C.broadcastOne (C.run leaf) limit depth a

theorem trails_two (plan : Scalar × Scalar → Extent → Except Failure Plan) (limit : Nat) :
    C.Trails (fun n => Trailing.two (C.first n) plan limit)
      (fun n => Trailing.two (C.second n) plan limit)
      (fun a : Tree σ × Tree σ => [a.1, a.2]) where
  left_values _ _ := rfl
  right_values _ _ := rfl
  parts_values a := by rw [parts_cons, parts_cons, parts_nil, add_zero]; rfl
  copy := by
    rintro ⟨a, b⟩
    refine C.bind (parts b) (C.copy a) (by simp) ?_
    rintro ⟨a, a'⟩
    refine C.bind (parts a + parts a') (C.copy b) (by simp; abel) ?_
    rintro ⟨b, b'⟩
    exact C.pure ((a, b), (a', b')) (by simp; abel)
  spread depth c a := by
    simp only [Trailing.two]
    refine C.share plan c (parts a) fun leaf => ?_
    exact C.broadcastTwo (fun x y => C.run leaf (x, y)) limit depth a.1 a.2

theorem asScalar (name : String) (v : Tree σ) :
    C.Triple (Except Failure Scalar) (parts v) (fun n => Value.asScalar (C.first n) name (left v))
      (fun n => Value.asScalar (C.second n) name (right v)) 0 := by
  have hother (v : Tree σ) : C.Triple (Except Failure Scalar) (parts v)
      (fun n => do
        (C.first n).drop [left v]
        pure (.error (.type s!"'{name}' needs scalar arguments, got a {(left v).typeName}")))
      (fun n => do
        (C.second n).drop [right v]
        pure (.error (.type s!"'{name}' needs scalar arguments, got a {(right v).typeName}")))
      0 := by
    refine C.bind 0 (C.drop [v]) (by simp) fun _ => ?_
    simp only [show (left v).typeName = v.typeName from Tree.typeName_map left v,
      show (right v).typeName = v.typeName from Tree.typeName_map right v]
    exact C.pure (Except.error (.type s!"'{name}' needs scalar arguments, got a {v.typeName}") :
      Except Failure Scalar) (by simp)
  simp only [Value.asScalar, left, right, Tree.unwrap_map]
  rw [← parts_unwrap v]
  cases v.unwrap with
  | scalar x => exact C.pure (Except.ok x : Except Failure Scalar) (by simp)
  | list items => exact hother (.list items)
  | sequence s => exact hother (.sequence s)

theorem performed (outcome : Outcome) :
    C.Triple (Except Failure (Tree σ)) 0 (fun n => outcome.perform (C.first n))
      (fun n => outcome.perform (C.second n)) 0 :=
  C.run (Leaf.kernel fun _ => outcome : Leaf κ Unit) ()

theorem generate (name : String) (kernel : Scalar → Scalar → Scalar → Outcome) (a b c : Tree σ) :
    C.Triple (Except Failure (Tree σ)) (parts a + parts b + parts c)
      (fun n => Operator.generate (C.first n) name kernel (left a) (left b) (left c))
      (fun n => Operator.generate (C.second n) name kernel (right a) (right b) (right c)) 0 := by
  refine C.bind (parts b + parts c) (C.asScalar name a) (by abel) ?_
  rintro (e | x)
  · refine C.bind 0 (C.drop [c, b]) (by simp; abel) fun _ => ?_
    exact C.of_eq (C.refuse e) (by simp) rfl
  refine C.bind (parts c) (C.asScalar name b) (by simp) ?_
  rintro (e | y)
  · refine C.bind 0 (C.drop [c]) (by simp) fun _ => ?_
    exact C.of_eq (C.refuse e) (by simp) rfl
  refine C.bind 0 (C.asScalar name c) (by simp) ?_
  rintro (e | z)
  · exact C.of_eq (C.refuse e) (by simp) rfl
  · exact C.of_eq (C.performed (kernel x y z)) (by simp) rfl

theorem refuseCount (name : String) (expected : Nat) (args : List (Tree σ)) :
    C.Triple (Except Failure (Tree σ)) (parts args)
      (fun n => do
        (C.first n).drop (left args)
        pure (.error (.argumentCount name expected (left args).length)))
      (fun n => do
        (C.second n).drop (right args)
        pure (.error (.argumentCount name expected (right args).length))) 0 := by
  refine C.bind 0 (C.drop args) (by simp) fun _ => ?_
  rw [left_list, right_list, List.length_map, List.length_map]
  exact C.of_eq (C.refuse _) (by simp) rfl

theorem call (name : String) (op : Operator) (args : List (Tree σ)) :
    C.Triple (Except Failure (Tree σ)) (parts args)
      (fun n => op.call (C.first n) name (left args))
      (fun n => op.call (C.second n) name (right args)) 0 := by
  cases op with
  | oneArg kernel limit =>
    obtain _ | ⟨a, _ | ⟨b, rest⟩⟩ := args
    · exact C.refuseCount name _ []
    · exact C.of_eq (C.broadcastOne (C.run (Leaf.kernel kernel : Leaf κ Scalar)) limit 0 a)
        (by simp) (by simp)
    · exact C.refuseCount name _ (a :: b :: rest)
  | twoArg kernel limit =>
    obtain _ | ⟨a, _ | ⟨b, _ | ⟨c, rest⟩⟩⟩ := args
    · exact C.refuseCount name _ []
    · exact C.refuseCount name _ [a]
    · exact C.of_eq (C.broadcastTwo (fun x y => C.run (Leaf.kernel (Function.uncurry kernel) :
        Leaf κ (Scalar × Scalar)) (x, y)) limit 0 a b) (by simp) (by simp)
    · exact C.refuseCount name _ (a :: b :: c :: rest)
  | listArg kernel =>
    obtain _ | ⟨a, _ | ⟨b, rest⟩⟩ := args
    · exact C.refuseCount name _ []
    · have hvalue : (parts (Collection.ofValue a) : Parts σ κ) = parts a := by
        cases a <;> simp [Collection.ofValue, Collection.toValue]
      have hread := C.readWith kernel (.ofValue a)
      rw [hvalue] at hread
      cases a <;> exact C.of_eq hread (by simp) rfl
    · exact C.refuseCount name _ (a :: b :: rest)
  | listAndOneArg kernel limit =>
    obtain _ | ⟨c, _ | ⟨a, _ | ⟨b, rest⟩⟩⟩ := args
    · exact C.refuseCount name _ []
    · exact C.refuseCount name _ [c]
    · exact C.of_eq (C.applyBatch (C.trails_one kernel limit) limit 0 a c) (by simp; abel) rfl
    · exact C.refuseCount name _ (c :: a :: b :: rest)
  | listAndTwoArgs kernel limit =>
    obtain _ | ⟨c, _ | ⟨a, _ | ⟨b, _ | ⟨d, rest⟩⟩⟩⟩ := args
    · exact C.refuseCount name _ []
    · exact C.refuseCount name _ [c]
    · exact C.refuseCount name _ [c, a]
    · exact C.of_eq (C.applyBatch (C.trails_two (Function.uncurry kernel) limit) limit 0 (a, b) c)
        (by simp; abel) rfl
    · exact C.refuseCount name _ (c :: a :: b :: d :: rest)
  | generator kernel =>
    obtain _ | ⟨a, _ | ⟨b, _ | ⟨c, _ | ⟨d, rest⟩⟩⟩⟩ := args
    · exact C.refuseCount name _ []
    · exact C.refuseCount name _ [a]
    · exact C.refuseCount name _ [a, b]
    · exact C.of_eq (C.generate name kernel a b c) (by simp; abel) rfl
    · exact C.refuseCount name _ (a :: b :: c :: d :: rest)

theorem invoke (table : Table) (name : String) (args : List (Tree σ)) :
    C.Triple (Except Failure (Tree σ)) (parts args)
      (fun n => table.invoke (C.first n) name (left args))
      (fun n => table.invoke (C.second n) name (right args)) 0 := by
  unfold Table.invoke
  cases table.find? name with
  | some entry => exact C.call name entry.operator args
  | none =>
    refine C.bind 0 (C.drop args) (by simp) fun _ => ?_
    exact C.of_eq (C.refuse _) (by simp) rfl

theorem applyMapping (mapping : Mapping κ) (v : Tree σ) :
    C.Triple (Except Failure (Tree σ)) (parts v + parts mapping)
      (fun n => (left mapping).apply (C.first n) (left v))
      (fun n => (right mapping).apply (C.second n) (right v)) (parts mapping) := by
  cases mapping with
  | broadcast leaf limit depth => exact C.broadcastOne (C.run leaf) limit depth v
  | against fixed side leaf limit depth =>
    cases side with
    | left =>
      exact C.of_eq (C.broadcastTwo (fun x y => C.run leaf (x, y)) limit depth (.scalar fixed) v)
        (by rw [parts_scalar, zero_add]; rfl) rfl
    | right =>
      exact C.of_eq (C.broadcastTwo (fun x y => C.run leaf (x, y)) limit depth v (.scalar fixed))
        (by rw [parts_scalar, add_zero]; rfl) rfl
  | note text =>
    refine C.of_eq (C.outlined (A := 0) v fun hv => ?_) rfl rfl
    change C.Triple _ _
      (fun n => do
        (C.first n).note [text (Value.outline (left v))]
        pure (.ok (left v) : Item ρ₁ κ₁))
      (fun n => do
        (C.second n).note [text (Value.outline (right v))]
        pure (.ok (right v) : Item ρ₂ κ₂)) _
    rw [hv]
    refine C.bind (parts v) (C.note [text (Value.outline (right v))]) (by simp) fun _ => ?_
    exact C.pure (Except.ok v : Except Failure (Tree σ)) (by simp)
  | invoke table name extra =>
    have hargs {τ : Type} (f : σ → τ) : v.map f :: extra.map .scalar =
        Tree.mapList f (v :: extra.map .scalar) := by
      rw [Tree.mapList, Tree.mapList_eq_map, List.map_map]
      rfl
    change C.Triple _ _
      (fun n => table.invoke (C.first n) name (v.map left :: extra.map .scalar))
      (fun n => table.invoke (C.second n) name (v.map right :: extra.map .scalar)) _
    rw [hargs, hargs]
    exact C.of_eq (C.invoke table name (v :: extra.map .scalar)) (by simp) rfl
  | enlist => exact C.pure (Except.ok (Tree.list [v]) : Except Failure (Tree σ)) (by simp)
  | stream =>
    refine C.of_eq (C.wrapped (A := 0) v fun s hl hr => ?_) rfl rfl
    have hs : C.Triple (Except Failure (Tree σ)) (parts s) (fun _ => pure (.ok (.sequence (left s))))
        (fun _ => pure (.ok (.sequence (right s)))) 0 :=
      C.pure (Except.ok (Tree.sequence s) : Except Failure (Tree σ)) (by simp)
    rw [hl, hr] at hs
    exact C.of_eq hs (by simp) rfl

theorem applyPairing (pairing : Pairing κ) (a b : Tree σ) :
    C.Triple (Except Failure (Tree σ)) (parts a + parts b + parts pairing)
      (fun n => (left pairing).apply (C.first n) (left a) (left b))
      (fun n => (right pairing).apply (C.second n) (right a) (right b)) (parts pairing) := by
  cases pairing with
  | broadcast leaf limit depth =>
    exact C.broadcastTwo (fun x y => C.run leaf (x, y)) limit depth a b
  | invoke table name => exact C.of_eq (C.invoke table name [a, b]) (by simp) rfl
  | enlist => exact C.pure (Except.ok (Tree.list [a, b]) : Except Failure (Tree σ)) (by simp)

theorem filterStep (test : Outline → Except Failure Bool) (invert : Bool) (state : Unit)
    (x : Except Failure (Tree σ)) :
    C.Triple (Flow Unit (Except Failure (Tree σ))) (parts state + parts x + 0)
      (fun n => LazyCalc.filterStep (C.first n) test invert (left x))
      (fun n => LazyCalc.filterStep (C.second n) test invert (right x)) 0 := by
  cases x with
  | error e => exact C.pure (Flow.halt (.error e) : Flow Unit (Except Failure (Tree σ))) (by simp)
  | ok v =>
    refine C.of_eq (C.outlined (A := 0) v fun hv => ?_) (by simp) rfl
    change C.Triple _ _ (fun n => LazyCalc.filterStep (C.first n) test invert (.ok (left v)))
      (fun n => LazyCalc.filterStep (C.second n) test invert (.ok (right v))) _
    simp only [LazyCalc.filterStep, hv]
    cases test (Value.outline (right v)) with
    | error e =>
      refine C.bind 0 (C.drop [v]) (by simp) fun _ => ?_
      exact C.pure (Flow.halt (.error e) : Flow Unit (Except Failure (Tree σ))) (by simp)
    | ok kept =>
      change C.Triple _ _ (fun _ => ite _ _ _) (fun _ => ite _ _ _) _
      split
      · exact C.pure (Flow.halt (.ok v) : Flow Unit (Except Failure (Tree σ))) (by simp)
      · refine C.bind 0 (C.drop [v]) (by simp) fun _ => ?_
        exact C.pure (Flow.onward () : Flow Unit (Except Failure (Tree σ))) (by simp)

theorem stepGenerated (g : Generator) :
    C.Triple (Option (Except Failure (Tree σ)) × Source σ κ) (parts (.generated g : Source σ κ))
      (fun n => (left (.generated g : Source σ κ)).step (C.first n))
      (fun n => (right (.generated g : Source σ κ)).step (C.second n)) 0 := by
  change C.Triple _ _
    (fun _ => pure ((g.next.1.map (·.map Tree.ofPlain) : Option (Item ρ₁ κ₁)),
      (.generated g.next.2 : Source (Sequence ρ₁ κ₁) κ₁)))
    (fun _ => pure ((g.next.1.map (·.map Tree.ofPlain) : Option (Item ρ₂ κ₂)),
      (.generated g.next.2 : Source (Sequence ρ₂ κ₂) κ₂))) _
  rcases g.next with ⟨_ | e | t, g⟩
  · exact C.pure ((none : Option (Except Failure (Tree σ))), (Source.generated g : Source σ κ))
      (by simp)
  · exact C.pure (some (.error e : Except Failure (Tree σ)), (Source.generated g : Source σ κ))
      (by simp)
  · have hplain := C.pure (A := 0) (B := 0)
      (some (.ok (.ofPlain t) : Except Failure (Tree σ)), (Source.generated g : Source σ κ))
      (by simp)
    simp only [left, right, Option.map, Except.map, Tree.map_ofPlain] at hplain
    exact hplain

theorem stepZipped (inner other : σ) (pairing : Pairing κ) :
    C.Triple (Option (Except Failure (Tree σ)) × Source σ κ)
      (parts (.zipped inner other pairing : Source σ κ))
      (fun n => (left (.zipped inner other pairing : Source σ κ)).step (C.first n))
      (fun n => (right (.zipped inner other pairing : Source σ κ)).step (C.second n)) 0 := by
  refine C.bind (parts other + parts pairing) (C.pull inner) (by simp; abel) ?_
  rintro ⟨_ | e | a, inner⟩
  · exact C.pure ((none : Option (Except Failure (Tree σ))), Source.zipped inner other pairing)
      (by simp; abel)
  · exact C.pure (some (.error e : Except Failure (Tree σ)), Source.zipped inner other pairing)
      (by simp; abel)
  refine C.bind (parts a + parts inner + parts pairing) (C.pull other) (by simp; abel) ?_
  rintro ⟨_ | e | b, other⟩
  · refine C.bind (parts inner + parts other + parts pairing) (C.drop [a]) (by simp; abel)
      fun _ => ?_
    exact C.pure ((none : Option (Except Failure (Tree σ))), Source.zipped inner other pairing)
      (by simp)
  · refine C.bind (parts inner + parts other + parts pairing) (C.drop [a]) (by simp; abel)
      fun _ => ?_
    exact C.pure (some (.error e : Except Failure (Tree σ)), Source.zipped inner other pairing)
      (by simp)
  · refine C.bind (parts inner + parts other) (C.applyPairing pairing a b) (by simp; abel)
      fun x => ?_
    exact C.pure (some x, Source.zipped inner other pairing) (by simp; abel)

theorem step (source : Source σ κ) :
    C.Triple (Option (Except Failure (Tree σ)) × Source σ κ) (parts source)
      (fun n => (left source).step (C.first n)) (fun n => (right source).step (C.second n)) 0 := by
  cases source with
  | generated g => exact C.stepGenerated g
  | items remaining =>
    cases remaining with
    | nil => exact C.pure ((none : Option (Except Failure (Tree σ))), (.items [] : Source σ κ)) (by simp)
    | cons x remaining => exact C.pure (some x, (.items remaining : Source σ κ)) (by simp)
  | mapped inner mapping =>
    refine C.bind (parts mapping) (C.pull inner) (by simp) ?_
    rintro ⟨_ | e | v, inner⟩
    · exact C.pure ((none : Option (Except Failure (Tree σ))), Source.mapped inner mapping) (by simp)
    · exact C.pure (some (.error e : Except Failure (Tree σ)), Source.mapped inner mapping) (by simp)
    · refine C.bind (parts inner) (C.applyMapping mapping v) (by simp; abel) fun x => ?_
      exact C.pure (some x, Source.mapped inner mapping) (by simp; abel)
  | filtered inner test held invert =>
    refine C.bind (parts held) (C.walk 0 (C.filterStep test invert) () inner) (by simp) ?_
    rintro ⟨_ | x, inner⟩
    · exact C.pure ((none : Option (Except Failure (Tree σ))),
        (Source.filtered inner test held invert : Source σ κ)) (by simp)
    · exact C.pure (some x, (Source.filtered inner test held invert : Source σ κ)) (by simp; abel)
  | zipped inner other pairing => exact C.stepZipped inner other pairing
  | window inner skip take =>
    cases take with
    | zero =>
      exact C.pure ((none : Option (Except Failure (Tree σ))), (Source.window inner skip 0 : Source σ κ))
        (by simp)
    | succ take =>
      refine C.bind 0 (C.discard skip 0 inner) (by simp) ?_
      rintro ⟨came, inner⟩
      refine C.bind 0 (C.pull inner) (by simp) ?_
      rintro ⟨x, inner⟩
      exact C.pure (x, (Source.window inner 0 take : Source σ κ)) (by simp)

end Coupling

end LazyCalc
