import LazyCalc.Proofs.Layers.Pulling
/-!
Calls of operators on arguments that are alike but for layers. An operator takes the layers off an
argument before it does anything else with it, also when it waits beside a collection; the
collection itself keeps its layers.
-/

namespace LazyCalc

open Filter Told

/-- Arguments that are alike but for layers wherever `op` broadcasts over them or takes them for
scalars, and a collection that is wholly alike. -/
inductive Operator.Layered : Operator → List Lone.Value → List Lone.Value → Prop
  | oneArg (kernel : Scalar → Outcome) (limit : Nat) {a a' : Lone.Value}
    (ha : Lone.Value.Alike Tree.strip a a') : Layered (.oneArg kernel limit) [a] [a']
  | twoArg (kernel : Scalar → Scalar → Outcome) (limit : Nat) {a b a' b' : Lone.Value}
    (ha : Lone.Value.Alike Tree.strip a a') (hb : Lone.Value.Alike Tree.strip b b') :
    Layered (.twoArg kernel limit) [a, b] [a', b']
  | listAndOneArg (plan : Scalar → Extent → Except Failure Plan) (limit : Nat)
    {c a c' a' : Lone.Value} (hc : Lone.Value.Alike id c c')
    (ha : Lone.Value.Alike Tree.strip a a') :
    Layered (.listAndOneArg plan limit) [c, a] [c', a']
  | listAndTwoArgs (plan : Scalar → Scalar → Extent → Except Failure Plan) (limit : Nat)
    {c a b c' a' b' : Lone.Value} (hc : Lone.Value.Alike id c c')
    (ha : Lone.Value.Alike Tree.strip a a') (hb : Lone.Value.Alike Tree.strip b b') :
    Layered (.listAndTwoArgs plan limit) [c, a, b] [c', a', b']
  | generator (kernel : Scalar → Scalar → Scalar → Outcome) {a b c a' b' c' : Lone.Value}
    (ha : Lone.Value.Alike Tree.strip a a') (hb : Lone.Value.Alike Tree.strip b b')
    (hc : Lone.Value.Alike Tree.strip c c') :
    Layered (.generator kernel) [a, b, c] [a', b', c']

def Trailing.holding {m : Type → Type} {ρ κ α : Type} (t : Trailing m ρ κ α) : Trailing m ρ κ α :=
  { t with values := fun _ => [] }

mutual

theorem applyBatch_holding {α : Type} (t : Trailing Told Empty Snapshot α) (n limit depth : Nat)
    (args : α) (v : Lone.Value) :
    applyBatch (Drive.told n) t.holding limit depth args v =
      applyBatch (Drive.told n) t limit depth args v := by
  cases v with
  | scalar x => rfl
  | sequence s => rfl
  | list items =>
    rw [applyBatch, applyBatch, applyBatchItems_holding t n limit (depth + 1) args [] items]
    rfl

theorem applyBatchItems_holding {α : Type} (t : Trailing Told Empty Snapshot α)
    (n limit depth : Nat) (args : α) (made vs : List Lone.Value) :
    applyBatchItems (Drive.told n) t.holding limit depth args made vs =
      applyBatchItems (Drive.told n) t limit depth args made vs := by
  cases vs with
  | nil => rfl
  | cons v vs =>
    simp only [applyBatchItems, applyBatch_holding t n limit depth _ v,
      applyBatchItems_holding t n limit depth]
    rfl

end

namespace Pairs

/-- An argument and the same argument but for layers. -/
structure Loose (R : Lone.Sequence → Lone.Sequence → Prop) where
  first : Lone.Value
  second : Lone.Value
  alike : Tree.Rel R first.strip second.strip

section

variable {E R : Lone.Sequence → Lone.Sequence → Prop} {n : Nat}

instance : Paired (Loose R) Lone.Value Lone.Value := ⟨Loose.first, Loose.second⟩

instance : Parted Sequence Cell (Loose R) := ⟨fun _ => 0⟩

theorem Drive.copy_told (m : Nat) (v : Lone.Value) : (Drive.told m).copy v = pure (v, v) :=
  Tree.copyWith_twice (fun _ => rfl) v

namespace Known

abbrev coupling (K : Known E R n) :
    Coupling Told Told Empty Snapshot Empty Snapshot Sequence Cell :=
  matching n K.hint K.pull

theorem trails_one (K : Known E R n) (plan : Scalar → Extent → Except Failure Plan)
    (limit : Nat) :
    K.coupling.Trails (fun m => (Trailing.one (Drive.told m) plan limit).holding)
      (fun m => (Trailing.one (Drive.told m) plan limit).holding) (fun _ : Loose R => []) where
  left_values _ _ := rfl
  right_values _ _ := rfl
  parts_values _ := rfl
  copy a := by
    simp only [Trailing.holding, Trailing.one, Drive.copy_told]
    exact K.coupling.pure ((a, a) : Loose R × Loose R) rfl
  spread depth c a := by
    simp only [Trailing.holding, Trailing.one]
    refine K.coupling.share plan c (parts a) fun leaf hleaf => ?_
    exact K.broadcastOne (fits_add.mp hleaf).2 limit depth a.first a.second a.alike

theorem trails_two (K : Known E R n) (plan : Scalar × Scalar → Extent → Except Failure Plan)
    (limit : Nat) :
    K.coupling.Trails (fun m => (Trailing.two (Drive.told m) plan limit).holding)
      (fun m => (Trailing.two (Drive.told m) plan limit).holding)
      (fun _ : Loose R × Loose R => []) where
  left_values _ _ := rfl
  right_values _ _ := rfl
  parts_values _ := rfl
  copy a := by
    simp only [Trailing.holding, Trailing.two, Drive.copy_told]
    exact K.coupling.pure ((a, a) : (Loose R × Loose R) × Loose R × Loose R) rfl
  spread depth c a := by
    simp only [Trailing.holding, Trailing.two]
    refine K.coupling.share plan c (parts a) fun leaf hleaf => ?_
    exact K.broadcastTwo (fits_add.mp hleaf).2 limit depth a.1.first a.2.first a.1.second
      a.2.second a.1.alike a.2.alike

theorem asScalar (_K : Known E R n) (name : String) {v w : Lone.Value}
    (h : Tree.Rel R v.strip w.strip) :
    Abreast n (fun m => Value.asScalar (Drive.told m) name v)
      (fun m => Value.asScalar (Drive.told m) name w) Eq := by
  obtain ⟨x, hv, hw⟩ | ⟨vs, ws, hv, hw, -⟩ | ⟨s, t, hv, hw, -⟩ := h.unwrapped <;>
    simp only [Value.asScalar, hv, hw]
  all_goals exact .pure rfl

theorem generate (K : Known E R n) (name : String)
    (kernel : Scalar → Scalar → Scalar → Outcome) {a b c a' b' c' : Lone.Value}
    (ha : Tree.Rel R a.strip a'.strip) (hb : Tree.Rel R b.strip b'.strip)
    (hc : Tree.Rel R c.strip c'.strip) :
    Abreast n (fun m => Operator.generate (Drive.told m) name kernel a b c)
      (fun m => Operator.generate (Drive.told m) name kernel a' b' c') (Result E R 0) := by
  have hfailure (e : Failure) : Abreast n (fun _ => (pure (.error e) : Told Lone.Item))
      (fun _ => (pure (.error e) : Told Lone.Item)) (Result E R 0) := .pure (.failure fits_zero e)
  refine (K.asScalar name ha).bind ?_
  rintro (e | x) _ rfl
  · exact hfailure e
  refine (K.asScalar name hb).bind ?_
  rintro (e | y) _ rfl
  · exact hfailure e
  refine (K.asScalar name hc).bind ?_
  rintro (e | z) _ rfl
  · exact hfailure e
  · exact K.coupling.performed (kernel x y z) fits_zero

end Known

theorem abreast_call {op : Operator} {vs ws : List Lone.Value} (h : op.Layered vs ws)
    (name : String) (n : Nat) :
    Abreast n (fun m => op.call (Drive.told m) name vs) (fun m => op.call (Drive.told m) name ws)
      (Result (Lone.Sequence.Alike id) (Lone.Sequence.Alike Tree.strip) 0) := by
  have K := known n
  cases h with
  | oneArg kernel limit ha =>
    exact K.broadcastOne
      (show Fits _ _ (parts (Leaf.kernel kernel : Leaf Cell Scalar)) from fits_zero) limit 0 _ _ ha
  | twoArg kernel limit ha hb =>
    let leaf : Leaf Cell (Scalar × Scalar) := .kernel fun p => kernel p.1 p.2
    exact K.broadcastTwo (show Fits _ _ (parts leaf) from fits_zero) limit 0 _ _ _ _ ha hb
  | @listAndOneArg plan limit c a c' a' hc ha =>
    obtain ⟨C, rfl, rfl, hC⟩ := exists_tree (R := Lone.Sequence.Alike id) hc
    have hcall : Abreast n
        (fun m => applyBatch (Drive.told m) (Trailing.one (Drive.told m) plan limit).holding limit 0
          a (left C))
        (fun m => applyBatch (Drive.told m) (Trailing.one (Drive.told m) plan limit).holding limit 0
          a' (right C))
        (Result (Lone.Sequence.Alike id) (Lone.Sequence.Alike Tree.strip) 0) :=
      K.coupling.applyBatch (K.trails_one plan limit) limit 0 ⟨_, _, ha⟩ C
        (fits_add.mpr ⟨fits_zero, fits_known hC⟩)
    simp only [applyBatch_holding] at hcall
    exact hcall
  | @listAndTwoArgs plan limit c a b c' a' b' hc ha hb =>
    obtain ⟨C, rfl, rfl, hC⟩ := exists_tree (R := Lone.Sequence.Alike id) hc
    have hcall : Abreast n
        (fun m => applyBatch (Drive.told m)
          (Trailing.two (Drive.told m) (fun p => plan p.1 p.2) limit).holding limit 0 (a, b) (left C))
        (fun m => applyBatch (Drive.told m)
          (Trailing.two (Drive.told m) (fun p => plan p.1 p.2) limit).holding limit 0 (a', b')
          (right C))
        (Result (Lone.Sequence.Alike id) (Lone.Sequence.Alike Tree.strip) 0) :=
      K.coupling.applyBatch (K.trails_two (fun p => plan p.1 p.2) limit) limit 0
        (⟨_, _, ha⟩, ⟨_, _, hb⟩) C (fits_add.mpr ⟨fits_zero, fits_known hC⟩)
    simp only [applyBatch_holding] at hcall
    exact hcall
  | generator kernel ha hb hc => exact K.generate name kernel ha hb hc

end

end Pairs

end LazyCalc
