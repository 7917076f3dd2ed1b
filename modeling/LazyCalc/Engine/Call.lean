import LazyCalc.Engine.Broadcast
/-!
Calling operators. An operator on a collection and further arguments broadcasts over the arguments
only, and each call of its kernel reads a copy of the collection; a list of lists is a batch, each
list in it a collection with its own copy of the arguments.
-/

namespace LazyCalc

structure Trailing (m : Type → Type) (ρ κ α : Type) where
  values : α → List (Value ρ κ)
  copy : α → m (α × α)
  spread : (depth : Nat) → Collection (Sequence ρ κ) → α → m (Item ρ κ)

variable {m : Type → Type} [Monad m] {ρ κ : Type} (d : Drive m ρ κ)

mutual

/-- Arguments are dropped last to first, and before the collection. -/
def applyBatch {α : Type} (t : Trailing m ρ κ α) (limit depth : Nat) (args : α) :
    Value ρ κ → m (Item ρ κ)
  | .list items => do
    if limit < depth then d.refuseDepth limit ((t.values args).reverse ++ [.list items])
    else if (Tree.list items).isBatch then
      let (result, args) ← applyBatchItems t limit (depth + 1) args [] items
      d.drop (t.values args).reverse
      pure result
    else t.spread depth (.list items) args
  | v => do
    if limit < depth then d.refuseDepth limit ((t.values args).reverse ++ [v])
    else t.spread depth (.ofValue v) args

def applyBatchItems {α : Type} (t : Trailing m ρ κ α) (limit depth : Nat) (args : α)
    (made : List (Value ρ κ)) : List (Value ρ κ) → m (Item ρ κ × α)
  | [] => pure (.ok (.list made.reverse), args)
  | v :: vs => do
    let (args, own) ← t.copy args
    match ← applyBatch t limit depth own v with
    | .ok w => applyBatchItems t limit depth args (w :: made) vs
    | .error e =>
      d.drop vs
      d.drop made.reverse
      pure (.error e, args)

end

/-- Puts a collection where the calls of a kernel find it, for as long as there is one to come. -/
def Collection.share {α : Type} (plan : α → Extent → Except Failure Plan)
    (c : Collection (Sequence ρ κ)) (use : Leaf κ α → m (Item ρ κ)) : m (Item ρ κ) := do
  let i ← d.keep c
  let leaf := Leaf.reading i plan
  let result ← use leaf
  leaf.dismiss d
  pure result

namespace Trailing

def one (plan : Scalar → Extent → Except Failure Plan) (limit : Nat) :
    Trailing m ρ κ (Value ρ κ) where
  values a := [a]
  copy := d.copy
  spread depth c a := c.share d plan fun leaf => broadcastOne d (leaf.run d) leaf limit depth a

def two (plan : Scalar × Scalar → Extent → Except Failure Plan) (limit : Nat) :
    Trailing m ρ κ (Value ρ κ × Value ρ κ) where
  values args := [args.1, args.2]
  copy args := do
    let (a, a') ← d.copy args.1
    let (b, b') ← d.copy args.2
    pure ((a, b), (a', b'))
  spread depth c args := c.share d plan fun leaf =>
    broadcastTwo d (fun x y => leaf.run d (x, y)) leaf limit depth args.1 args.2

end Trailing

def Value.asScalar (name : String) (v : Value ρ κ) : m (Except Failure Scalar) :=
  match v.unwrap with
  | .scalar s => pure (.ok s)
  | other => do
    d.drop [other]
    pure (.error (.type s!"'{name}' needs scalar arguments, got a {other.typeName}"))

def Outcome.perform (outcome : Outcome) : m (Item ρ κ) :=
  (Leaf.kernel fun _ : Unit => outcome).run d ()

/-- Calls a kernel for three scalars. At a failure the arguments left over are dropped, the last
first. -/
def Operator.generate (name : String) (kernel : Scalar → Scalar → Scalar → Outcome)
    (a b c : Value ρ κ) : m (Item ρ κ) := do
  match ← Value.asScalar d name a with
  | .error e =>
    d.drop [c, b]
    pure (.error e)
  | .ok x =>
    match ← Value.asScalar d name b with
    | .error e =>
      d.drop [c]
      pure (.error e)
    | .ok y =>
      match ← Value.asScalar d name c with
      | .error e => pure (.error e)
      | .ok z => (kernel x y z).perform d

/-- Calls an operator, which goes by `name` in a failure, on its arguments. -/
def Operator.call (name : String) (op : Operator) (args : List (Value ρ κ)) : m (Item ρ κ) := do
  match op, args with
  | .oneArg kernel limit, [a] =>
    let leaf := Leaf.kernel kernel
    broadcastOne d (leaf.run d) leaf limit 0 a
  | .twoArg kernel limit, [a, b] =>
    let leaf := Leaf.kernel fun (x, y) => kernel x y
    broadcastTwo d (fun x y => leaf.run d (x, y)) leaf limit 0 a b
  | .listArg kernel, [a] => (Collection.ofValue a).readWith d kernel
  | .listAndOneArg kernel limit, [collection, a] =>
    applyBatch d (.one d kernel limit) limit 0 a collection
  | .listAndTwoArgs kernel limit, [collection, a, b] =>
    applyBatch d (.two d (fun (x, y) => kernel x y) limit) limit 0 (a, b) collection
  | .generator kernel, [a, b, c] => generate d name kernel a b c
  | op, args =>
    d.drop args
    pure (.error (.argumentCount name op.arity args.length))

def Table.invoke (table : Table) (name : String) (args : List (Value ρ κ)) : m (Item ρ κ) := do
  match table.find? name with
  | some entry => entry.operator.call d name args
  | none =>
    d.drop args
    pure (.error (.undefinedOperator name))

end LazyCalc
