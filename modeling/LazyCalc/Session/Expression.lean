import LazyCalc.Engine.Pull
import LazyCalc.Operator.Extra
/-!
Expressions for values, over registers that hold values. A value can be moved out of its register,
which is empty from then on, or copied.
-/

namespace LazyCalc

mutual

inductive Expression where
  | scalar (value : Scalar)
  | list (items : List Expression)
  | moved (register : String)
  | copied (register : String)
  /-- Puts `depth` lists around a value, each with `pad` for a second element if there is one. -/
  | nest (value : Expression) (depth : Nat) (pad : Option Expression)
  | replicate (value : Scalar) (count : Nat)
  | draft (draft : Except Failure Draft)
  | wrap (value : Expression)
  | elements (items : List Element) (hint : Hint)
  | onClose (value : Expression) (label : String)
  | mapped (value : Expression) (mapping : Mapping Nat)
  | filtered (value : Expression) (test : Test) (invert : Bool)
  | zipped (left right : Expression) (pairing : Pairing Nat)

inductive Element where
  | value (value : Expression)
  | failure (failure : Failure)

inductive Test where
  | equals (value : Expression)
  | lessThan (bound : Scalar)
  | numeric

end

def belowTest (bound : Scalar) (v : Outline) : Except Failure Bool :=
  match v with
  | .scalar s => (s.order bound).map (· == .lt)
  | v => .error (.type ("cannot test a " ++ v.typeName))

def numericTest (v : Outline) : Except Failure Bool :=
  match v with
  | .scalar s => .ok s.isNumeric
  | .list _ | .sequence _ => .ok false

abbrev Registers := List (String × Linked.Value)

structure Session where
  registers : Registers
  table : Table

abbrev Calculation := StateT Session Engine

namespace Registers

def take (name : String) (rs : Registers) : Option Linked.Value × Registers :=
  (rs.lookup name, rs.filter fun r => r.1 != name)

def put (name : String) (v : Linked.Value) (rs : Registers) : Registers :=
  (name, v) :: rs.filter fun r => r.1 != name

end Registers

namespace Calculation

def moveOut (name : String) : Calculation Linked.Value := fun ⟨registers, table⟩ =>
  match registers.take name with
  | (some v, registers) => pure (v, ⟨registers, table⟩)
  | (none, _) => Engine.fault .dangling

/-- Stores a value and then drops what was in its register. -/
def store (name : String) (v : Linked.Value) : Calculation Unit := fun ⟨registers, table⟩ => do
  let (old, registers) := registers.take name
  Engine.dropValues old.toList
  pure ((), ⟨registers.put name v, table⟩)

def copyOut (d : Linked.Drive) (name : String) : Calculation Linked.Value := do
  let v ← moveOut name
  let (v, w) ← d.copy v
  store name v
  pure w

end Calculation

namespace Expression

def asSequence (result : Linked.Item) (make : Linked.Sequence → Linked.Sequence) :
    Linked.Item :=
  result.map fun v => .sequence (make (.wrap v))

def nested : (depth : Nat) → Linked.Value → Linked.Value
  | 0, v => v
  | depth + 1, v => nested depth (.list [v])

/-- Lists around a value, with a fresh pad for each. -/
def padded (pad : Calculation Linked.Item) : (depth : Nat) → Linked.Value → Calculation Linked.Item
  | 0, v => pure (.ok v)
  | depth + 1, v => do
    match ← pad with
    | .ok w => padded pad depth (.list [v, w])
    | .error e =>
      Engine.dropValues [v]
      pure (.error e)

mutual

/-- Parts are evaluated from left to right; a failure drops those that were evaluated before. -/
def eval (d : Linked.Drive) : Expression → Calculation Linked.Item
  | .scalar s => pure (.ok (.scalar s))
  | .list items => do pure ((← evalList d items []).map .list)
  | .moved name => do pure (.ok (← Calculation.moveOut name))
  | .copied name => do pure (.ok (← Calculation.copyOut d name))
  | .nest value depth pad => do
    match ← eval d value with
    | .error e => pure (.error e)
    | .ok v =>
      match pad with
      | none => pure (.ok (nested depth v))
      | some pad => padded (eval d pad) depth v
  | .replicate s count => pure (.ok (.list (List.replicate count (.scalar s))))
  | .draft result => pure (result.map fun draft => .sequence (.ofDraft draft))
  | .wrap value => do pure (asSequence (← eval d value) id)
  | .elements items hint => do
    pure ((← evalElements d items []).map fun items => .sequence (.ofItems items hint))
  | .onClose value label => do pure (asSequence (← eval d value) (·.onClose label))
  | .mapped value mapping => do pure (asSequence (← eval d value) (·.mapped mapping))
  | .filtered value test invert => do
    match ← eval d value with
    | .error e => pure (.error e)
    | .ok v =>
      match ← evalTest d test with
      | .error e =>
        Engine.dropValues [v]
        pure (.error e)
      | .ok (test, held) =>
        pure (.ok (.sequence ((Sequence.wrap v).filtered test held invert)))
  | .zipped left right pairing => do
    match ← eval d left with
    | .error e => pure (.error e)
    | .ok a =>
      match ← eval d right with
      | .error e =>
        Engine.dropValues [a]
        pure (.error e)
      | .ok b => pure (.ok (.sequence ((Sequence.wrap a).zipped (.wrap b) pairing)))

def evalList (d : Linked.Drive) :
    List Expression → (made : List Linked.Value) → Calculation (Except Failure (List Linked.Value))
  | [], made => pure (.ok made.reverse)
  | e :: es, made => do
    match ← eval d e with
    | .ok v => evalList d es (v :: made)
    | .error e =>
      Engine.dropValues made.reverse
      pure (.error e)

def evalElements (d : Linked.Drive) :
    List Element → (made : List Linked.Item) → Calculation (Except Failure (List Linked.Item))
  | [], made => pure (.ok made.reverse)
  | .failure e :: es, made => evalElements d es (.error e :: made)
  | .value e :: es, made => do
    match ← eval d e with
    | .ok v => evalElements d es (.ok v :: made)
    | .error e =>
      Engine.drop (Debris.ofItems made.reverse)
      pure (.error e)

def evalTest (d : Linked.Drive) :
    Test → Calculation (Except Failure ((Outline → Except Failure Bool) × List Linked.Value))
  | .equals value => do
    match ← eval d value with
    | .ok v =>
      let bound := Value.outline v
      pure (.ok (fun w => .ok (w.same bound), [v]))
    | .error e => pure (.error e)
  | .lessThan bound => pure (.ok (belowTest bound, []))
  | .numeric => pure (.ok (numericTest, []))

end

end Expression

end LazyCalc
