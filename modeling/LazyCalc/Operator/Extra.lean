import LazyCalc.Operator.Builtin
/-!
Further operators, not in the builtin table, that a calculator may register. Those whose names
start with `tap` note their arguments when they run.
-/

namespace LazyCalc.Operator

def noted (scalars : List Scalar) : String :=
  "k:" ++ ",".intercalate (scalars.map Scalar.text)

def strict : Scalar → Except Failure Scalar
  | .integer i => .ok (.integer i)
  | s => .error (.type (s.typeName ++ " given"))

def greater (a b : Scalar) : Except Failure Scalar := do
  match ← a.order b with
  | .lt => pure b
  | .eq | .gt => pure a

def pairOf (a b : Scalar) : Outcome :=
  { result := .ok (.list [.scalar a, .scalar b]) }

def scaled (n : Scalar) (item : Outline) : Except Failure Plain :=
  match item with
  | .scalar s => (s.multiply n).map .scalar
  | item => .error (.type ("cannot scale a " ++ item.typeName))

def strictNthPlan (index : Scalar) (_ : Extent) : Except Failure Plan := do
  pure (.read (.element (← index.position "position")))

def scalePlan (n : Scalar) (_ : Extent) : Except Failure Plan :=
  .ok { reading := .each (scaled n), after := [noted [n]] }

def windowPlan (start stop : Scalar) (_ : Extent) : Except Failure Plan := do
  let first ← start.position "position"
  let last ← stop.position "position"
  pure { before := [noted [start, stop]], reading := .gather first (some (last - first)) }

def extras : List (String × Operator) :=
  [("double", ofUnary fun a => a.add a),
   ("recip", ofUnary fun a => Scalar.divide (.integer 1) a),
   ("strict", ofUnary strict),
   ("twice", .oneArg (fun a => pairOf a a) defaultLimit),
   ("upto", .oneArg (fun a => boundedRange (.integer 1) a (.integer 1)) defaultLimit),
   ("tap1", .oneArg (fun a => { notes := [noted [a]], result := .ok (.scalar a) }) defaultLimit),
   ("max", ofBinary greater),
   ("pair", .twoArg pairOf defaultLimit),
   ("tap2", .twoArg
      (fun a b => { notes := [noted [a, b]], result := (a.add b).map .scalar }) defaultLimit),
   ("length", .listArg fun _ => .ok (.read .tally)),
   ("hint", .listArg fun extent => .ok (.read (.constant (.scalar (.string extent.hint.text))))),
   ("items", .listArg fun _ => .ok (.read (.gather 0 none))),
   ("value", .listArg fun _ => .ok (.read .whole)),
   ("both", .listArg fun _ => .ok (.read .twice)),
   ("nth_strict", .listAndOneArg strictNthPlan defaultLimit),
   ("scale", .listAndOneArg scalePlan defaultLimit),
   ("window", .listAndTwoArgs windowPlan defaultLimit),
   ("triple", .generator fun a b c => { result := .ok (.list [.scalar a, .scalar b, .scalar c]) })]

end LazyCalc.Operator
