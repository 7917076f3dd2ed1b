import LazyCalc.Engine.Pull
/-!
Reports: what is written of a value. Writing a value uses it up, and pulls its sequences as far as a
limit goes; describing it pulls nothing.
-/

namespace LazyCalc

inductive Ending where
  | finished
  | limited
  | failed (failure : Failure)

inductive Report where
  | scalar (value : Scalar)
  | list (items : List Report)
  | sequence (hint : Hint) (items : List Report) (ending : Ending)

structure Description where
  typeName : String
  text : String
  hint : Option Hint

namespace Value

def describe (v : Linked.Value) : Description where
  typeName := v.typeName
  text := (outline v).text
  hint := match v with
    | .sequence s => some s.hint
    | .scalar _ | .list _ => none

end Value

namespace Sequence

def reportElements (d : Linked.Drive) (write : Linked.Value → Engine Report) :
    (n : Nat) → (written : List Report) → Linked.Sequence →
      Engine (List Report × Ending × Linked.Sequence)
  | 0, written, s => pure (written.reverse, .limited, s)
  | n + 1, written, s => do
    match ← d.pull s with
    | (none, s) => pure (written.reverse, .finished, s)
    | (some (.error e), s) => pure (written.reverse, .failed e, s)
    | (some (.ok v), s) =>
      let report ← write v
      reportElements d write n (report :: written) s

end Sequence

def Value.report (d : Linked.Drive) (limit : Nat) : (fuel : Nat) → Linked.Value → Engine Report
  | 0, _ => Engine.fault .outOfFuel
  | _ + 1, .scalar s => pure (.scalar s)
  | fuel + 1, .list items => do
    let reports ← items.mapM (report d limit fuel)
    pure (.list reports)
  | fuel + 1, .sequence s => do
    let (items, ending, s) ← s.reportElements d (report d limit fuel) limit []
    let hint := s.hint
    d.dropSequence s
    pure (.sequence hint items ending)

end LazyCalc
