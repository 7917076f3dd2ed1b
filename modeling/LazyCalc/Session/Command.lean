import LazyCalc.Session.Expression
import LazyCalc.Session.Report
/-!
Commands to a calculator session, and what it replies to each. Every command names the registers it
works on; a register that a sequence is asked of, and that holds another value, holds that value's
sequence from then on.
-/

namespace LazyCalc

inductive Destination where
  | written (limit : Nat)
  | described
  | stored (register : String)

inductive Command where
  | set (register : String) (value : Expression)
  | next (register : String) (count : Nat)
  | skip (register : String) (count : Nat)
  | take (register : String) (count : Nat)
  | index (register : String) (index : Nat)
  | slice (register : String) (start stop : Nat)
  | hint (register : String)
  | fork (register target : String)
  | copy (register target : String)
  | split (register first second : String)
  | collect (register : String)
  | materialize (register : String) (target : Option String)
  | unwrap (register : String)
  | close (register : String)
  | tell (register : String)
  | debug (register : String)
  | equal (a b : Expression)
  | invoke (name : String) (args : List Expression) (destination : Destination)
  | call (operator : Operator) (name : String) (args : List Expression) (destination : Destination)
  | register (name : String) (operator : Operator) (doc : Option String)
  | listTable
  | entry (name : String)

inductive Reply where
  | report (report : Report)
  | failure (failure : Failure)
  | described (about : Description)
  | split (first second : Description)
  | pulled (items : List (Option (Except Failure Report)))
  | skipped (count : Nat)
  | hint (hint : Hint)
  | told (about : Description) (scalar : Option String)
  | text (text : String)
  | flag (value : Bool)
  | table (names : List String) (limit : Nat)
  | entry (entry : Option Operator.Entry)
  | nothing

namespace Calculation

def write (d : Linked.Drive) (limit : Nat) (result : Linked.Item) : Engine Reply := do
  match result with
  | .ok v => pure (.report (← Value.report d limit d.fuel v))
  | .error e => pure (.failure e)

def onSequence {α : Type} (name : String) (work : Linked.Sequence → Engine (α × Linked.Sequence)) :
    Calculation α := do
  let v ← moveOut name
  let (result, s) ← work (.wrap v)
  store name (.sequence s)
  pure result

def pullMany (d : Linked.Drive) (limit : Nat) :
    (n : Nat) → (pulled : List (Option (Except Failure Report))) → Linked.Sequence →
      Engine (List (Option (Except Failure Report)) × Linked.Sequence)
  | 0, pulled, s => pure (pulled.reverse, s)
  | n + 1, pulled, s => do
    match ← d.pull s with
    | (none, s) => pullMany d limit n (none :: pulled) s
    | (some (.error e), s) => pullMany d limit n (some (.error e) :: pulled) s
    | (some (.ok v), s) =>
      let report ← Value.report d limit d.fuel v
      pullMany d limit n (some (.ok report) :: pulled) s

def deliver (d : Linked.Drive) (destination : Destination) (result : Linked.Item) : Calculation Reply := do
  match result, destination with
  | .error e, _ => pure (.failure e)
  | .ok v, .written limit => write d limit (.ok v)
  | .ok v, .described =>
    let about := Value.describe v
    Engine.dropValues [v]
    pure (.described about)
  | .ok v, .stored name =>
    let about := Value.describe v
    store name v
    pure (.described about)

/-- Evaluates arguments and, if that goes well, works on them. -/
def withArguments (d : Linked.Drive) (args : List Expression) (work : List Linked.Value → Calculation Linked.Item) :
    Calculation Linked.Item := do
  match ← Expression.evalList d args [] with
  | .ok values => work values
  | .error e => pure (.error e)

end Calculation

namespace Command

open Calculation

def run (d : Linked.Drive) (limit : Nat) : Command → Calculation Reply
  | .set name value => do
    match ← value.eval d with
    | .error e => pure (.failure e)
    | .ok v =>
      let about := Value.describe v
      store name v
      pure (.described about)
  | .next name count => do pure (.pulled (← onSequence name (pullMany d limit count [])))
  | .skip name count => do pure (.skipped (← onSequence name (Sequence.discard d count 0)))
  | .take name count => do write d limit (← onSequence name (Sequence.takeList d count))
  | .index name i => do write d limit (← onSequence name (Sequence.index d i))
  | .slice name start stop => do write d limit (← onSequence name (Sequence.slice d start stop))
  | .hint name => do pure (.hint (← onSequence name fun s => pure (s.hint, s)))
  | .fork name target => do
    let other ← onSequence name fun s => do
      let (s, other) ← d.fork s
      pure (other, s)
    let about := Value.describe (.sequence other)
    store target (.sequence other)
    pure (.described about)
  | .copy name target => do
    let v ← copyOut d name
    let about := Value.describe v
    store target v
    pure (.described about)
  | .split name first second => do
    let (s, other) ← d.fork (.wrap (← moveOut name))
    let about := Value.describe (.sequence s)
    let aboutOther := Value.describe (.sequence other)
    store first (.sequence s)
    store second (.sequence other)
    pure (.split about aboutOther)
  | .collect name => do
    let v ← moveOut name
    let result : Linked.Item ← (Sequence.collect d (.wrap v) : Engine _)
    write d limit result
  | .materialize name target => do
    let v ← moveOut name
    let result ← (Value.materialize d d.fuel v : Engine _)
    deliver d (match target with | some t => .stored t | none => .written limit) result
  | .unwrap name => do
    let v ← moveOut name
    let about := Value.describe v.unwrap
    store name v.unwrap
    pure (.described about)
  | .close name => do
    Engine.dropValues [← moveOut name]
    pure .nothing
  | .tell name => do
    let v ← moveOut name
    store name v
    pure (.told (Value.describe v) (v.scalar?.map Scalar.text))
  | .debug name => do
    let v ← moveOut name
    store name v
    pure (.text (Value.outline v).debugText)
  | .equal a b => do
    match ← Expression.evalList d [a, b] [] with
    | .ok [a, b] =>
      let same := a.same b
      Engine.dropValues [b, a]
      pure (.flag same)
    | .ok values =>
      Engine.dropValues values
      pure .nothing
    | .error e => pure (.failure e)
  | .invoke name args destination => do
    let result ← withArguments d args fun values => do
      ((← get).table.invoke d name values : Engine Linked.Item)
    deliver d destination result
  | .call operator name args destination => do
    let result ← withArguments d args fun values => (operator.call d name values : Engine Linked.Item)
    deliver d destination result
  | .register name operator doc => do
    modify fun session => { session with table := session.table.register name operator doc }
    pure .nothing
  | .listTable => do
    let table := (← get).table
    pure (.table table.names table.limit)
  | .entry name => do pure (.entry ((← get).table.find? name))

end Command

structure Answer where
  reply : Reply
  log : List Event

namespace Session

def empty (table : Table) : Session := ⟨[], table⟩

def takeLog : Engine (List Event) := fun ⟨fanouts, cells, log⟩ =>
  pure (log.toList, ⟨fanouts, cells, #[]⟩)

def runAll (d : Linked.Drive) (limit : Nat) (commands : List Command) : Calculation (List Answer) :=
  commands.mapM fun command => do
    let reply ← command.run d limit
    pure ⟨reply, ← takeLog⟩

def finish (session : Session) : Engine (List Event) := do
  let registers := session.registers.mergeSort fun a b => !decide (b.1 < a.1)
  Engine.dropValues (registers.map (·.2))
  takeLog

def script (d : Linked.Drive) (limit : Nat) (table : Table) (commands : List Command) :
    Engine (List Answer × List Event) := do
  let (answers, session) ← (runAll d limit commands).run (empty table)
  let rest ← session.finish
  pure (answers, rest)

end Session

end LazyCalc
