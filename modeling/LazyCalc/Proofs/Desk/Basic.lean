import LazyCalc.Proofs.Coupling.Twin
import LazyCalc.Proofs.Fanout.Readers
/-!
Runs over values that lie on desks. The values of a desk are numbered in the order in which they
came; a tool takes some of them and puts on the desk what it makes of them. The same run can be
carried out with any drive.
-/

namespace LazyCalc

open Readers (at?)

/-- What is done with values taken from a desk. -/
inductive Tool where
  /-- Scalars, lists of them, and sequences not yet started. -/
  | make (t : Template)
  | list
  /-- A sequence over the values, and over failures where `shape` has them. -/
  | elements (shape : List (Option Failure)) (hint : Hint)
  | spread
  | unwrap
  | wrap
  | mapped (mapping : Mapping Empty)
  | filtered (test : Outline → Except Failure Bool) (invert : Bool)
  | zipped (pairing : Pairing Empty)
  | window (start count : Nat)
  | call (name : String) (op : Operator)
  | invoke (table : Table) (name : String)
  | copy
  | fork
  | pull
  | skip (count : Nat)
  | take (count : Nat)
  | index (place : Nat)
  | slice (start stop : Nat)
  | collect
  | materialize
  | drop

def shaped {σ : Type} : List (Option Failure) → List (Tree σ) → List (Except Failure (Tree σ))
  | [], vs => vs.map .ok
  | some e :: shape, vs => .error e :: shaped shape vs
  | none :: shape, [] => shaped shape []
  | none :: shape, v :: vs => .ok v :: shaped shape vs

def Tree.spread {σ : Type} : Tree σ → List (Tree σ)
  | .list ts => ts
  | t => [t]

namespace Tool

variable {m : Type → Type} [Monad m] {ρ κ : Type} (d : Drive m ρ κ)

def onValue (f : Value ρ κ → m (List (Item ρ κ))) : List (Value ρ κ) → m (List (Item ρ κ))
  | [v] => f v
  | vs => pure (vs.map .ok)

def onSequence (f : Sequence ρ κ → m (List (Item ρ κ))) : List (Value ρ κ) → m (List (Item ρ κ)) :=
  onValue fun v => f (.wrap v)

def single (x : m (Item ρ κ)) : m (List (Item ρ κ)) := do pure [← x]

def reading {α : Type} (shown : α → List (Item ρ κ)) (f : Sequence ρ κ → m (α × Sequence ρ κ)) :
    List (Value ρ κ) → m (List (Item ρ κ)) :=
  onSequence fun s => do
    let (a, s) ← f s
    pure (.ok (.sequence s) :: shown a)

def filter (test : Outline → Except Failure Bool) (invert : Bool) :
    List (Value ρ κ) → m (List (Item ρ κ))
  | v :: held => single (pure (.ok (.sequence ((Sequence.wrap v).filtered test held invert))))
  | [] => pure []

def zip (pairing : Pairing κ) : List (Value ρ κ) → m (List (Item ρ κ))
  | [a, b] => single (pure (.ok (.sequence ((Sequence.wrap a).zipped (.wrap b) pairing))))
  | vs => pure (vs.map .ok)

def work (tool : Tool) (vs : List (Value ρ κ)) : m (List (Item ρ κ)) :=
  match tool with
  | .make t => pure (.ok (.ofTemplate t) :: vs.map .ok)
  | .list => pure [.ok (.list vs)]
  | .elements shape hint => single (pure (.ok (.sequence (.ofItems (shaped shape vs) hint))))
  | .spread => onValue (fun v => pure (v.spread.map .ok)) vs
  | .unwrap => onValue (fun v => pure [.ok v.unwrap]) vs
  | .wrap => onSequence (fun s => pure [.ok (.sequence s)]) vs
  | .mapped mapping =>
    onSequence (fun s => single (pure (.ok (.sequence (s.mapped (mapping.map Empty.elim)))))) vs
  | .filtered test invert => filter test invert vs
  | .zipped pairing => zip (pairing.map Empty.elim) vs
  | .window start count =>
    onSequence (fun s => single (pure (.ok (.sequence (s.window start count))))) vs
  | .call name op => single (op.call d name vs)
  | .invoke table name => single (table.invoke d name vs)
  | .copy => onValue (fun v => do
      let (v, w) ← d.copy v
      pure [.ok v, .ok w]) vs
  | .fork => onSequence (fun s => do
      let (s, t) ← d.fork s
      pure [.ok (.sequence s), .ok (.sequence t)]) vs
  | .pull => reading Option.toList (fun s => d.pull s) vs
  | .skip count => reading (fun n : Nat => [.ok (.scalar (.integer n))]) (·.discard d count 0) vs
  | .take count => reading (fun x => [x]) (·.takeList d count) vs
  | .index place => reading (fun x => [x]) (·.index d place) vs
  | .slice start stop => reading (fun x => [x]) (·.slice d start stop) vs
  | .collect => onSequence (fun s => single (s.collect d)) vs
  | .materialize => onValue (fun v => single (Value.materialize d d.fuel v)) vs
  | .drop => do
    d.drop vs
    pure []

end Tool

/-- Values with numbers; some are gone. -/
abbrev Desk (ρ κ : Type) := List (Option (Value ρ κ))

inductive Act where
  | use (tool : Tool) (numbers : List Nat)
  | onClose (number : Nat) (label : String)

/-- What shows of that which an act gives. -/
abbrev Showing := List (Except Failure Outline)

namespace Desk

/-- Takes what has the numbers; what is gone is passed over. -/
def take {α : Type} : List Nat → List (Option α) → List α × List (Option α)
  | [], desk => ([], desk)
  | i :: is, desk =>
    let (as, rest) := take is (desk.set i none)
    ((at? desk i).toList ++ as, rest)

/-- What a tool gives has new numbers; a failure leaves its number empty. -/
def put {α : Type} (items : List (Except Failure α)) (desk : List (Option α)) : List (Option α) :=
  desk ++ items.map Except.toOption

variable {m : Type → Type} [Monad m] {ρ κ : Type}

def showing (items : List (Item ρ κ)) : Showing := items.map (Except.map Value.outline)

variable (d : Drive m ρ κ) (mark : Sequence ρ κ → String → Sequence ρ κ)

def act : Act → Desk ρ κ → m (Showing × Desk ρ κ)
  | .use tool numbers, desk => do
    let (vs, rest) := take numbers desk
    let items ← tool.work d vs
    pure (showing items, put items rest)
  | .onClose number label, desk =>
    match at? desk number with
    | some v =>
      let s := mark (.wrap v) label
      pure ([.ok (.sequence s.hint)], desk.set number (some (.sequence s)))
    | none => pure ([], desk)

def actAt (k : Nat) (a : Act) (desks : List (Desk ρ κ)) : m (Showing × List (Desk ρ κ)) :=
  match desks[k]? with
  | some desk => do
    let (reply, desk) ← act d mark a desk
    pure (reply, desks.set k desk)
  | none => pure ([], desks)

/-- A run over several desks: each act says on which one it is. -/
def run : List (Nat × Act) → List (Desk ρ κ) → m (List (Nat × Showing) × List (Desk ρ κ))
  | [], desks => pure ([], desks)
  | (k, a) :: as, desks => do
    let (reply, desks) ← actAt d mark k a desks
    let (replies, desks) ← run as desks
    pure ((k, reply) :: replies, desks)

end Desk

end LazyCalc
