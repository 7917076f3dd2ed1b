import LazyCalc.Engine.Pull
import LazyCalc.Proofs.Fanout.Cursor
/-!
Series of operations on readers of one source: a sequence, and all that are forked from it. The
readers are numbered in the order in which they come about. The same series can be carried out by
sequences in the engine and by cursors, each of which reads the stream by itself.
-/

namespace LazyCalc

namespace Generator

def after (g : Generator) : Nat → Generator
  | 0 => g
  | n + 1 => (g.after n).next.2

def answer (g : Generator) (n : Nat) : Option PlainItem := (g.after n).next.1

end Generator

namespace Readers

inductive Act where
  | next (reader : Nat)
  | fork (reader : Nat)
  | split (reader : Nat)
  | index (reader place : Nat)
  | slice (reader start stop : Nat)
  | take (reader count : Nat)
  | drop (reader : Nat)

inductive Reply (σ : Type) where
  | pulled (item : Option (Except Failure (Tree σ)))
  | found (result : Except Failure (Tree σ))
  | silent

def Reply.ofPlain {σ : Type} : Reply Empty → Reply σ
  | .pulled item => .pulled (item.map (·.map Tree.ofPlain))
  | .found result => .found (result.map Tree.ofPlain)
  | .silent => .silent

def at? {α : Type} (numbered : List (Option α)) (r : Nat) : Option α := numbered[r]?.join

abbrev Pool := List (Option Linked.Sequence)

def Act.reach : Act → Nat
  | .index _ place => place
  | .slice _ start stop => stop - start
  | .take _ count => count
  | .next _ | .fork _ | .split _ | .drop _ => 0

def act (d : Linked.Drive) (a : Act) (pool : Pool) : Engine (Reply Linked.Sequence × Pool) :=
  match a with
  | .next r => on r fun s => do
    let (item, s) ← d.pull s
    pure (.pulled item, pool.set r (some s))
  | .fork r => on r fun s => do
    let (s, other) ← d.fork s
    pure (.silent, pool.set r (some s) ++ [some other])
  | .split r => on r fun s => do
    let (s, other) ← d.fork s
    pure (.silent, pool.set r none ++ [some s, some other])
  | .index r place => on r fun s => do
    let (found, s) ← s.index d place
    pure (.found found, pool.set r (some s))
  | .slice r start stop => on r fun s => do
    let (found, s) ← s.slice d start stop
    pure (.found found, pool.set r (some s))
  | .take r count => on r fun s => do
    let (found, s) ← s.takeList d count
    pure (.found found, pool.set r (some s))
  | .drop r => on r fun s => do
    d.dropSequence s
    pure (.silent, pool.set r none)
where
  on (r : Nat) (work : Linked.Sequence → Engine (Reply Linked.Sequence × Pool)) :
      Engine (Reply Linked.Sequence × Pool) :=
    match at? pool r with
    | some s => work s
    | none => pure (.silent, pool)

def run (d : Linked.Drive) : List Act → Pool → Engine (List (Reply Linked.Sequence) × Pool)
  | [], pool => pure ([], pool)
  | a :: as, pool => do
    let (reply, pool) ← act d a pool
    let (replies, pool) ← run d as pool
    pure (reply :: replies, pool)

def source? (st : Store) (s : Linked.Sequence) : Option Linked.Source :=
  match s.origin with
  | .direct source => some source
  | .branch ⟨i, _⟩ =>
    match st.fanouts[i]? with
    | some (.held shared) => some shared.source
    | some .lent | some .vacant | none => none

end Readers

/-- Cursors, and how often the stream had to be asked for the one that has come furthest. -/
structure Cursors where
  cursors : List (Option Cursor)
  reached : Nat

namespace Cursors

open Readers

def start : Cursors := ⟨[some ⟨0, false⟩], 0⟩

def move (cs : Cursors) (r : Nat) (c : Cursor) : Cursors :=
  ⟨cs.cursors.set r (some c), max cs.reached c.position⟩

def remove (cs : Cursors) (r : Nat) : Cursors := { cs with cursors := cs.cursors.set r none }

def add (cs : Cursors) (c : Cursor) : Cursors := { cs with cursors := cs.cursors ++ [some c] }

def reach (cs : Cursors) (c : Cursor) : Cursors := { cs with reached := max cs.reached c.position }

def act (answer : Nat → Option PlainItem) (a : Act) (cs : Cursors) : Reply Empty × Cursors :=
  match a with
  | .next r => on r fun c =>
    let (item, c) := c.step answer
    (.pulled item, cs.move r c)
  | .fork r => on r fun c => (.silent, cs.add c)
  | .split r => on r fun c => (.silent, ((cs.remove r).add c).add c)
  | .index r place => on r fun c =>
    let (found, walker) := c.seek answer place place
    (.found found, cs.reach walker)
  | .slice r start stop => on r fun c =>
    let (found, walker) := c.slice answer start stop
    (.found (found.map .list), cs.reach walker)
  | .take r count => on r fun c =>
    let (found, c) := c.gather answer count
    (.found (found.map .list), cs.move r c)
  | .drop r => on r fun _ => (.silent, cs.remove r)
where
  on (r : Nat) (work : Cursor → Reply Empty × Cursors) : Reply Empty × Cursors :=
    match at? cs.cursors r with
    | some c => work c
    | none => (.silent, cs)

def run (answer : Nat → Option PlainItem) : List Act → Cursors → List (Reply Empty) × Cursors
  | [], cs => ([], cs)
  | a :: as, cs =>
    let (reply, cs) := act answer a cs
    let (replies, cs) := run answer as cs
    (reply :: replies, cs)

end Cursors

end LazyCalc
