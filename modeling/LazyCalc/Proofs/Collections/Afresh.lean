import LazyCalc.Proofs.Lone.Stable
/-!
Operators on a collection and further arguments, told without cells and copies: every call of the
kernel reads the whole collection, and every row of a batch has the whole arguments. With lone
sequences a call gives just that.
-/

namespace LazyCalc

open Filter

namespace Lone

/-- Broadcasts over an argument a kernel that reads the collection, the whole of it at every call. -/
def readOne (plan : Scalar → Extent → Except Failure Plan) (limit : Nat) (a : Value)
    (n depth : Nat) (c : Collection) : Option Item :=
  broadcastOne (Drive.alone n) (fun x => c.readWith (Drive.alone n) (plan x))
    (.reading (.of c) plan) limit depth a

def readTwo (plan : Scalar → Scalar → Extent → Except Failure Plan) (limit : Nat) (a b : Value)
    (n depth : Nat) (c : Collection) : Option Item :=
  broadcastTwo (Drive.alone n) (fun x y => c.readWith (Drive.alone n) (plan x y))
    (.reading (.of c) fun (x, y) => plan x y) limit depth a b

mutual

/-- What `read` gives for a collection that is no list of lists; for a list of lists the list of
what comes of its elements, each by itself one level further down, or the first failure. -/
def byRows (limit : Nat) (read : (depth : Nat) → Collection → Option Item) (depth : Nat) :
    Value → Option Item
  | .list items =>
    if limit < depth then some (.error (.nestingTooDeep limit))
    else if (Tree.list items).isBatch then
      (ofRows limit read (depth + 1) items).map (Except.map .list)
    else read depth (.list items)
  | v => if limit < depth then some (.error (.nestingTooDeep limit)) else read depth (.ofValue v)

def ofRows (limit : Nat) (read : (depth : Nat) → Collection → Option Item) (depth : Nat) :
    List Value → Option (Except Failure (List Value))
  | [] => some (.ok [])
  | v :: vs => do
    match ← byRows limit read depth v with
    | .error e => some (.error e)
    | .ok w => (ofRows limit read depth vs).map (Except.map (w :: ·))

end

mutual

theorem applyBatch_eq {α : Type} (t : Trailing Option Empty Snapshot α) (n limit : Nat) (args : α)
    (hcopy : t.copy args = some (args, args)) (depth : Nat) (v : Value) :
    applyBatch (Drive.alone n) t limit depth args v =
      byRows limit (fun depth c => t.spread depth c args) depth v := by
  cases v with
  | scalar x => rfl
  | sequence s => rfl
  | list items =>
    rw [applyBatch, byRows, applyBatchItems_eq t n limit args hcopy (depth + 1) [] items]
    congr 2
    cases ofRows limit (fun depth c => t.spread depth c args) (depth + 1) items with
    | none => rfl
    | some rows => cases rows <;> rfl

theorem applyBatchItems_eq {α : Type} (t : Trailing Option Empty Snapshot α) (n limit : Nat)
    (args : α) (hcopy : t.copy args = some (args, args)) (depth : Nat) (made vs : List Value) :
    applyBatchItems (Drive.alone n) t limit depth args made vs =
      (ofRows limit (fun depth c => t.spread depth c args) depth vs).map fun rows =>
        (rows.map fun ws => .list (made.reverse ++ ws), args) := by
  cases vs with
  | nil =>
    rw [applyBatchItems, ofRows, Option.map_some, Except.map, List.append_nil]
    rfl
  | cons v vs =>
    rw [applyBatchItems, ofRows, hcopy]
    change (applyBatch (Drive.alone n) t limit depth args v >>= _) = _
    rw [applyBatch_eq t n limit args hcopy depth v]
    cases byRows limit (fun depth c => t.spread depth c args) depth v with
    | none => rfl
    | some x =>
      cases x with
      | error e => rfl
      | ok w =>
        refine (applyBatchItems_eq t n limit args hcopy depth (w :: made) vs).trans ?_
        change _ = ((ofRows limit _ depth vs).map (Except.map (w :: ·))).map _
        rw [Option.map_map]
        congr 1
        funext rows
        cases rows with
        | error e => rfl
        | ok ws => simp [Except.map]

end

end Lone

/-- What the call of an operator on a collection and its further arguments should come to. -/
inductive Operator.Afresh : Operator → List Lone.Value → (Nat → Option Lone.Item) → Prop
  | one (plan : Scalar → Extent → Except Failure Plan) (limit : Nat) (c a : Lone.Value) :
    Afresh (.listAndOneArg plan limit) [c, a] fun n =>
      Lone.byRows limit (Lone.readOne plan limit a n) 0 c
  | two (plan : Scalar → Scalar → Extent → Except Failure Plan) (limit : Nat)
    (c a b : Lone.Value) :
    Afresh (.listAndTwoArgs plan limit) [c, a, b] fun n =>
      Lone.byRows limit (Lone.readTwo plan limit a b n) 0 c

namespace Operator.Afresh

theorem call_eq {op : Operator} {vs : List Lone.Value} {Y : Nat → Option Lone.Item}
    (h : op.Afresh vs Y) (name : String) (n : Nat) : op.call (Drive.alone n) name vs = Y n := by
  cases h with
  | one plan limit c a =>
    refine (Lone.applyBatch_eq (.one (Drive.alone n) plan limit) n limit a
      (Drive.copy_alone n a) 0 c).trans ?_
    congr 1
    funext depth c
    exact bind_pure (Lone.readOne plan limit a n depth c)
  | two plan limit c a b =>
    refine (Lone.applyBatch_eq (.two (Drive.alone n) (fun (x, y) => plan x y) limit) n limit (a, b)
      ?_ 0 c).trans ?_
    · simp only [Trailing.two, Drive.copy_alone]
      rfl
    · congr 1
      funext depth c
      exact bind_pure (Lone.readTwo plan limit a b n depth c)

end Operator.Afresh

end LazyCalc
