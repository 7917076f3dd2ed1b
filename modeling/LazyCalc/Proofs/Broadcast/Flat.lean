import LazyCalc.Proofs.Broadcast.Materialized
import LazyCalc.Proofs.Limits.Depth
/-!
Broadcasts over flat lists of scalars, beside a collection that is no batch: a list of what comes of
each call of the kernel, or the first failure among them. A list of one scalar is that scalar.
-/

namespace LazyCalc

open Filter

open List (Forall₂)

namespace Tree

variable {σ : Type}

theorem stripList_scalars (xs : List Scalar) :
    stripList (xs.map Tree.scalar : List (Tree σ)) = xs.map .scalar := by
  induction xs with
  | nil => rfl
  | cons x xs ih => rw [List.map_cons, stripList, ih, strip]

theorem strip_scalars {xs : List Scalar} (h : xs.length ≠ 1) :
    (Tree.list (xs.map Tree.scalar) : Tree σ).strip = .list (xs.map .scalar) := by
  rw [strip, stripList_scalars]
  rintro t ht
  exact h (by simpa using congrArg List.length ht)

end Tree

namespace Grid

variable {α : Type}

theorem ofList_scalars (xs : List Scalar) :
    ofList id (xs.map Tree.scalar) = xs.map Grid.leaf := by
  induction xs with
  | nil => rfl
  | cons x xs ih => rw [List.map_cons, ofList, ih, of]; rfl

theorem pairRows_scalars (ps : List (Scalar × Scalar)) :
    pairRows ((ps.map Prod.fst).map Tree.scalar) ((ps.map Prod.snd).map Tree.scalar) =
      ps.map Grid.leaf := by
  induction ps with
  | nil => rfl
  | cons p ps ih =>
    simp only [List.map_cons, pairRows, pair, of]
    exact congrArg _ ih

end Grid

namespace Lone

def listed (xs : List Item) : Item := (xs.mapM id : Except Failure (List Value)).map .list

section

variable {α : Type} {run : Nat → α → Option Item} {limit depth : Nat} {as : List α} {xs : List Item}

theorem settles_carryRows (hlimit : depth ≤ limit)
    (h : Forall₂ (fun a x => Settles (fun n => run n a) x) as xs) (made : List Value) :
    Settles (fun n => Grid.carryRows (Drive.alone n) (run n) limit depth made (as.map .leaf))
      ((xs.mapM id : Except Failure (List Value)).map fun vs => .list (made.reverse ++ vs)) := by
  induction h generalizing made with
  | nil =>
    refine .of_forall fun n => ?_
    change some (Except.ok (Tree.list made.reverse)) = some (Except.ok (.list (made.reverse ++ [])))
    rw [List.append_nil]
  | @cons a x as xs ha h ih =>
    have hleaf : Settles (fun n => Grid.carry (Drive.alone n) (run n) limit depth (.leaf a)) x := by
      simpa only [Grid.carry, if_neg (Nat.not_lt.mpr hlimit)] using ha
    cases x with
    | error e =>
      rw [mapM_error_cons]
      exact hleaf.bind (.const _)
    | ok v =>
      have hrest := ih (v :: made)
      simp only [List.reverse_cons, List.append_assoc, List.singleton_append] at hrest
      have hcons (rest : Except Failure (List Value)) :
          (List.cons v <$> rest).map (fun vs => Tree.list (made.reverse ++ vs)) =
            rest.map fun vs => .list (made.reverse ++ v :: vs) := by
        cases rest <;> rfl
      rw [mapM_ok_cons, hcons]
      exact hleaf.bind hrest

theorem settles_carry_row (hlimit : 1 ≤ limit)
    (h : Forall₂ (fun a x => Settles (fun n => run n a) x) as xs) :
    Settles (fun n => Grid.carry (Drive.alone n) (run n) limit 0 (.rows (as.map .leaf)))
      (listed xs) := by
  simp only [Grid.carry, if_neg (Nat.not_lt_zero limit)]
  exact settles_carryRows hlimit h []

end

theorem byRows_of_not_batch {v : Value} (hv : v.isBatch = false) (limit : Nat)
    (read : (depth : Nat) → Collection → Option Item) :
    byRows limit read 0 v = read 0 (.ofValue v) := by
  have hlimit := Nat.not_lt_zero limit
  cases v with
  | list items =>
    rw [byRows, if_neg hlimit, hv]
    rfl
  | scalar x =>
    rw [byRows, if_neg hlimit]
    intro items hlist
    cases hlist
  | sequence s =>
    rw [byRows, if_neg hlimit]
    intro items hlist
    cases hlist

end Lone

namespace Operator

open Lone

variable {v : Lone.Value} (hv : v.isBatch = false) {limit : Nat} (name : String)

include hv

theorem call_one_plain (plan : Scalar → Extent → Except Failure Plan) (n : Nat) (a : Plain) :
    (listAndOneArg plan limit).call (Drive.alone n) name [v, .ofPlain a] =
      Grid.carry (Drive.alone n) (fun x => (Collection.ofValue v).readWith (Drive.alone n) (plan x))
        limit 0 (.of id a.strip) := by
  rw [(Afresh.one plan limit v (.ofPlain a)).call_eq, byRows_of_not_batch hv, readOne,
    broadcastOne_plain limit (Drive.drop_alone n)]

theorem call_two_plain (plan : Scalar → Scalar → Extent → Except Failure Plan) (n : Nat)
    (a b : Plain) :
    (listAndTwoArgs plan limit).call (Drive.alone n) name [v, .ofPlain a, .ofPlain b] =
      Grid.carry (Drive.alone n)
        (fun p => (Collection.ofValue v).readWith (Drive.alone n) (plan p.1 p.2)) limit 0
        (.pair a.strip b.strip) := by
  rw [(Afresh.two plan limit v (.ofPlain a) (.ofPlain b)).call_eq, byRows_of_not_batch hv, readTwo,
    broadcastTwo_plain limit (Drive.drop_alone n)]

end Operator

namespace Lone

variable {v : Value} {limit : Nat}

def Answers (op : Operator) (v : Value) (p : Scalar) (x : Item) : Prop :=
  ∀ name, Settles (fun n => op.call (Drive.alone n) name [v, .scalar p]) x

section

variable {plan : Scalar → Extent → Except Failure Plan} (hv : v.isBatch = false)

include hv

theorem answers_iff {p : Scalar} {x : Item} : Answers (.listAndOneArg plan limit) v p x ↔
    Settles (fun n => (LazyCalc.Collection.ofValue v).readWith (Drive.alone n) (plan p)) x := by
  have hcall (name : String) (n : Nat) :
      (Operator.listAndOneArg plan limit).call (Drive.alone n) name [v, .scalar p] =
        (LazyCalc.Collection.ofValue v).readWith (Drive.alone n) (plan p) := by
    refine (Operator.call_one_plain hv name plan n (.scalar p)).trans ?_
    rw [Tree.strip, Grid.of, Grid.carry, if_neg (Nat.not_lt_zero limit)]
    rfl
  simp only [Answers, hcall, forall_const]

theorem settles_scalars {ps : List Scalar} {xs : List Item} (hlimit : 1 ≤ limit)
    (hps : ps.length ≠ 1) (h : Forall₂ (Answers (.listAndOneArg plan limit) v) ps xs)
    (name : String) : Settles (fun n => (Operator.listAndOneArg plan limit).call (Drive.alone n) name
      [v, .ofPlain (.list (ps.map .scalar))]) (listed xs) := by
  simp only [Operator.call_one_plain hv, Tree.strip_scalars hps, Grid.of, Grid.ofList_scalars]
  exact settles_carry_row hlimit (h.imp fun p x => (answers_iff hv).mp)

theorem settles_singleton {p : Scalar} {x : Item} (h : Answers (.listAndOneArg plan limit) v p x)
    (name : String) : Settles (fun n => (Operator.listAndOneArg plan limit).call (Drive.alone n) name
      [v, .ofPlain (.list [.scalar p])]) x := by
  refine (h name).congr (.of_forall fun n => ?_)
  rw [Operator.call_one_plain hv]
  exact (Operator.call_one_plain hv name plan n (.scalar p)).trans rfl

end

section

variable {plan : Scalar → Scalar → Extent → Except Failure Plan} (hv : v.isBatch = false)
  (name : String)

include hv

theorem call_scalars_two (p q : Scalar) (n : Nat) :
    (Operator.listAndTwoArgs plan limit).call (Drive.alone n) name [v, .scalar p, .scalar q] =
      (LazyCalc.Collection.ofValue v).readWith (Drive.alone n) (plan p q) := by
  refine (Operator.call_two_plain hv name plan n (.scalar p) (.scalar q)).trans ?_
  rw [Tree.strip, Tree.strip, Grid.pair, Grid.of, Grid.carry, if_neg (Nat.not_lt_zero limit)]

theorem settles_scalar_pairs {ps : List (Scalar × Scalar)} {xs : List Item} (hlimit : 1 ≤ limit)
    (hps : ps.length ≠ 1) (h : Forall₂ (fun p x => Settles (fun n =>
      (LazyCalc.Collection.ofValue v).readWith (Drive.alone n) (plan p.1 p.2)) x) ps xs) :
    Settles (fun n => (Operator.listAndTwoArgs plan limit).call (Drive.alone n) name
      [v, .ofPlain (.list ((ps.map Prod.fst).map .scalar)),
        .ofPlain (.list ((ps.map Prod.snd).map .scalar))]) (listed xs) := by
  have hfst : (ps.map Prod.fst).length ≠ 1 := by rwa [List.length_map]
  have hsnd : (ps.map Prod.snd).length ≠ 1 := by rwa [List.length_map]
  simp only [Operator.call_two_plain hv, Tree.strip_scalars hfst, Tree.strip_scalars hsnd, Grid.pair,
    Grid.pairRows_scalars]
  exact settles_carry_row hlimit h

theorem call_singleton_two (p q : Scalar) (n : Nat) :
    (Operator.listAndTwoArgs plan limit).call (Drive.alone n) name
        [v, .ofPlain (.list [.scalar p]), .ofPlain (.list [.scalar q])] =
      (LazyCalc.Collection.ofValue v).readWith (Drive.alone n) (plan p q) := by
  refine Eq.trans ?_ (call_scalars_two hv name p q n : (Operator.listAndTwoArgs plan limit).call
    (Drive.alone n) name [v, .scalar p, .scalar q] = _)
  rw [Operator.call_two_plain hv]
  exact (Operator.call_two_plain hv name plan n (.scalar p) (.scalar q)).symm

end

end Lone

end LazyCalc
