import LazyCalc.Proofs.Collections.Afresh
import LazyCalc.Proofs.Desk.Moments
/-!
Calls of operators on collections in a store, however the collection and the arguments are shared
with other sequences: what comes of them is what comes of lone sequences that are read from the
start by every call of the kernel. The elements of a result are laid on desks of their own, and what
is done with one of them makes no difference to the others.
-/

namespace LazyCalc

open Filter

namespace Desk

section

variable {m : Type → Type} [Monad m] {ρ κ : Type} (d : Drive m ρ κ)
  (mark : Sequence ρ κ → String → Sequence ρ κ)

/-- Calls an operator on values of a desk. Each element of what comes of it has a desk of its own,
behind what is left of the first one, and the run goes on with all of them. -/
def apart (name : String) (op : Operator) (numbers : List Nat) (acts : List (Nat × Act))
    (desk : Desk ρ κ) : m (Except Failure (List (Nat × Showing)) × List (Desk ρ κ)) := do
  let (vs, rest) := take numbers desk
  match ← op.call d name vs with
  | .error e => pure (.error e, [rest])
  | .ok w => do
    let (replies, desks) ← run d mark acts (rest :: w.spread.map fun w => [some w])
    pure (.ok replies, desks)

end

/-- What shows of a result when its elements have desks of their own: a failure, or for every desk
the replies that it gives by itself. -/
inductive ShowsApart (Y : Nat → Option Lone.Item) (rest : Lone.Desk) (acts : List (Nat × Act)) :
    Except Failure (List (Nat × Showing)) → Prop
  | failure {e : Failure} (h : Settles Y (.error e)) : ShowsApart Y rest acts (.error e)
  | rows {w : Lone.Value} {replies : List (Nat × Showing)} (h : Settles Y (.ok w))
    (htags : replies.map Prod.fst = acts.map Prod.fst)
    (hown : ∀ k, Replies (own k acts) (only k (rest :: w.spread.map fun w => [some w]))
      (own k replies)) : ShowsApart Y rest acts (.ok replies)

theorem showsApart_iff {Y : Nat → Option Lone.Item} {rest : Lone.Desk} {acts : List (Nat × Act)}
    {w : Lone.Value} (h : Settles Y (.ok w)) {out : Except Failure (List (Nat × Showing))} :
    ShowsApart Y rest acts out ↔ ∃ replies, out = .ok replies ∧
      replies.map Prod.fst = acts.map Prod.fst ∧
      ∀ k, Replies (own k acts) (only k (rest :: w.spread.map fun w => [some w])) (own k replies) := by
  constructor
  · intro hshows
    cases hshows with
    | failure h' => cases h.unique h'
    | @rows w' replies h' htags hown =>
      obtain rfl := Except.ok.inj (h.unique h')
      exact ⟨replies, rfl, htags, hown⟩
  · rintro ⟨replies, rfl, htags, hown⟩
    exact .rows h htags hown

end Desk

namespace Desk

variable {name : String} {op : Operator} {numbers : List Nat} {acts : List (Nat × Act)}
  {desk : Lone.Desk}

theorem apart_eq (n : Nat) :
    (apart (Drive.alone n) (fun s _ => s) name op numbers acts desk).map Prod.fst =
      (op.call (Drive.alone n) name (take numbers desk).1).bind fun
        | .error e => some (.error e)
        | .ok w => ((runAlone n acts
            ((take numbers desk).2 :: w.spread.map fun w => [some w])).map Prod.fst).map .ok := by
  change (Option.bind (op.call (Drive.alone n) name (take numbers desk).1) _).map Prod.fst = _
  rw [Option.map_bind]
  congr 1
  funext x
  cases x with
  | error e => rfl
  | ok w =>
    change (Option.bind (runAlone n acts _) _).map Prod.fst = ((runAlone n acts _).map _).map _
    cases runAlone n acts ((take numbers desk).2 :: w.spread.map fun w => [some w]) <;> rfl

theorem settles_apart_iff {out : Except Failure (List (Nat × Showing))} :
    Settles (fun n => (apart (Drive.alone n) (fun s _ => s) name op numbers acts desk).map Prod.fst)
        out ↔
      ShowsApart (fun n => op.call (Drive.alone n) name (take numbers desk).1) (take numbers desk).2
        acts out := by
  simp only [apart_eq]
  constructor
  · intro h
    obtain ⟨n, hn⟩ := h.exists
    obtain ⟨x, hx, hn⟩ := Option.bind_eq_some_iff.mp hn
    have hcall := Lone.settles_call hx
    cases x with
    | error e =>
      obtain rfl := Option.some.inj hn
      exact .failure hcall
    | ok w =>
      obtain ⟨replies, -, rfl⟩ := Option.map_eq_some_iff.mp hn
      -- with more fuel the call gives the same, so that the runs after it are all of one result
      have hreplies : Replies acts ((take numbers desk).2 :: w.spread.map fun w => [some w])
          replies := by
        filter_upwards [h, hcall] with m hm hw
        rw [hw] at hm
        obtain ⟨replies', hm, hsame⟩ := Option.map_eq_some_iff.mp hm
        rwa [Except.ok.inj hsame] at hm
      obtain ⟨htags, hown⟩ := replies_iff_own.mp hreplies
      exact .rows hcall htags hown
  · intro h
    cases h with
    | failure h =>
      filter_upwards [h] with n hn
      rw [hn]
      rfl
    | rows h htags hown =>
      filter_upwards [h, replies_iff_own.mpr ⟨htags, hown⟩] with n hn hrun
      rw [hn, Option.bind_some]
      exact congrArg (Option.map Except.ok) hrun

end Desk

theorem Desk.apart_map {σ τ : Type} (f : σ → τ) (w : Tree σ) (rest : List (Option (Tree σ))) :
    rest.map (Option.map (Tree.map f)) :: (w.map f).spread.map (fun w => [some w]) =
      (rest :: w.spread.map fun w => [some w]).map (List.map (Option.map (Tree.map f))) := by
  rw [Coupling.spread_map, Tree.mapList_eq_map, List.map_map, List.map_cons, List.map_map]
  rfl

theorem parts_apart (w : Twins.Value) (rest : Twins.Desk) :
    (parts (rest :: w.spread.map fun w => [some w]) : Twins.Parts) = parts w + parts rest := by
  have hsingle (ts : List Twins.Value) :
      (parts (ts.map fun w => [some w] : List Twins.Desk) : Twins.Parts) = parts ts := by
    induction ts with
    | nil => rfl
    | cons t ts ih => rw [List.map_cons, parts_desks_cons, parts_desk_singleton, ih, parts_cons]
  rw [parts_desks_cons, hsingle, Coupling.parts_spread, add_comm]

namespace Rests

variable {G : Ledger} {st : Store} {desk : Twins.Desk} {B : Twins.Parts}

theorem apart (h : Rests G st (parts desk + B)) (n : Nat) (name : String) (op : Operator)
    (numbers : List Nat) (acts : List (Nat × Act)) :
    Concord false (Except Failure (List (Nat × Showing)) × List Twins.Desk) n G.book
      (fun c => match c.1 with
        | .ok replies => Desk.registered acts replies
        | .error _ => []) B
      (Desk.apart (Drive.ofFuel n) Sequence.onClose name op numbers acts (left desk) st)
      (fun m => Desk.apart (Drive.alone m) (fun s _ => s) name op numbers acts (right desk)) := by
  simp only [Desk.apart, Desk.take_left, Desk.take_right]
  have hcall := h.concord (B := parts (Desk.take numbers desk).2 + B) (by
    have := Logic.frame _ (parts (Desk.take numbers desk).2 + B)
      ((agreeing n (pullsAgree n)).call name op (Desk.take numbers desk).1)
    rwa [zero_add, ← add_assoc, Desk.parts_take] at this)
  refine hcall.bind fun x G₁ st₁ h₁ hG₁ => ?_
  cases x with
  | error e =>
    refine Concord.pure (γ := Except Failure (List (Nat × Showing)) × List Twins.Desk)
      (.error e, [(Desk.take numbers desk).2]) hG₁ (h₁.congr ?_)
    rw [parts_error, parts_pair, parts_error, parts_desks_cons, parts_desks_nil, add_zero, add_assoc]
  | ok w =>
    have hrun := (Rests.run n acts (h₁.congr (by
      rw [parts_ok, parts_apart w (Desk.take numbers desk).2, add_assoc]))).after hG₁
    simp only [left, right, ← Desk.apart_map] at hrun
    refine hrun.bind fun c G₂ st₂ h₂ hG₂ => ?_
    obtain ⟨replies, desks⟩ := c
    exact Concord.pure (γ := Except Failure (List (Nat × Showing)) × List Twins.Desk)
      (.ok replies, desks) hG₂ h₂

end Rests

end LazyCalc
