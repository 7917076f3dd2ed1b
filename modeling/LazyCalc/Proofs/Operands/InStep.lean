import LazyCalc.Proofs.Operands.Accounts
/-!
Nothing is read ahead: from the pulls of a sequence that is built over others, and from what they
gave, it is known how often each operand was pulled.
-/

namespace LazyCalc

/-- A pull of a sequence, with the pulls of its operands. -/
structure Drawn where
  item : Option Linked.Item
  touches : List Touch

namespace Drawn

def all (pulls : List Drawn) : List Touch := pulls.flatMap touches

theorem all_cons (p : Drawn) (pulls : List Drawn) : all (p :: pulls) = p.touches ++ all pulls := rfl

end Drawn

/-- Pulls of a sequence one after the other, each with any fuel and whatever has become of the store
in between. -/
inductive Pulled : Linked.Sequence → List Drawn → Linked.Sequence → Prop
  | nil (s : Linked.Sequence) : Pulled s [] s
  | cons {s s' s'' : Linked.Sequence} {item : Option Linked.Item} {touches : List Touch}
    {st st' : Store} {pulls : List Drawn} (n : Nat)
    (h : s.pullWatched n [] st = .ok (((item, s'), touches), st')) (hrest : Pulled s' pulls s'') :
    Pulled s (⟨item, touches⟩ :: pulls) s''

namespace Pulled

variable {s s' s'' : Linked.Sequence} {p : Drawn} {pulls : List Drawn} {source : Linked.Source}
  {hint : Hint} {hooks : List String}

theorem step {P : Option Linked.Item × Linked.Source → List Touch → Prop}
    (hstep : ∀ n, Watched.Writes (source.stepWatched (Drive.ofFuel n)) P)
    (h : Pulled ⟨.direct source, hint, false, hooks⟩ (p :: pulls) s') :
    ∃ source', P (p.item, source') p.touches ∧
      Pulled ⟨.direct source', hint, Sequence.closes p.item, hooks⟩ pulls s' := by
  cases h with
  | @cons _ _ _ item touches st st' _ n h hrest =>
    have hwrites : Watched.Writes (Sequence.pullWatched n ⟨.direct source, hint, false, hooks⟩)
        fun r written => ∃ source', P (r.1, source') written ∧
          r.2 = ⟨.direct source', hint, Sequence.closes r.1, hooks⟩ := by
      refine (hstep n).bind fun r written hP => .pure ⟨r.2, ?_, rfl⟩
      rwa [List.append_nil]
    obtain ⟨written, rfl, source', hP, hs⟩ := hwrites _ _ _ _ _ h
    exact ⟨source', hP, hs ▸ hrest⟩

variable {inner left right : Linked.Sequence}

end Pulled

/-- Pulls of two sides in turn: the right one is pulled once the left one has given an element. -/
inductive InTurn : List Touch → Prop
  | nil : InTurn []
  | left {t : Touch} (ht : t.side = .left) : InTurn [t]
  | both {t u : Touch} {touches : List Touch} (ht : t.side = .left) (hgave : t.gave = true)
    (hu : u.side = .right) (h : InTurn touches) : InTurn (t :: u :: touches)

namespace InTurn

variable {touches before after : List Touch}

theorem count (h : InTurn touches) (hbefore : before <+: touches) :
    before.countP (·.side = .right) ≤ before.countP (·.side = .left) ∧
      before.countP (·.side = .left) ≤ before.countP (·.side = .right) + 1 := by
  -- a prefix may end within a turn, after the pull of the left side
  induction h generalizing before with
  | nil =>
    obtain rfl := List.prefix_nil.mp hbefore
    exact ⟨le_refl _, Nat.le_succ _⟩
  | left ht =>
    cases before with
    | nil => exact ⟨le_refl _, Nat.le_succ _⟩
    | cons t' before =>
      obtain ⟨rfl, hrest⟩ := List.cons_prefix_cons.mp hbefore
      obtain rfl := List.prefix_nil.mp hrest
      simp [ht]
  | both ht _ hu _ ih =>
    match before with
    | [] => exact ⟨le_refl _, Nat.le_succ _⟩
    | [t'] =>
      obtain ⟨rfl, -⟩ := List.cons_prefix_cons.mp hbefore
      simp [ht]
    | t' :: u' :: before =>
      obtain ⟨rfl, hsecond⟩ := List.cons_prefix_cons.mp hbefore
      obtain ⟨rfl, hrest⟩ := List.cons_prefix_cons.mp hsecond
      have := ih hrest
      simp only [List.countP_cons, ht, hu]
      simp
      omega

end InTurn

end LazyCalc
