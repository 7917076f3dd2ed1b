import LazyCalc.Proofs.Arithmetic.Calculations
import LazyCalc.Proofs.Listing.Giving
/-!
From an exact start a counted progression gives as many elements as it counts, in closed form: the
sums with the multiples of the step, the products with the powers of the ratio, the powers of the
start. No step is taken after the last.
-/

namespace LazyCalc

namespace Counted

def element (start : Scalar) (value : Nat → ℚ) (k : Nat) : Scalar :=
  if k = 0 then start else .ofRat (value k)

def items (start : Scalar) (value : Nat → ℚ) (count : Nat) : List PlainItem :=
  (List.range count).map fun k => .ok (.scalar (element start value k))

section

variable {start : Scalar} {value : Nat → ℚ} {advance : Scalar → Except Failure Scalar}
  {pending : Pending} {count : Nat}

theorem exact_element (h : start.Exact (value 0)) (k : Nat) :
    (element start value k).Exact (value k) := by
  unfold element
  split
  · next hk => rwa [hk]
  · exact Scalar.exact_ofRat _

theorem element_succ (start : Scalar) (value : Nat → ℚ) (k : Nat) :
    element start value (k + 1) = element (.ofRat (value 1)) (fun k => value (k + 1)) k := by
  rw [element, if_neg k.succ_ne_zero, element]
  split
  · next hk => rw [hk]
  · rfl

theorem items_succ (start : Scalar) (value : Nat → ℚ) (count : Nat) :
    items start value (count + 1) =
      .ok (.scalar start) :: items (.ofRat (value 1)) (fun k => value (k + 1)) count := by
  simp only [items, map_range_succ, element_succ]
  rfl

theorem gives_of_steps (hstart : start.Exact (value 0))
    (hadvance : ∀ k a, a.Exact (value k) → advance a = .ok (.ofRat (value (k + 1))))
    (hpending : count ≠ 0 → pending = some (.ok start)) :
    (Generator.counted ⟨pending, count, advance⟩).Gives (items start value count) := by
  induction count generalizing start value pending with
  | zero => exact .ended rfl
  | succ count ih =>
    obtain rfl := hpending count.succ_ne_zero
    rw [items_succ]
    refine .given rfl (ih (Scalar.exact_ofRat _) (fun k => hadvance (k + 1)) fun hcount => ?_)
    exact (if_neg hcount).trans (congrArg some (hadvance 0 start hstart))

theorem gives_of_failing_step {e : Failure} (hadvance : advance start = .error e)
    (hcount : 2 ≤ count) :
    (Generator.counted ⟨some (.ok start), count, advance⟩).Gives
      [.ok (.scalar start), .error e] := by
  obtain ⟨count, rfl⟩ := Nat.exists_eq_add_of_le' hcount
  have hnext : next ⟨some (.ok start), count + 2, advance⟩ =
      (some (.ok start), ⟨some (.error e), count + 1, advance⟩) := by
    rw [next, ← hadvance]
    rfl
  have hgiven : (Generator.counted ⟨some (.ok start), count + 2, advance⟩).next =
      (some (.ok (.scalar start)), .counted ⟨some (.error e), count + 1, advance⟩) := by
    rw [Generator.next, hnext]
    rfl
  exact .given hgiven (.failed rfl)

end

section

variable {m : Type → Type} [Monad m]

/-- A pull whose step is taken in a monad. -/
def nextIn (step : Scalar → m (Except Failure Scalar)) (p : Counted) : m (Pending × Counted) :=
  match p.remaining with
  | 0 => pure (none, p)
  | remaining + 1 =>
    match p.pending with
    | some (.ok current) => do
      let pending ← if remaining = 0 then pure none else some <$> step current
      pure (some (.ok current), { p with remaining, pending })
    | pending => pure (pending, { p with remaining, pending := none })

theorem nextIn_pure [LawfulMonad m] (p : Counted) :
    p.nextIn (fun a => (pure (p.advance a) : m (Except Failure Scalar))) = pure p.next := by
  obtain ⟨pending, remaining, advance⟩ := p
  cases remaining with
  | zero => rfl
  | succ remaining =>
    rcases pending with _ | _ | current
    · rfl
    · rfl
    · unfold nextIn next
      dsimp only
      split <;> simp only [map_pure, pure_bind]

def pullsIn (step : Scalar → m (Except Failure Scalar)) : (n : Nat) → Counted → m (List Pending)
  | 0, _ => pure []
  | n + 1, p => do
    let (item, p) ← p.nextIn step
    return item :: (← pullsIn step n p)

end

def noting (advance : Scalar → Except Failure Scalar) (a : Scalar) :
    StateM (List Scalar) (Except Failure Scalar) := do
  modify (· ++ [a])
  pure (advance a)

def given (items : List Pending) : List Scalar :=
  items.filterMap fun
    | some (.ok a) => some a
    | _ => none

def stepped : Pending → (remaining : Nat) → List Scalar
  | some (.ok current), _ + 2 => [current]
  | _, _ => []

theorem nextIn_noting (advance : Scalar → Except Failure Scalar) (pending : Pending)
    (remaining : Nat) (noted : List Scalar) :
    (nextIn (noting advance) ⟨pending, remaining, advance⟩).run noted =
      (next ⟨pending, remaining, advance⟩, noted ++ stepped pending remaining) := by
  rcases pending with _ | _ | current <;> rcases remaining with _ | _ | remaining
  all_goals first
    | exact congrArg (Prod.mk _) (List.append_nil noted).symm
    | rfl

theorem given_nexts_none (advance : Scalar → Except Failure Scalar) (remaining n : Nat) :
    given (nexts next n ⟨none, remaining, advance⟩) = [] := by
  induction n generalizing remaining with
  | zero => rfl
  | succ n ih =>
    cases remaining with
    | zero => exact ih 0
    | succ remaining => exact ih remaining

theorem take_given_nexts_none (advance : Scalar → Except Failure Scalar) (remaining n k : Nat) :
    (given (nexts next n ⟨none, remaining, advance⟩)).take k = [] := by
  rw [given_nexts_none, List.take_nil]

theorem take_given_succ (advance : Scalar → Except Failure Scalar) (pending : Pending)
    (remaining n : Nat) :
    (given (nexts next (n + 1) ⟨pending, remaining, advance⟩)).take (remaining - 1) =
      stepped pending remaining ++
        (given (nexts next n (next ⟨pending, remaining, advance⟩).2)).take
          ((next ⟨pending, remaining, advance⟩).2.remaining - 1) := by
  cases remaining with
  | zero => rcases pending with _ | _ | current <;> rfl
  | succ remaining =>
    rcases pending with _ | e | current
    · exact (take_given_nexts_none advance remaining n _).trans
        (take_given_nexts_none advance remaining n _).symm
    · exact (take_given_nexts_none advance remaining n _).trans
        (take_given_nexts_none advance remaining n _).symm
    · cases remaining with
      | zero => rfl
      | succ remaining => rfl

theorem pullsIn_noting (advance : Scalar → Except Failure Scalar) (pending : Pending)
    (remaining n : Nat) (noted : List Scalar) :
    (pullsIn (noting advance) n ⟨pending, remaining, advance⟩).run noted =
      (nexts next n ⟨pending, remaining, advance⟩,
        noted ++ (given (nexts next n ⟨pending, remaining, advance⟩)).take (remaining - 1)) := by
  induction n generalizing pending remaining noted with
  | zero =>
    have hnone : (given []).take (remaining - 1) = [] := List.take_nil
    rw [nexts, hnone, List.append_nil]
    rfl
  | succ n ih =>
    have hadvance : (next ⟨pending, remaining, advance⟩).2.advance = advance := by
      rcases pending with _ | _ | current <;> cases remaining <;> rfl
    rw [pullsIn, StateT.run_bind, nextIn_noting, take_given_succ, ← List.append_assoc, nexts]
    generalize next ⟨pending, remaining, advance⟩ = after at hadvance
    obtain ⟨item, pending', remaining', _⟩ := after
    obtain rfl := hadvance
    exact congrArg (fun r => (item :: r.1, r.2))
      (ih pending' remaining' (noted ++ stepped pending remaining))

end Counted

namespace Draft

/-- As many scalars as there are to count, the start first and each the value of its place. -/
def GivesValues (d : Draft) (start : Scalar) (value : Nat → ℚ) (count : Nat) : Prop :=
  d.Gives (Counted.items start value count) ∧
    ∀ k, (Counted.element start value k).Exact (value k)

theorem givesValues_of_steps {start : Scalar} {value : Nat → ℚ}
    {advance : Scalar → Except Failure Scalar} (count : Nat) (hstart : start.Exact (value 0))
    (hadvance : ∀ k a, a.Exact (value k) → advance a = .ok (.ofRat (value (k + 1)))) :
    (Draft.counted ⟨some (.ok start), count, advance⟩).GivesValues start value count :=
  ⟨gives_of_generator (Counted.gives_of_steps hstart hadvance fun _ => rfl),
    Counted.exact_element hstart⟩

/-- From an exact start a counted progression gives its sums, products or powers in their order, as
many as it counts, and then ends. A power that cannot be taken is met after the start. In any number
of pulls the steps that are taken are those from the elements given, except from the last that is
counted, and a pull whose step does nothing else is the pull of the progression. -/
theorem counted_gives_values {start : Scalar} {p : ℚ} (hstart : start.Exact p) (count : Nat) :
    (∀ (step : Scalar) (d : ℚ), step.Exact d →
        (Draft.counted (.bySum start step count)).GivesValues start (fun k => p + k * d) count) ∧
      (∀ (ratio : Scalar) (r : ℚ), ratio.Exact r →
        (Draft.counted (.byProduct start ratio count)).GivesValues start (fun k => p * r ^ k) count) ∧
      (∀ e : Int, e.natAbs < UInt32.size → p ≠ 0 ∨ 0 ≤ e →
        (Draft.counted (.byPower start (.integer e) count)).GivesValues start (fun k => p ^ e ^ k)
          count) ∧
      (2 ≤ count → ∀ e : Int,
        (e.natAbs < UInt32.size → p = 0 → e < 0 →
          (Draft.counted (.byPower start (.integer e) count)).Gives
            [.ok (.scalar start), .error .divisionByZero]) ∧
        (UInt32.size ≤ e.natAbs →
          (Draft.counted (.byPower start (.integer e) count)).Gives
            [.ok (.scalar start), .error (.domain s!"exponent {e} is too large")])) ∧
      (∀ (advance : Scalar → Except Failure Scalar) (n : Nat),
        (Counted.pullsIn (Counted.noting advance) n ⟨some (.ok start), count, advance⟩).run [] =
          (nexts Counted.next n ⟨some (.ok start), count, advance⟩,
            (Counted.given (nexts Counted.next n ⟨some (.ok start), count, advance⟩)).take
              (count - 1))) ∧
      ∀ p : Counted, Id.run (p.nextIn fun a => pure (p.advance a)) = p.next := by
  refine ⟨fun step d hstep => ?_, fun ratio r hratio => ?_, fun e hsize he => ?_,
    fun hcount e => ⟨fun hsize hp he => ?_, fun hsize => ?_⟩, fun advance n => ?_,
    Counted.nextIn_pure⟩
  · refine givesValues_of_steps count (by simpa using hstart) fun k a ha => ?_
    rw [Scalar.add_exact ha hstep, Nat.cast_succ, add_mul, one_mul, add_assoc]
  · refine givesValues_of_steps count (by simpa using hstart) fun k a ha => ?_
    rw [Scalar.multiply_exact ha hratio, pow_succ, mul_assoc]
  · refine givesValues_of_steps count (by simpa using hstart) fun k a ha => ?_
    have hvalue : p ^ e ^ k ≠ 0 ∨ 0 ≤ e := he.imp_left (zpow_ne_zero _)
    rw [Scalar.power_exact ha hsize hvalue, pow_succ, zpow_mul]
  · subst hp
    exact gives_of_generator
      (Counted.gives_of_failing_step (Scalar.power_zero hstart hsize he) hcount)
  · exact gives_of_generator
      (Counted.gives_of_failing_step (Scalar.power_large hstart hsize) hcount)
  · exact Counted.pullsIn_noting advance (some (.ok start)) count n []

theorem counted_gives_values_squares :
    Scalar.Exact (.rational (-1 / 2)) (-1 / 2) ∧
      (Draft.counted (.byPower (.rational (-1 / 2)) (.integer (-2)) 3)).Gives
        (List.map (fun r => .ok (.scalar r))
          [.rational (-1 / 2), .integer 4, .rational (1 / 16)]) := by
  have hstart : Scalar.Exact (.rational (-1 / 2)) (-1 / 2) := rfl
  obtain ⟨-, -, hpower, -, -⟩ := counted_gives_values hstart 3
  have hitems : Counted.items (.rational (-1 / 2)) (fun k => (-1 / 2 : ℚ) ^ (-2 : Int) ^ k) 3 =
      List.map (fun r => .ok (.scalar r)) [.rational (-1 / 2), .integer 4, .rational (1 / 16)] := by
    with_unfolding_all rfl
  exact ⟨hstart, hitems ▸ (hpower (-2) (by decide) (.inl (by norm_num))).1⟩

end Draft

end LazyCalc
