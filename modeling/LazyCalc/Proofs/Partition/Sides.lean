import LazyCalc.Proofs.Partition.Draws
/-!
The two sides of a test: a sequence filtered by it, and the same sequence filtered by its opposite.
Each element that the test decides comes out on one side, and both sides stop where the sequence
ends or fails or where the test does.
-/

namespace LazyCalc

open Filter

namespace Lone

def Sequence.side (s : Sequence) (test : Outline → Except Failure Bool) (kept : Bool) : Sequence :=
  LazyCalc.Sequence.filtered s test [] (!kept)

/-- What is pulled is no element that the test decides: the end, a failure, or an element that the
test fails on. -/
inductive Stops (test : Outline → Except Failure Bool) : Option Item → Option Failure → Prop
  | ended : Stops test none none
  | failed (e : Failure) : Stops test (some (.error e)) (some e)
  | undecided {v : Value} {e : Failure} (h : test v.outline = .error e) :
    Stops test (some (.ok v)) (some e)

/-- A side looks for its next element, and passes over those of the other. -/
inductive Finds (test : Outline → Except Failure Bool) (kept : Bool) :
    Sequence → Option Item → Sequence → Prop
  | found {s s' : Sequence} {v : Value}
    (h : Settles (fun n => (Drive.alone n).pull s) (some (.ok v), s'))
    (htest : test v.outline = .ok kept) : Finds test kept s (some (.ok v)) s'
  | passed {s s' s'' : Sequence} {v : Value} {x : Option Item}
    (h : Settles (fun n => (Drive.alone n).pull s) (some (.ok v), s'))
    (htest : test v.outline = .ok !kept) (hrest : Finds test kept s' x s'') :
    Finds test kept s x s''
  | stopped {s s' : Sequence} {x : Option Item} {f : Option Failure}
    (h : Settles (fun n => (Drive.alone n).pull s) (x, s')) (hstop : Stops test x f) :
    Finds test kept s (f.map .error) s'

variable {test : Outline → Except Failure Bool} {kept : Bool} {s s' t : Sequence} {x : Option Item}

section

variable {m : Type → Type} [Monad m] {ρ κ : Type} {d : LazyCalc.Drive m ρ κ}
  {v : LazyCalc.Value ρ κ}

theorem filterStep_kept (h : test v.outline = .ok kept) :
    filterStep d test (!kept) (.ok v) = pure (.halt (.ok v)) := by
  simp [filterStep, h]

theorem filterStep_other (h : test v.outline = .ok !kept) :
    filterStep d test (!kept) (.ok v) = (do d.drop [v]; pure (.onward ())) := by
  simp [filterStep, h]

theorem filterStep_undecided {e : Failure} (h : test v.outline = .error e) (invert : Bool) :
    filterStep d test invert (.ok v) = (do d.drop [v]; pure (.halt (.error e))) := by
  simp [filterStep, h]

end

def Sequence.sideAfter (s : Sequence) (test : Outline → Except Failure Bool) (kept : Bool)
    (x : Option Item) : Sequence :=
  ⟨.direct (.filtered s test [] (!kept)), .unknown, LazyCalc.Sequence.closes x, []⟩

def foundFlow : Option Item → Flow Unit Item
  | none => .onward ()
  | some x => .halt x

theorem Finds.walks (h : Finds test kept s x s') :
    ∃ texts, Walks (fun n _ => filterStep (Drive.told n) test (!kept)) () s (foundFlow x, s')
      texts := by
  induction h with
  | @found s s' v h htest =>
    obtain ⟨texts, hpull⟩ := settles_pull_iff.mp h
    have hvisit : Tells (fun n => filterStep (Drive.told n) test (!kept) (.ok v))
        (.halt (.ok v)) [] := by
      simp only [filterStep_kept htest]
      exact .pure _
    exact ⟨_, .halted hpull hvisit⟩
  | @passed s s' s'' v x h htest _ ih =>
    obtain ⟨texts, hpull⟩ := settles_pull_iff.mp h
    obtain ⟨texts', hwalk⟩ := ih
    have hvisit : Tells (fun n => filterStep (Drive.told n) test (!kept) (.ok v)) (.onward ())
        ([] ++ []) := by
      simp only [filterStep_other htest]
      exact (Tells.pure ()).bind (.pure _)
    exact ⟨_, .onward hpull hvisit hwalk⟩
  | stopped h hstop =>
    obtain ⟨texts, hpull⟩ := settles_pull_iff.mp h
    cases hstop with
    | ended => exact ⟨_, .ended hpull⟩
    | failed e =>
      have hvisit : Tells (fun n => filterStep (Drive.told n) test (!kept) (.error e))
          (.halt (.error e)) [] := .pure _
      exact ⟨_, .halted hpull hvisit⟩
    | @undecided v e htest =>
      have hvisit : Tells (fun n => filterStep (Drive.told n) test (!kept) (.ok v))
          (.halt (.error e)) ([] ++ []) := by
        simp only [filterStep_undecided htest]
        exact (Tells.pure ()).bind (.pure _)
      exact ⟨_, .halted hpull hvisit⟩

theorem Finds.settles (h : Finds test kept s x s') :
    Settles (fun n => (Drive.alone n).pull (s.side test kept)) (x, s'.sideAfter test kept x) := by
  obtain ⟨texts, hwalk⟩ := h.walks
  have hsource : Tells (fun n => (Source.filtered s test [] !kept).step (Drive.told n))
      (x, .filtered s' test [] !kept) (texts ++ []) := by
    refine hwalk.tells.bind ?_
    cases x <;> exact .pure _
  have hpull : Tells (fun n => (Drive.told (n + 1)).pull (s.side test kept))
      (x, s'.sideAfter test kept x) (texts ++ [] ++ []) := hsource.bind (.pure _)
  exact settles_pull_iff.mpr ⟨_, hpull.succ⟩

theorem finds_of_walkFor {n k : Nat} {flow : Flow Unit Item}
    (h : (Drive.alone n).walkFor (fun _ => filterStep (Drive.alone n) test (!kept)) k () s =
      some (flow, s')) : ∃ x, flow = foundFlow x ∧ Finds test kept s x s' := by
  induction k generalizing s with
  | zero => cases h
  | succ k ih =>
    obtain ⟨⟨x, s₁⟩, hpull, h⟩ := Option.bind_eq_some_iff.mp h
    have hsettles := settles_pull hpull
    match x with
    | none =>
      obtain ⟨rfl, rfl⟩ := Prod.mk.inj (Option.some.inj h)
      exact ⟨none, rfl, .stopped hsettles .ended⟩
    | some (.error e) =>
      obtain ⟨rfl, rfl⟩ := Prod.mk.inj (Option.some.inj h)
      exact ⟨some (.error e), rfl, .stopped hsettles (.failed e)⟩
    | some (.ok v) =>
      dsimp only at h
      cases htest : test v.outline with
      | error e =>
        rw [filterStep_undecided htest] at h
        obtain ⟨rfl, rfl⟩ := Prod.mk.inj (Option.some.inj h)
        exact ⟨some (.error e), rfl, .stopped hsettles (.undecided htest)⟩
      | ok b =>
        obtain rfl | rfl : b = kept ∨ b = !kept := by cases b <;> cases kept <;> simp
        · rw [filterStep_kept htest] at h
          obtain ⟨rfl, rfl⟩ := Prod.mk.inj (Option.some.inj h)
          exact ⟨some (.ok v), rfl, .found hsettles htest⟩
        · rw [filterStep_other htest] at h
          obtain ⟨x, rfl, hfinds⟩ := ih h
          exact ⟨x, rfl, .passed hsettles htest hfinds⟩

theorem settles_side_iff : Settles (fun n => (Drive.alone n).pull (s.side test kept)) (x, t) ↔
    ∃ s', Finds test kept s x s' ∧ t = s'.sideAfter test kept x := by
  constructor
  · intro h
    obtain ⟨n, hn, hle⟩ := (h.and (eventually_ge_atTop 1)).exists
    obtain ⟨k, rfl⟩ := Nat.exists_eq_succ_of_ne_zero (by omega : n ≠ 0)
    obtain ⟨⟨y, source⟩, hstep, hn⟩ := Option.bind_eq_some_iff.mp hn
    obtain ⟨⟨flow, s'⟩, hwalk, hstep⟩ := Option.bind_eq_some_iff.mp hstep
    obtain ⟨z, rfl, hfinds⟩ := finds_of_walkFor hwalk
    obtain ⟨rfl, rfl⟩ := Prod.mk.inj (Option.some.inj hn)
    cases z <;> obtain ⟨rfl, rfl⟩ := Prod.mk.inj (Option.some.inj hstep) <;> exact ⟨s', hfinds, rfl⟩
  · rintro ⟨s', hfinds, rfl⟩
    exact hfinds.settles

/-- Elements with what the test says of them, of one side. -/
def ofSide (kept : Bool) (vs : List (Value × Bool)) : List Value :=
  (vs.filter (·.2 == kept)).map Prod.fst

/-- What a side gives: its elements among those that the test decides, and where the sequence or the
test stops after these, the failure that it stops with, if there is one, and then nothing more. -/
inductive Portion (test : Outline → Except Failure Bool) (s : Sequence) (kept : Bool) :
    List (Option Item) → Prop
  | ongoing {vs : List (Value × Bool)} (hvs : ∀ v ∈ vs, test v.1.outline = .ok v.2)
    (h : Draws s (given (vs.map Prod.fst))) : Portion test s kept (given (ofSide kept vs))
  | stopped {vs : List (Value × Bool)} {x : Option Item} {f : Option Failure} (k : Nat)
    (hvs : ∀ v ∈ vs, test v.1.outline = .ok v.2) (hx : Stops test x f)
    (h : Draws s (given (vs.map Prod.fst) ++ [x])) :
    Portion test s kept (given (ofSide kept vs) ++ f.map .error :: List.replicate k none)

section

variable {v : Value} {vs : List (Value × Bool)} {f : Option Failure} {ys : List (Option Item)}

theorem ofSide_kept (v : Value) (vs : List (Value × Bool)) :
    ofSide kept ((v, kept) :: vs) = v :: ofSide kept vs := by
  simp [ofSide]

theorem ofSide_other (v : Value) (vs : List (Value × Bool)) :
    ofSide kept ((v, !kept) :: vs) = ofSide kept vs := by
  simp [ofSide]

namespace Portion

theorem found (h : Settles (fun n => (Drive.alone n).pull s) (some (.ok v), s'))
    (htest : test v.outline = .ok kept) (hrest : Portion test s' kept ys) :
    Portion test s kept (some (.ok v) :: ys) := by
  cases hrest with
  | @ongoing vs hvs hdraws =>
    have hall : Draws s (given (((v, kept) :: vs).map Prod.fst)) := .cons h hdraws
    have hportion : Portion test s kept _ :=
      .ongoing (List.forall_mem_cons.mpr ⟨htest, hvs⟩) hall
    rwa [ofSide_kept] at hportion
  | @stopped vs x f k hvs hx hdraws =>
    have hall : Draws s (given (((v, kept) :: vs).map Prod.fst) ++ [x]) := .cons h hdraws
    have hportion : Portion test s kept _ :=
      .stopped k (List.forall_mem_cons.mpr ⟨htest, hvs⟩) hx hall
    rwa [ofSide_kept] at hportion

theorem passed (h : Settles (fun n => (Drive.alone n).pull s) (some (.ok v), s'))
    (htest : test v.outline = .ok !kept) (hrest : Portion test s' kept ys) :
    Portion test s kept ys := by
  cases hrest with
  | @ongoing vs hvs hdraws =>
    have hall : Draws s (given (((v, !kept) :: vs).map Prod.fst)) := .cons h hdraws
    have hportion : Portion test s kept _ :=
      .ongoing (List.forall_mem_cons.mpr ⟨htest, hvs⟩) hall
    rwa [ofSide_other] at hportion
  | @stopped vs x f k hvs hx hdraws =>
    have hall : Draws s (given (((v, !kept) :: vs).map Prod.fst) ++ [x]) := .cons h hdraws
    have hportion : Portion test s kept _ :=
      .stopped k (List.forall_mem_cons.mpr ⟨htest, hvs⟩) hx hall
    rwa [ofSide_other] at hportion

end Portion

theorem closes_stop (f : Option Failure) :
    LazyCalc.Sequence.closes (f.map .error : Option Item) = true := by
  cases f <;> rfl

theorem Finds.portion (h : Finds test kept s x s')
    (hrest : ∀ s, Draws (s.side test kept) ys → Portion test s kept ys)
    (hdraws : Draws (s'.sideAfter test kept x) ys) : Portion test s kept (x :: ys) := by
  induction h with
  | found h htest => exact .found h htest (hrest _ hdraws)
  | passed h htest _ ih => exact .passed h htest (ih hdraws)
  | @stopped s s' x f h hstop =>
    obtain ⟨k, rfl⟩ := (Draws.finished_iff (closes_stop f)).mp hdraws
    exact @Portion.stopped test s kept [] x f k (List.forall_mem_nil _) hstop (.cons h (.nil s'))

theorem Draws.portion (h : Draws (s.side test kept) ys) : Portion test s kept ys := by
  induction ys generalizing s with
  | nil => exact @Portion.ongoing test s kept [] (List.forall_mem_nil _) (.nil s)
  | cons x ys ih =>
    cases h with
    | cons hpull hdraws =>
      obtain ⟨s', hfinds, rfl⟩ := settles_side_iff.mp hpull
      exact hfinds.portion (fun _ => ih) hdraws

theorem Draws.side_passed (h : Settles (fun n => (Drive.alone n).pull s) (some (.ok v), s'))
    (htest : test v.outline = .ok !kept) (hdraws : Draws (s'.side test kept) ys) :
    Draws (s.side test kept) ys := by
  cases hdraws with
  | nil => exact .nil _
  | cons hpull hrest =>
    obtain ⟨s'', hfinds, rfl⟩ := settles_side_iff.mp hpull
    exact .cons (Finds.passed h htest hfinds).settles hrest

theorem Draws.side_append {xs : List (Option Item)} (hvs : ∀ v ∈ vs, test v.1.outline = .ok v.2)
    (h : Draws s (given (vs.map Prod.fst) ++ xs))
    (hrest : ∀ s, Draws s xs → Draws (s.side test kept) ys) :
    Draws (s.side test kept) (given (ofSide kept vs) ++ ys) := by
  induction vs generalizing s with
  | nil => exact hrest s h
  | cons v vs ih =>
    obtain ⟨v, b⟩ := v
    obtain ⟨hv, hvs⟩ := List.forall_mem_cons.mp hvs
    cases h with
    | cons hpull hdraws =>
      have hside := ih hvs hdraws
      obtain rfl | rfl : b = kept ∨ b = !kept := by cases b <;> cases kept <;> simp
      · rw [ofSide_kept]
        exact .cons (Finds.found hpull hv).settles hside
      · rw [ofSide_other]
        exact hside.side_passed hpull hv

theorem draws_side_iff : Draws (s.side test kept) ys ↔ Portion test s kept ys := by
  constructor
  · exact Draws.portion
  · intro h
    cases h with
    | @ongoing vs hvs hdraws =>
      rw [← List.append_nil (given _)] at hdraws ⊢
      exact Draws.side_append hvs hdraws fun s _ => .nil _
    | @stopped vs x f k hvs hx hdraws =>
      refine Draws.side_append hvs hdraws fun s hstop => ?_
      cases hstop with
      | cons hpull _ =>
        exact .cons (Finds.stopped hpull hx).settles
          ((Draws.finished_iff (closes_stop f)).mpr ⟨k, rfl⟩)

end

end Lone

end LazyCalc
