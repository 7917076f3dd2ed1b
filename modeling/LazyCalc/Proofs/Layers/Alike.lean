import LazyCalc.Proofs.Broadcast.Grid
import LazyCalc.Proofs.Engine.Related
import LazyCalc.Proofs.Lone.Telling
/-!
Sequences and values that are alike. Two sequences are when pulling them over and over gives alike
elements, fails or ends alike, and tells the same. What is compared of two values may leave something
out: with every list of one element stripped, values are alike that differ in such layers only.
-/

namespace LazyCalc

open Filter

namespace Tree

variable {σ τ : Type}

theorem length_stripList (ts : List (Tree σ)) : (stripList ts).length = ts.length := by
  induction ts with
  | nil => rfl
  | cons t ts ih => rw [stripList, List.length_cons, ih, List.length_cons]

theorem strip_of_unwrap {t u : Tree σ} (h : t.unwrap = u) :
    (∃ x, u = .scalar x ∧ t.strip = .scalar x) ∨
      (∃ ts, u = .list ts ∧ t.strip = .list (stripList ts)) ∨
        ∃ s, u = .sequence s ∧ t.strip = .sequence s := by
  cases u with
  | scalar x => exact .inl ⟨x, rfl, by rw [← strip_unwrap, h, strip]⟩
  | list ts => exact .inr (.inl ⟨ts, rfl, strip_list_of_unwrap h⟩)
  | sequence s => exact .inr (.inr ⟨s, rfl, by rw [← strip_unwrap, h, strip]⟩)

theorem Rel.unwrapped {R : σ → τ → Prop} {t : Tree σ} {u : Tree τ} (h : Rel R t.strip u.strip) :
    (∃ x, t.unwrap = .scalar x ∧ u.unwrap = .scalar x) ∨
      (∃ ts us, t.unwrap = .list ts ∧ u.unwrap = .list us ∧
        RelList R (stripList ts) (stripList us)) ∨
      ∃ s s', t.unwrap = .sequence s ∧ u.unwrap = .sequence s' ∧ R s s' := by
  obtain ⟨x, ht, ht'⟩ | ⟨ts, ht, ht'⟩ | ⟨s, ht, ht'⟩ := strip_of_unwrap (rfl : t.unwrap = _) <;>
    obtain ⟨y, hu, hu'⟩ | ⟨us, hu, hu'⟩ | ⟨s', hu, hu'⟩ := strip_of_unwrap (rfl : u.unwrap = _) <;>
    rw [ht', hu'] at h
  case inl.inl => exact .inl ⟨x, ht, hu.trans (congrArg Tree.scalar (Eq.symm h))⟩
  case inr.inl.inr.inl => exact .inr (.inl ⟨ts, us, ht, hu, h⟩)
  case inr.inr.inr.inr => exact .inr (.inr ⟨s, s', ht, hu, h⟩)
  all_goals exact absurd h id

end Tree

namespace Lone

/-- What two pulls gave is alike in what `view` leaves of an element, and so is what is left. -/
inductive CameAlike (view : Value → Value) (R : Sequence → Sequence → Prop) :
    Option Item × Sequence → Option Item × Sequence → Prop
  | ended {s t : Sequence} (h : R s t) : CameAlike view R (none, s) (none, t)
  | failed {s t : Sequence} (e : Failure) (h : R s t) :
    CameAlike view R (some (.error e), s) (some (.error e), t)
  | gave {v w : Value} {s t : Sequence} (hv : Tree.Rel R (view v) (view w)) (h : R s t) :
    CameAlike view R (some (.ok v), s) (some (.ok w), t)

/-- Related sequences give what is alike at every pull. -/
def PullsAlike (view : Value → Value) (R : Sequence → Sequence → Prop) : Prop :=
  ∀ s t, R s t → s.hint = t.hint ∧
    TellAlike (fun n => (Drive.told n).pull s) (fun n => (Drive.told n).pull t) (CameAlike view R)

/-- Sequences that give what is alike, however long they are pulled. -/
def Sequence.Alike (view : Value → Value) (s t : Sequence) : Prop := ∃ R, PullsAlike view R ∧ R s t

/-- Values that are alike in what `view` leaves of them, and of the elements of their sequences. -/
def Value.Alike (view : Value → Value) (v w : Value) : Prop :=
  Tree.Rel (Sequence.Alike view) (view v) (view w)

variable {view : Value → Value} {R R' : Sequence → Sequence → Prop}

theorem CameAlike.mono (hR : ∀ s t, R s t → R' s t) {a b : Option Item × Sequence}
    (h : CameAlike view R a b) : CameAlike view R' a b := by
  cases h with
  | ended h => exact .ended (hR _ _ h)
  | failed e h => exact .failed e (hR _ _ h)
  | gave hv h => exact .gave (hv.mono hR) (hR _ _ h)

theorem pullsAlike (view : Value → Value) : PullsAlike view (Sequence.Alike view) := by
  rintro s t ⟨R, hR, h⟩
  exact ⟨(hR s t h).1, (hR s t h).2.mono fun _ _ => .mono fun _ _ h => ⟨R, hR, h⟩⟩

end Lone

end LazyCalc
