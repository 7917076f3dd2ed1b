import LazyCalc.Proofs.Engine.Closing
import LazyCalc.Proofs.Fanout.Turns
/-!
Pulling takes no labels away: those of a sequence stay with it, and those of what it reads with that,
also after the end and after a failure.
-/

namespace LazyCalc

mutual

/-- The labels of a sequence and of those that it reads, which all go when it is dropped. Its
elements take theirs along. -/
def Sequence.labels : Linked.Sequence → List String
  | ⟨origin, _, _, hooks⟩ => hooks ++ origin.labels

def Origin.labels : Linked.Origin → List String
  | .direct source => source.labels
  | .branch _ => []

def Source.labels : Linked.Source → List String
  | .generated _ | .items _ => []
  | .mapped inner _ => inner.labels
  | .filtered inner _ held _ => inner.labels ++ Tree.closingList held
  | .zipped left right _ => left.labels ++ right.labels
  | .window inner _ _ => inner.labels

end

section

variable {fuel : Nat} {pull : Linked.Sequence → Engine (Option Linked.Item × Linked.Sequence)}
  (hpull : ∀ {s s' : Linked.Sequence} {x : Option Linked.Item} {st st' : Store},
    pull s st = .ok ((x, s'), st') → s'.labels = s.labels)
  {s s' : Linked.Sequence} {st st' : Store}

include hpull

theorem Drive.labels_of_walkFor {β γ : Type} {visit : β → Linked.Item → Engine (Flow β γ)} {k : Nat}
    {state : β} {flow : Flow β γ}
    (h : (Drive.linked fuel pull).walkFor visit k state s st = .ok ((flow, s'), st')) :
    s'.labels = s.labels := by
  induction k generalizing state s st with
  | zero => cases h
  | succ k ih =>
    obtain ⟨⟨item, s₁⟩, st₁, hs, h⟩ := Engine.of_bind_ok h
    rw [← hpull hs]
    cases item with
    | none =>
      cases h
      rfl
    | some item =>
      obtain ⟨visited, st₂, -, h⟩ := Engine.of_bind_ok h
      cases visited with
      | onward state => exact ih h
      | halt result =>
        cases h
        rfl

theorem Sequence.labels_of_discard {k came seen : Nat}
    (h : s.discard (Drive.linked fuel pull) k came st = .ok ((seen, s'), st')) :
    s'.labels = s.labels := by
  induction k generalizing came s st with
  | zero =>
    cases h
    rfl
  | succ k ih =>
    obtain ⟨⟨item, s₁⟩, st₁, hs, h⟩ := Engine.of_bind_ok h
    rw [← hpull hs]
    cases item with
    | none =>
      cases h
      rfl
    | some item =>
      obtain ⟨_, st₂, -, h⟩ := Engine.of_bind_ok h
      exact ih h

theorem Source.labels_of_step {source source' : Linked.Source} {x : Option Linked.Item}
    (h : source.step (Drive.linked fuel pull) st = .ok ((x, source'), st')) :
    source'.labels = source.labels := by
  cases source with
  | generated g =>
    cases h
    rfl
  | items items =>
    cases items <;>
    · cases h
      rfl
  | mapped inner mapping =>
    obtain ⟨⟨_ | _ | v, inner'⟩, st₁, hinner, h⟩ := Engine.of_bind_ok h
    · cases h
      exact hpull hinner
    · cases h
      exact hpull hinner
    · obtain ⟨_, st₂, -, h⟩ := Engine.of_bind_ok h
      cases h
      exact hpull hinner
  | filtered inner test held invert =>
    obtain ⟨⟨_ | _, inner'⟩, st₁, hwalk, h⟩ := Engine.of_bind_ok h
    all_goals
      cases h
      exact congrArg (· ++ Tree.closingList held) (Drive.labels_of_walkFor hpull hwalk)
  | zipped left right pairing =>
    obtain ⟨⟨_ | _ | a, left'⟩, st₁, hleft, h⟩ := Engine.of_bind_ok h
    · cases h
      exact congrArg (· ++ right.labels) (hpull hleft)
    · cases h
      exact congrArg (· ++ right.labels) (hpull hleft)
    · obtain ⟨⟨_ | _ | b, right'⟩, st₂, hright, h⟩ := Engine.of_bind_ok h
      all_goals
        obtain ⟨_, st₃, -, h⟩ := Engine.of_bind_ok h
        cases h
        exact congrArg₂ (· ++ ·) (hpull hleft) (hpull hright)
  | window inner skip take =>
    cases take with
    | zero =>
      cases h
      rfl
    | succ take =>
      obtain ⟨⟨_, inner₁⟩, st₁, hdiscard, h⟩ := Engine.of_bind_ok h
      obtain ⟨⟨_, inner₂⟩, st₂, hinner, h⟩ := Engine.of_bind_ok h
      cases h
      exact (hpull hinner).trans (Sequence.labels_of_discard hpull hdiscard)

end

theorem Sequence.labels_of_pull {n : Nat} {s s' : Linked.Sequence} {x : Option Linked.Item}
    {st st' : Store} (h : Sequence.pull n s st = .ok ((x, s'), st')) :
    s'.hooks = s.hooks ∧ s'.labels = s.labels := by
  induction n generalizing s s' x st st' with
  | zero => cases h
  | succ n ih =>
    obtain ⟨origin, hint, finished, hooks⟩ := s
    cases finished with
    | true =>
      cases h
      exact ⟨rfl, rfl⟩
    | false =>
      cases origin with
      | direct source =>
        obtain ⟨⟨_, source'⟩, st₁, hstep, h⟩ := Engine.of_bind_ok h
        cases h
        exact ⟨rfl, congrArg (hooks ++ ·) (Source.labels_of_step (fun h => (ih h).2) hstep)⟩
      | branch place =>
        obtain ⟨_, st₁, -, h⟩ := Engine.of_bind_ok h
        cases h
        exact ⟨rfl, rfl⟩

theorem Shared.Pulls.labels {n i slot : Nat} {st st' : Store} {shared shared' : Shared}
    {x : Option Linked.Item} (h : shared.Pulls (Drive.ofFuel n) i slot st st' x shared') :
    shared'.hooks = shared.hooks ∧ shared'.source.labels = shared.source.labels := by
  have hpull {s s' : Linked.Sequence} {x : Option Linked.Item} {st st' : Store}
      (h : Sequence.pull n s st = .ok ((x, s'), st')) : s'.labels = s.labels :=
    (Sequence.labels_of_pull h).2
  cases h with
  | waiting => exact ⟨rfl, rfl⟩
  | drained => exact ⟨rfl, rfl⟩
  | ended _ _ hstep => exact ⟨rfl, Source.labels_of_step hpull hstep⟩
  | produced _ _ hstep => exact ⟨rfl, Source.labels_of_step hpull hstep⟩

theorem Store.labels_of_pullBranch {n i slot : Nat} {st st' : Store} {x : Option Linked.Item}
    (h : pullBranch (Drive.ofFuel n) ⟨i, slot⟩ st = .ok (x, st')) :
    ∃ shared shared', st.Shows i (.held shared) ∧ st'.Shows i (.held shared') ∧
      shared'.hooks = shared.hooks ∧ shared'.source.labels = shared.source.labels := by
  obtain ⟨shared, shared', hi, hpulls, hi'⟩ := of_pullBranch h
  exact ⟨shared, shared', hi, hi', hpulls.labels⟩

end LazyCalc
