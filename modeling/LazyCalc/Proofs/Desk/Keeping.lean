import LazyCalc.Proofs.Desk.Coupled
import LazyCalc.Proofs.Lone.Stable
import LazyCalc.Proofs.Engine.Places
/-!
What a run keeps of a store. Whatever is kept when branches are pulled, and by forks, drops, notes
and cells, is kept by every calculation.
-/

namespace LazyCalc

namespace Engine

/-- What holds of the store before holds of it after, if there is an after. -/
def Keeps (I : Store → Prop) {α : Type} (X : Engine α) : Prop :=
  ∀ st a st', I st → X st = .ok (a, st') → I st'

variable {I : Store → Prop} {α β : Type}

theorem Keeps.pure (a : α) : Keeps I (Pure.pure a) := by
  rintro st _ _ h ⟨⟩
  exact h

theorem Keeps.bind {X : Engine α} {f : α → Engine β} (hX : Keeps I X) (hf : ∀ a, Keeps I (f a)) :
    Keeps I (X >>= f) := by
  intro st b st' h hb
  obtain ⟨a, st₁, ha, hb⟩ := of_bind_ok hb
  exact hf a st₁ b st' (hX st a st₁ h ha) hb

theorem Keeps.fault (f : Fault) : Keeps I (fault f : Engine α) := by
  rintro st _ _ h ⟨⟩

end Engine

open Engine (Keeps)

/-- Something about stores that is kept by whatever gets at what is in them. -/
structure Store.Kept (I : Store → Prop) : Prop where
  fork : ∀ s, Keeps I (Sequence.fork s)
  drop : ∀ vs, Keeps I (Engine.dropValues vs)
  note : ∀ texts, Keeps I (Engine.note texts)
  keep : ∀ c, Keeps I (Engine.keep c)
  read : ∀ i, Keeps I (Engine.read i)
  retain : ∀ i, Keeps I (Engine.retain i)
  dismiss : ∀ i, Keeps I (Engine.dismiss i)
  branch : ∀ n, (∀ source : Linked.Source, Keeps I (source.step (Drive.ofFuel n))) →
    ∀ place, Keeps I (pullBranch (Drive.ofFuel n) place)

namespace Linked

instance : Paired Sequence Sequence Sequence := ⟨id, id⟩

end Linked

namespace Store.Kept

variable {I : Store → Prop}

def coupling (h : Kept I) (n : Nat) (hpull : ∀ s, Keeps I (Sequence.pull n s)) :
    Coupling Engine Engine Branch Nat Branch Nat Linked.Sequence Nat where
  Triple γ _ _ _ _ _ X _ _ := ∀ st a st', I st → X n st = .ok (a, st') →
    I st' ∧ ∃ c : γ, left c = a
  pure_parts c _ := by
    rintro st _ _ h ⟨⟩
    exact ⟨h, c, rfl⟩
  bind_parts := by
    intro γ α β γ' α' β' _ _ _ _ A B B' X Y f g hX hf st b st' h hb
    obtain ⟨a, st₁, ha, hb⟩ := Engine.of_bind_ok hb
    obtain ⟨h₁, c, rfl⟩ := hX st a st₁ h ha
    exact hf c st₁ b st' h₁ hb
  frame := fun _ h => h
  first := Drive.ofFuel
  second := Drive.ofFuel
  first_fuel _ := rfl
  second_fuel _ := rfl
  make := .ofSource
  left_make source hint := congrArg (LazyCalc.Sequence.ofSource · hint) (Source.map_id source).symm
  right_make source hint := congrArg (LazyCalc.Sequence.ofSource · hint) (Source.map_id source).symm
  made := fun _ _ h => h
  hinted := fun _ h => h rfl
  loop := by
    intro ι I₁ I₂ γ α β _ _ _ A B f g F G hf0 hf hg0 hg hturn i
    refine loop_of_turn n (T := fun _ (X : Nat → Engine α) _ => ∀ st a st', I st → X n st = .ok (a, st') →
      I st' ∧ ∃ c : γ, left c = a) ?_ ?_ hf hg hturn i
    · rintro i X X' Y Y' - hX - h
      rwa [← hX]
    · intro i X Y hX hY st a st' h ha
      rw [hX, hf0] at ha
      cases ha
  pull s := by
    rintro st ⟨item, s'⟩ st' h ha
    refine ⟨hpull s st _ st' h ha, (item, s'), ?_⟩
    rcases item with _ | e | v
    · rfl
    · rfl
    · exact congrArg (fun v => (some (Except.ok v), s')) (Tree.map_id v)
  fork s := fun st a st' hst ha => ⟨h.fork s st a st' hst ha, a, rfl⟩
  drop vs := fun st a st' hst ha => ⟨h.drop _ st a st' hst ha, a, rfl⟩
  note texts := fun st a st' hst ha => ⟨h.note texts st a st' hst ha, a, rfl⟩
  keep c := fun st a st' hst ha => ⟨h.keep _ st a st' hst ha, a, rfl⟩
  read k := fun st a st' hst ha => ⟨h.read k st a st' hst ha, a, Collection.map_id a⟩
  retain k := fun st a st' hst ha => ⟨h.retain k st a st' hst ha, a, rfl⟩
  dismiss k := fun st a st' hst ha => ⟨h.dismiss k st a st' hst ha, a, rfl⟩

theorem step_of_pull (h : Kept I) (n : Nat) (hpull : ∀ s, Keeps I (Sequence.pull n s))
    (source : Linked.Source) : Keeps I (source.step (Drive.ofFuel n)) := by
  intro st a st' hst ha
  rw [← Source.map_id source] at ha
  exact ((h.coupling n hpull).step source st a st' hst ha).1

theorem pull (h : Kept I) (n : Nat) (s : Linked.Sequence) : Keeps I (Sequence.pull n s) := by
  induction n generalizing s with
  | zero => exact .fault .outOfFuel
  | succ n ih =>
    have hstep := h.step_of_pull n ih
    obtain ⟨origin, hint, finished, hooks⟩ := s
    cases finished with
    | true => exact .pure _
    | false =>
      cases origin with
      | direct source => exact (hstep source).bind fun _ => .pure _
      | branch place => exact (h.branch n hstep place).bind fun _ => .pure _

theorem step (h : Kept I) (n : Nat) (source : Linked.Source) :
    Keeps I (source.step (Drive.ofFuel n)) :=
  h.step_of_pull n (h.pull n) source

theorem call (h : Kept I) (n : Nat) (name : String) (op : Operator) (vs : List Linked.Value) :
    Keeps I (op.call (Drive.ofFuel n) name vs) := by
  intro st a st' hst ha
  rw [← Tree.mapList_id vs] at ha
  exact ((h.coupling n (h.pull n)).call name op vs st a st' hst ha).1

theorem readWith (h : Kept I) (n : Nat) (kernel : Extent → Except Failure Plan)
    (c : Linked.Collection) : Keeps I (c.readWith (Drive.ofFuel n) kernel) := by
  intro st a st' hst ha
  rw [← Collection.map_id c] at ha
  exact ((h.coupling n (h.pull n)).readWith kernel c st a st' hst ha).1

variable {mark : Linked.Sequence → String → Linked.Sequence}

theorem act (h : Kept I) (n : Nat) (a : Act) (desk : Desk Branch Nat) :
    Keeps I (Desk.act (Drive.ofFuel n) mark a desk) := by
  cases a with
  | use tool numbers =>
    intro st r st' hst hr
    have hdesk : (left desk : Desk Branch Nat) = desk := by
      have hvalue : Tree.map (id : Linked.Sequence → Linked.Sequence) = id := funext Tree.map_id
      change desk.map (Option.map (Tree.map id)) = desk
      rw [hvalue, Option.map_id, List.map_id]
    rw [← hdesk] at hr
    exact ((h.coupling n (h.pull n)).use mark mark tool numbers desk st r st' hst hr).1
  | onClose number label =>
    simp only [Desk.act]
    split
    · exact .pure _
    · exact .pure _

theorem run (h : Kept I) (n : Nat) (acts : List (Nat × Act)) (desks : List (Desk Branch Nat)) :
    Keeps I (Desk.run (Drive.ofFuel n) mark acts desks) := by
  induction acts generalizing desks with
  | nil => exact .pure _
  | cons a acts ih =>
    obtain ⟨k, a⟩ := a
    refine Keeps.bind ?_ fun c => (ih c.2).bind fun _ => .pure _
    simp only [Desk.actAt]
    split
    · exact (h.act n a _).bind fun _ => .pure _
    · exact .pure _

end Store.Kept

end LazyCalc
