import LazyCalc.Proofs.Coupling.Call
import LazyCalc.Proofs.Lone.Telling
/-!
Calculations on lone sequences beside the same calculations: what comes out with some fuel is what
comes out with enough of it, and nothing hangs on what is told.
-/

namespace LazyCalc

open Filter

namespace Collection

theorem map_id {σ : Type} (c : Collection σ) : c.map id = c := by
  cases c with
  | list items => exact congrArg Collection.list (Tree.mapList_id items)
  | sequence s => rfl

end Collection

namespace Source

theorem map_id {σ κ : Type} (s : Source σ κ) : s.map id id = s := by
  have hleaf {α : Type} (leaf : Leaf κ α) : leaf.map id = leaf := by cases leaf <;> rfl
  have hitem : (Except.map (Tree.map id) : Except Failure (Tree σ) → _) = id := by
    funext x
    cases x with
    | error e => rfl
    | ok t => exact congrArg Except.ok (Tree.map_id t)
  cases s with
  | generated g => rfl
  | items remaining => rw [map, hitem, List.map_id]
  | mapped inner mapping =>
    cases mapping <;> simp only [map, Mapping.map, hleaf, id]
  | filtered inner test held invert => rw [map, Tree.mapList_id, id]
  | zipped left right pairing =>
    cases pairing <;> simp only [map, Pairing.map, hleaf, id]
  | window inner skip take => rfl

end Source

namespace Lone

instance : Paired Sequence Sequence Sequence := ⟨id, id⟩

instance : Paired Snapshot Snapshot Snapshot := ⟨id, id⟩

/-- The two sides of something, which are the same. -/
def Sides (γ : Type) {α β : Type} [Paired γ α β] (a : α) (b : β) : Prop :=
  ∃ c : γ, left c = a ∧ right c = b

/-- What is said of two families of computations with fuel `n`, and of what they come to. -/
structure Judgement (m₁ m₂ : Type → Type) [Monad m₁] [Monad m₂] (n : Nat) where
  Holds : {α β : Type} → (Nat → m₁ α) → (Nat → m₂ β) → (α → β → Prop) → Prop
  pure : ∀ {α β : Type} {P : α → β → Prop} {a : α} {b : β}, P a b →
    Holds (fun _ => Pure.pure a) (fun _ => Pure.pure b) P
  bind : ∀ {α β γ δ : Type} {P : α → β → Prop} {Q : γ → δ → Prop} {X : Nat → m₁ α}
    {Y : Nat → m₂ β} {f : Nat → α → m₁ γ} {g : Nat → β → m₂ δ}, Holds X Y P →
    (∀ a b, P a b → Holds (fun n => f n a) (fun n => g n b) Q) →
    Holds (fun n => X n >>= f n) (fun n => Y n >>= g n) Q
  congr : ∀ {α β : Type} {P : α → β → Prop} {X X' : Nat → m₁ α} {Y Y' : Nat → m₂ β},
    (∀ᶠ m in atTop, X m = X' m ∧ Y m = Y' m) → X n = X' n → Y n = Y' n → Holds X Y P →
    Holds X' Y' P
  mono : ∀ {α β : Type} {P Q : α → β → Prop} {X : Nat → m₁ α} {Y : Nat → m₂ β}, Holds X Y P →
    (∀ a b, P a b → Q a b) → Holds X Y Q

section

variable {m₁ m₂ : Type → Type} [Monad m₁] [Monad m₂] {n : Nat}

def Judgement.identical (J : Judgement m₁ m₂ n) (stuck₁ : {α : Type} → m₁ α)
    (stuck₂ : {α : Type} → m₂ α) (note₁ : List String → m₁ Unit) (note₂ : List String → m₂ Unit)
    (pull₁ : Nat → Sequence → m₁ (Option Item × Sequence))
    (pull₂ : Nat → Sequence → m₂ (Option Item × Sequence))
    (hstuck : ∀ {α β : Type} {P : α → β → Prop} {X : Nat → m₁ α} {Y : Nat → m₂ β},
      X n = stuck₁ → Y n = stuck₂ → J.Holds X Y P)
    (hnote : ∀ texts, J.Holds (fun _ => note₁ texts) (fun _ => note₂ texts) (Sides Unit))
    (hpull : ∀ s, J.Holds (fun m => pull₁ m s) (fun m => pull₂ m s) Eq) :
    Coupling m₁ m₂ Empty Snapshot Empty Snapshot Sequence Snapshot where
  Triple γ _ _ _ _ _ X Y _ := J.Holds X Y (Sides γ)
  pure_parts c _ := J.pure ⟨c, rfl, rfl⟩
  bind_parts := by
    intro γ α β γ' α' β' _ _ _ _ A B B' X Y f g hX hf
    refine J.bind hX ?_
    rintro a b ⟨c, rfl, rfl⟩
    exact hf c
  frame := fun _ h => h
  first m := .unshared stuck₁ note₁ m (pull₁ m)
  second m := .unshared stuck₂ note₂ m (pull₂ m)
  first_fuel _ := rfl
  second_fuel _ := rfl
  make := .ofSource
  left_make source hint := congrArg (LazyCalc.Sequence.ofSource · hint) (Source.map_id source).symm
  right_make source hint := congrArg (LazyCalc.Sequence.ofSource · hint) (Source.map_id source).symm
  made := fun _ _ h => h
  hinted := fun _ h => h rfl
  loop := by
    intro ι I₁ I₂ γ α β _ _ _ A B f g F G hf0 hf hg0 hg hturn i
    refine loop_of_turn n (T := fun _ X Y => J.Holds X Y (Sides γ)) ?_ ?_ hf hg hturn i
    · exact fun i X X' Y Y' he hX hY h => J.congr he hX hY h
    · exact fun i X Y hX hY => hstuck (hX.trans (hf0 n _)) (hY.trans (hg0 n _))
  pull s := by
    have hid (a : Option Item × Sequence) : (left a : Option Item × Sequence) = a := by
      rcases a with ⟨_ | e | v, s⟩
      · rfl
      · rfl
      · exact congrArg (fun v => (some (Except.ok v), s)) (Tree.map_id v)
    exact J.mono (hpull s) fun a b hab => ⟨a, hid a, (hid a).trans hab⟩
  fork s := J.pure ⟨(s, s), rfl, rfl⟩
  drop _ := J.pure ⟨(), rfl, rfl⟩
  note texts := hnote texts
  keep c := J.pure ⟨.of c, congrArg Snapshot.of (Collection.map_id c).symm,
    congrArg Snapshot.of (Collection.map_id c).symm⟩
  read k := J.pure ⟨k.collection, Collection.map_id _, Collection.map_id _⟩
  retain _ := J.pure ⟨(), rfl, rfl⟩
  dismiss _ := J.pure ⟨(), rfl, rfl⟩

end

/-- With fuel `n` on the one side and enough of it on the other. -/
def steadily (n : Nat) : Judgement Told Told n where
  Holds X Y P := Told.Leads n X Y P
  pure h := .pure h
  bind hX hf := hX.bind hf
  congr he hX _ h := h.congr hX (he.mono fun _ he => he.2)
  mono h hP := h.mono hP

def silently (n : Nat) : Judgement Told Option n where
  Holds X Y P := ∀ told, (X n told = none ∧ Y n = none) ∨
    ∃ a told' b, X n told = some (a, told') ∧ Y n = some b ∧ P a b
  pure h told := .inr ⟨_, told, _, rfl, rfl, h⟩
  bind := by
    intro α β γ δ P Q X Y f g hX hf told
    obtain ⟨hx, hy⟩ | ⟨a, told₁, b, hx, hy, hP⟩ := hX told
    · exact .inl ⟨Option.bind_eq_none_iff.mpr fun c hc => by simp [hx] at hc,
        Option.bind_eq_none_iff.mpr fun b hb => by simp [hy] at hb⟩
    · have hbind : (X n >>= f n) told = f n a told₁ := by
        change (X n told).bind _ = _
        rw [hx]
        rfl
      have hbind' : (Y n >>= g n) = g n b := by
        rw [hy]
        rfl
      simp only [hbind, hbind']
      exact hf a b hP told₁
  congr _ hX hY h told := by
    rw [← hX, ← hY]
    exact h told
  mono h hP told := (h told).imp_right fun ⟨a, told', b, hx, hy, hab⟩ =>
    ⟨a, told', b, hx, hy, hP a b hab⟩

theorem silently_succ {n : Nat} {α β : Type} {P : α → β → Prop} {X X' : Nat → Told α}
    {Y Y' : Nat → Option β} (h : (silently n).Holds X Y P) (hX : X' (n + 1) = X n)
    (hY : Y' (n + 1) = Y n) : (silently (n + 1)).Holds X' Y' P := by
  intro told
  rw [hX, hY]
  exact h told

def PullsStably (n : Nat) : Prop :=
  ∀ s : Sequence, Told.Leads n (fun m => (Drive.told m).pull s) (fun m => (Drive.told m).pull s) Eq

def steady (n : Nat) (hpull : PullsStably n) :
    Coupling Told Told Empty Snapshot Empty Snapshot Sequence Snapshot :=
  (steadily n).identical (fun _ => none) (fun _ => none) (fun texts => modify (· ++ texts))
    (fun texts => modify (· ++ texts)) LazyCalc.Sequence.pullTelling
    LazyCalc.Sequence.pullTelling
    (by
      intro α β P X Y hX _ told a told' ha
      rw [hX] at ha
      cases ha)
    (by
      rintro texts told ⟨⟩ told' ⟨⟩
      exact ⟨(), texts, rfl, .of_forall fun _ _ => rfl, (), rfl, rfl⟩)
    hpull

def PullsSilently (n : Nat) : Prop :=
  ∀ s : Sequence, (silently n).Holds (fun m => (Drive.told m).pull s)
    (fun m => (Drive.alone m).pull s) Eq

def silent (n : Nat) (hpull : PullsSilently n) :
    Coupling Told Option Empty Snapshot Empty Snapshot Sequence Snapshot :=
  (silently n).identical (fun _ => none) none (fun texts => modify (· ++ texts))
    (fun _ => pure ()) LazyCalc.Sequence.pullTelling LazyCalc.Sequence.pullAlone
    (fun hX hY told => .inl ⟨by rw [hX], hY⟩)
    (fun texts told => .inr ⟨(), told ++ texts, (), rfl, rfl, (), rfl, rfl⟩) hpull

theorem Sides.eq {γ α : Type} [Paired γ α α] {a b : α} (hsame : ∀ c : γ, (left c : α) = right c)
    (h : Sides γ a b) : a = b := by
  obtain ⟨c, rfl, rfl⟩ := h
  exact hsame c

theorem PullsStably.step {n : Nat} (h : PullsStably n) (source : Source) :
    Told.Leads n (fun m => source.step (Drive.told m)) (fun m => source.step (Drive.told m)) Eq := by
  have hstep := (steady n h).step source
  simp only [left, right, Source.map_id] at hstep
  exact Told.Leads.mono hstep fun a b => Sides.eq fun _ => rfl

theorem pullsStably (n : Nat) : PullsStably n := by
  induction n with
  | zero => rintro s told a told' ⟨⟩
  | succ n ih =>
    rintro ⟨origin, hint, finished, hooks⟩
    cases finished with
    | true => exact (Told.Leads.pure rfl).succ (fun _ => rfl) fun _ => rfl
    | false =>
      cases origin with
      | branch place => exact place.elim
      | direct source =>
        refine Told.Leads.succ (X := fun m => source.step (Drive.told m) >>= fun c =>
            pure (c.1, ⟨.direct c.2, hint, LazyCalc.Sequence.closes c.1, hooks⟩))
          ((ih.step source).bind ?_) (fun _ => rfl) fun _ => rfl
        rintro a _ rfl
        exact .pure rfl

theorem PullsSilently.step {n : Nat} (h : PullsSilently n) (source : Source) :
    (silently n).Holds (fun m => source.step (Drive.told m))
      (fun m => source.step (Drive.alone m)) Eq := by
  have hstep := (silent n h).step source
  simp only [left, right, Source.map_id] at hstep
  exact (silently n).mono hstep fun a b => Sides.eq fun _ => rfl

theorem pullsSilently (n : Nat) : PullsSilently n := by
  induction n with
  | zero => exact fun s told => .inl ⟨rfl, rfl⟩
  | succ n ih =>
    rintro ⟨origin, hint, finished, hooks⟩
    cases finished with
    | true => exact fun told => .inr ⟨_, told, _, rfl, rfl, rfl⟩
    | false =>
      cases origin with
      | branch place => exact place.elim
      | direct source =>
        refine silently_succ ((silently n).bind (f := fun _ c =>
            pure (c.1, (⟨.direct c.2, hint, LazyCalc.Sequence.closes c.1, hooks⟩ : Sequence)))
          (g := fun _ c =>
            pure (c.1, (⟨.direct c.2, hint, LazyCalc.Sequence.closes c.1, hooks⟩ : Sequence)))
          (ih.step source) (Q := Eq) ?_) rfl rfl
        rintro a _ rfl
        exact (silently n).pure rfl

theorem settles_iff {α : Type} {X : Nat → Told α} {Y : Nat → Option α} {a : α}
    (hX : ∀ n, Told.Leads n X X Eq) (hY : ∀ n, (silently n).Holds X Y Eq) :
    Settles Y a ↔ ∃ texts, Tells X a texts := by
  constructor
  · intro h
    obtain ⟨n, hn⟩ := h.exists
    obtain ⟨-, hy⟩ | ⟨b, told, c, hx, hy, rfl⟩ := hY n []
    · cases hy.symm.trans hn
    · obtain rfl := Option.some.inj (hy.symm.trans hn)
      obtain ⟨_, texts, -, ha, rfl⟩ := hX n [] b told hx
      exact ⟨texts, ha⟩
  · rintro ⟨texts, h⟩
    filter_upwards [h] with n hn
    obtain ⟨hx, -⟩ | ⟨b, told, c, hx, hy, rfl⟩ := hY n []
    · cases hx.symm.trans (hn [])
    · rw [hy, (Prod.mk.inj (Option.some.inj (hx.symm.trans (hn [])))).1]

/-- What comes out with some fuel comes out with enough of it. -/
theorem settles_of_some {α : Type} {X : Nat → Told α} {Y : Nat → Option α} {n : Nat} {a : α}
    (hX : ∀ n, Told.Leads n X X Eq) (hY : ∀ n, (silently n).Holds X Y Eq) (h : Y n = some a) :
    Settles Y a := by
  refine (settles_iff hX hY).mpr ?_
  obtain ⟨-, hy⟩ | ⟨b, told, c, hx, hy, rfl⟩ := hY n []
  · cases hy.symm.trans h
  · obtain rfl := Option.some.inj (hy.symm.trans h)
    obtain ⟨_, texts, -, ha, rfl⟩ := hX n [] b told hx
    exact ⟨texts, ha⟩

theorem settles_pull {n : Nat} {s : Sequence} {r : Option Item × Sequence}
    (h : (Drive.alone n).pull s = some r) : Settles (fun n => (Drive.alone n).pull s) r :=
  settles_of_some (fun n => pullsStably n s) (fun n => pullsSilently n s) h

theorem leads_call (name : String) (op : Operator) (vs : List Value) (n : Nat) :
    Told.Leads n (fun m => op.call (Drive.told m) name vs) (fun m => op.call (Drive.told m) name vs)
      Eq := by
  have hcall := (steady n (pullsStably n)).call name op vs
  simp only [left, right, Tree.mapList_id] at hcall
  exact Told.Leads.mono hcall fun a b => Sides.eq fun _ => rfl

theorem silently_call (name : String) (op : Operator) (vs : List Value) (n : Nat) :
    (silently n).Holds (fun m => op.call (Drive.told m) name vs)
      (fun m => op.call (Drive.alone m) name vs) Eq := by
  have hcall := (silent n (pullsSilently n)).call name op vs
  simp only [left, right, Tree.mapList_id] at hcall
  exact (silently n).mono hcall fun a b => Sides.eq fun _ => rfl

theorem settles_call {name : String} {op : Operator} {vs : List Value} {n : Nat} {x : Item}
    (h : op.call (Drive.alone n) name vs = some x) :
    Settles (fun n => op.call (Drive.alone n) name vs) x :=
  settles_of_some (leads_call name op vs) (silently_call name op vs) h

end Lone

end LazyCalc
