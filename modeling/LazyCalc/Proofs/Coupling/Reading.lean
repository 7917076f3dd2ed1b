import LazyCalc.Proofs.Coupling.Total
namespace LazyCalc

section

variable {m : Type → Type} [Monad m] {ρ κ : Type} (d : Drive m ρ κ)

def Sequence.totalRows (total : Value ρ κ → m (Item ρ κ)) (row : Value ρ κ) (s : Sequence ρ κ) :
    m (Item ρ κ) := do
  match ← total row with
  | .ok made => s.convert d total [made]
  | .error e =>
    d.dropSequence s
    pure (.error e)

def Collection.totalTurn (finish : Scalar → Nat → Except Failure Scalar)
    (total : Nat × Collection (Sequence ρ κ) → m (Item ρ κ)) (i : Nat × Collection (Sequence ρ κ)) :
    m (Item ρ κ) := do
  if defaultLimit < i.1 then
    d.drop [i.2.toValue]
    pure (.error (.nestingTooDeep defaultLimit))
  else
    match ← d.pull i.2.toSequence with
    | (none, s) =>
      d.dropSequence s
      pure ((finish (.integer 0) 0).map .scalar)
    | (some (.error e), s) =>
      d.dropSequence s
      pure (.error e)
    | (some (.ok (.scalar x)), s) => s.addUp d finish x
    | (some (.ok row), s) => s.totalRows d (fun row => total (i.1 + 1, .ofValue row)) row

end

namespace Coupling

variable {m₁ m₂ : Type → Type} [Monad m₁] [Monad m₂] {ρ₁ κ₁ ρ₂ κ₂ σ κ : Type}
  [Paired σ (Sequence ρ₁ κ₁) (Sequence ρ₂ κ₂)] [Paired κ κ₁ κ₂]
  (C : Coupling m₁ m₂ ρ₁ κ₁ ρ₂ κ₂ σ κ)

section

variable {γ α β : Type} [Paired γ α β] [Parted σ κ γ] {A B : Parts σ κ} {X : Nat → m₁ α}
  {Y : Nat → m₂ β}

theorem wrapped (v : Tree σ)
    (h : ∀ s : σ, left s = Sequence.wrap (left v) → right s = Sequence.wrap (right v) →
      C.Triple γ (parts s + A) X Y B) : C.Triple γ (parts v + A) X Y B := by
  cases v with
  | scalar x =>
    refine C.of_eq (C.made (.items [.ok (.scalar x)]) (.exact 1) (h _ ?_ ?_)) (by simp) rfl
    · exact C.left_make _ _
    · exact C.right_make _ _
  | list items =>
    refine C.of_eq (C.made (.items (items.map .ok)) (.exact items.length) (h _ ?_ ?_)) (by simp) rfl
    · rw [C.left_make]
      change _ = Sequence.wrap (Tree.list (left items))
      rw [Sequence.wrap, Sequence.ofValues, ← left_items_ok, left_list items, List.length_map]
      rfl
    · rw [C.right_make]
      change _ = Sequence.wrap (Tree.list (right items))
      rw [Sequence.wrap, Sequence.ofValues, ← right_items_ok, right_list items, List.length_map]
      rfl
  | sequence s => exact h s rfl rfl

def ofDraft (d : Draft) : σ := C.make (.generated d.generator) d.hint

mutual

theorem drafted {A : Parts σ κ} (t : Template)
    (h : C.Triple γ (parts (t.map C.ofDraft) + A) X Y B) :
    C.Triple γ A X Y B := by
  cases t with
  | scalar x => exact C.of_eq h (by simp [Tree.map]) rfl
  | list ts => exact draftedList ts h
  | sequence d => exact C.of_eq (C.made (.generated d.generator) d.hint h) (by simp) rfl

theorem draftedList {A : Parts σ κ} (ts : List Template)
    (h : C.Triple γ (parts (Tree.mapList C.ofDraft ts) + A) X Y B) : C.Triple γ A X Y B := by
  cases ts with
  | nil => exact C.of_eq h (by simp [Tree.mapList]) rfl
  | cons t ts =>
    refine draftedList ts (drafted t ?_)
    exact C.of_eq h (by simp [Tree.mapList, add_assoc]) rfl

end

theorem templated (t : Template)
    (h : ∀ v : Tree σ, left v = Value.ofTemplate t → right v = Value.ofTemplate t →
      C.Triple γ (parts v + A) X Y B) : C.Triple γ A X Y B := by
  refine C.drafted t (h _ ?_ ?_)
  · change Tree.map left (Tree.map C.ofDraft t) = _
    rw [Tree.map_map, Value.ofTemplate]
    congr 1
    funext d
    exact C.left_make _ _
  · change Tree.map right (Tree.map C.ofDraft t) = _
    rw [Tree.map_map, Value.ofTemplate]
    congr 1
    funext d
    exact C.right_make _ _

mutual

theorem outlined {A : Parts σ κ} (v : Tree σ)
    (h : Value.outline (left v) = Value.outline (right v) → C.Triple γ (parts v + A) X Y B) :
    C.Triple γ (parts v + A) X Y B := by
  cases v with
  | scalar x => exact h rfl
  | list items => exact outlinedList items fun hi => h (congrArg Tree.list hi)
  | sequence s => exact C.hinted s fun hs => h (congrArg Tree.sequence hs)

theorem outlinedList {A : Parts σ κ} (vs : List (Tree σ))
    (h : Tree.mapList Sequence.hint (left vs) = Tree.mapList Sequence.hint (right vs) →
      C.Triple γ (parts vs + A) X Y B) : C.Triple γ (parts vs + A) X Y B := by
  cases vs with
  | nil => exact h rfl
  | cons v vs =>
    refine C.of_eq (outlined v fun hv => ?_) (by rw [parts_cons, add_assoc]) rfl
    refine C.of_eq (outlinedList (A := parts v + A) vs fun hvs => ?_) (by abel) rfl
    exact C.of_eq (h (congrArg₂ List.cons hv hvs)) (by rw [parts_cons]; abel) rfl

end

theorem extended (c : Collection σ)
    (h : (left c).extent = (right c).extent → C.Triple γ (parts c + A) X Y B) :
    C.Triple γ (parts c + A) X Y B := by
  cases c with
  | list items =>
    refine h ?_
    change Extent.list (left items).length = Extent.list (right items).length
    rw [left_list, right_list, List.length_map, List.length_map]
  | sequence s => exact C.hinted s fun hs => h (congrArg Extent.sequence hs)

end

theorem dropCollection (c : Collection σ) :
    C.Triple Unit (parts c) (fun n => (C.first n).drop [(left c).toValue])
      (fun n => (C.second n).drop [(right c).toValue]) 0 := by
  cases c with
  | list items => exact C.of_eq (C.drop [Tree.list items]) (by simp [Collection.toValue]) rfl
  | sequence s => exact C.of_eq (C.drop [Tree.sequence s]) (by simp [Collection.toValue]) rfl

theorem collected {γ α β : Type} [Paired γ α β] [Parted σ κ γ] {A B : Parts σ κ}
    {X : Nat → m₁ α} {Y : Nat → m₂ β} (c : Collection σ)
    (h : ∀ s : σ, left s = (left c).toSequence → right s = (right c).toSequence →
      C.Triple γ (parts s + A) X Y B) : C.Triple γ (parts c + A) X Y B := by
  cases c with
  | list items => exact C.wrapped (Tree.list items) h
  | sequence s => exact h s rfl rfl

theorem addStep (sum : Scalar × Nat) (x : Except Failure (Tree σ)) :
    C.Triple (Flow (Scalar × Nat) Failure) (parts sum + parts x + 0)
      (fun n => Sequence.addStep (C.first n) (left sum) (left x))
      (fun n => Sequence.addStep (C.second n) (right sum) (right x)) 0 := by
  obtain ⟨sum, count⟩ := sum
  have hother (v : Tree σ) : C.Triple (Flow (Scalar × Nat) Failure) (parts v)
      (fun n => do
        (C.first n).drop [left v]
        pure (.halt (.type s!"Cannot add a {(left v).typeName} to a running total")))
      (fun n => do
        (C.second n).drop [right v]
        pure (.halt (.type s!"Cannot add a {(right v).typeName} to a running total"))) 0 := by
    refine C.bind 0 (C.drop [v]) (by simp) fun _ => ?_
    simp only [show (left v).typeName = v.typeName from Tree.typeName_map left v,
      show (right v).typeName = v.typeName from Tree.typeName_map right v]
    exact C.pure (Flow.halt (.type s!"Cannot add a {v.typeName} to a running total") :
      Flow (Scalar × Nat) Failure) (by simp)
  cases x with
  | error e => exact C.pure (Flow.halt e : Flow (Scalar × Nat) Failure) (by simp)
  | ok v =>
    cases v with
    | scalar x =>
      change C.Triple _ _ (fun n => Sequence.addStep (C.first n) (sum, count) (.ok (.scalar x)))
        (fun n => Sequence.addStep (C.second n) (sum, count) (.ok (.scalar x))) _
      simp only [Sequence.addStep]
      cases sum.add x with
      | error e => exact C.pure (Flow.halt e : Flow (Scalar × Nat) Failure) (by simp)
      | ok total =>
        exact C.pure (Flow.onward (total, count + 1) : Flow (Scalar × Nat) Failure) (by simp)
    | list items => exact C.of_eq (hother (.list items)) (by simp) rfl
    | sequence s => exact C.of_eq (hother (.sequence s)) (by simp) rfl

theorem plainScalar (r : Except Failure Scalar) :
    C.Triple (Except Failure (Tree σ)) 0 (fun _ => pure (r.map .scalar))
      (fun _ => pure (r.map .scalar)) 0 := by
  cases r with
  | error e => exact C.refuse e
  | ok x => exact C.pure (Except.ok (Tree.scalar x) : Except Failure (Tree σ)) (by simp)

theorem addUp (finish : Scalar → Nat → Except Failure Scalar) (start : Scalar) (s : σ) :
    C.Triple (Except Failure (Tree σ)) (parts s)
      (fun n => (left s).addUp (C.first n) finish start)
      (fun n => (right s).addUp (C.second n) finish start) 0 := by
  refine C.bind 0 (C.walk 0 C.addStep (start, 1) s) (by simp) ?_
  rintro ⟨⟨total, count⟩ | e, s⟩
  · refine C.bind 0 (C.dropSequence s) (by simp) fun _ => ?_
    exact C.of_eq (C.plainScalar (finish total count)) (by simp) rfl
  · refine C.bind 0 (C.dropSequence s) (by simp) fun _ => ?_
    exact C.of_eq (C.refuse e) (by simp) rfl

theorem totalRows {f : Nat → Value ρ₁ κ₁ → m₁ (Item ρ₁ κ₁)} {g : Nat → Value ρ₂ κ₂ → m₂ (Item ρ₂ κ₂)}
    (h : ∀ v : Tree σ, C.Triple (Except Failure (Tree σ)) (parts v) (fun n => f n (left v))
      (fun n => g n (right v)) 0) (v : Tree σ) (s : σ) :
    C.Triple (Except Failure (Tree σ)) (parts v + parts s)
      (fun n => (left s).totalRows (C.first n) (f n) (left v))
      (fun n => (right s).totalRows (C.second n) (g n) (right v)) 0 := by
  refine C.bind (parts s) (h v) rfl ?_
  rintro (e | made)
  · refine C.bind 0 (C.dropSequence s) (by simp) fun _ => ?_
    exact C.of_eq (C.refuse e) (by simp) rfl
  · exact C.of_eq (C.convert h [made] s) (by simp) rfl

theorem total (finish : Scalar → Nat → Except Failure Scalar) (depth : Nat) (c : Collection σ) :
    C.Triple (Except Failure (Tree σ)) (parts c)
      (fun n => (left c).total (C.first n) finish n depth)
      (fun n => (right c).total (C.second n) finish n depth) 0 := by
  refine C.loop (ι := Nat × Collection σ) (γ := Except Failure (Tree σ)) (A := fun i => parts i.2)
    (B := fun _ => 0) (f := fun n k i => i.2.total (C.first n) finish k i.1)
    (g := fun n k i => i.2.total (C.second n) finish k i.1)
    (fun n => Collection.totalTurn (C.first n) finish)
    (fun n => Collection.totalTurn (C.second n) finish)
    (fun _ _ => rfl) (fun _ _ _ => rfl) (fun _ _ => rfl) (fun _ _ _ => rfl) ?_ (depth, c)
  rintro f g ih ⟨depth, c⟩
  change C.Triple _ _ (fun _ => ite (defaultLimit < depth) _ _)
    (fun _ => ite (defaultLimit < depth) _ _) _
  split
  · refine C.bind 0 (C.dropCollection c) (by simp) fun _ => ?_
    exact C.of_eq (C.refuse _) (by simp) rfl
  · refine C.of_eq (C.collected (A := 0) c fun s hl hr => ?_) (by simp) rfl
    have hpull := C.pull s
    rw [hl, hr] at hpull
    have hrow (v : Tree σ) : C.Triple (Except Failure (Tree σ)) (parts v)
        (fun n => f n (depth + 1, .ofValue (left v))) (fun n => g n (depth + 1, .ofValue (right v)))
        0 := by
      cases v with
      | scalar x => exact ih (depth + 1, .list [.scalar x])
      | list items => exact ih (depth + 1, .list items)
      | sequence s => exact ih (depth + 1, .sequence s)
    refine C.bind 0 hpull (by simp) ?_
    rintro ⟨_ | e | v, s⟩
    · refine C.bind 0 (C.dropSequence s) (by simp) fun _ => ?_
      exact C.of_eq (C.plainScalar (finish (.integer 0) 0)) (by simp) rfl
    · refine C.bind 0 (C.dropSequence s) (by simp) fun _ => ?_
      exact C.of_eq (C.refuse e) (by simp) rfl
    · cases v with
      | scalar x => exact C.of_eq (C.addUp finish x s) (by simp) rfl
      | list items => exact C.of_eq (C.totalRows hrow (.list items) s) (by simp) rfl
      | sequence t => exact C.of_eq (C.totalRows hrow (.sequence t) s) (by simp) rfl

section

variable {step₁ : Nat → Nat → Item ρ₁ κ₁ → m₁ (Flow Nat Failure)}
  {step₂ : Nat → Nat → Item ρ₂ κ₂ → m₂ (Flow Nat Failure)}

theorem countWith (h : ∀ (seen : Nat) (x : Except Failure (Tree σ)), C.Triple (Flow Nat Failure)
      (parts seen + parts x + 0) (fun n => step₁ n (left seen) (left x))
      (fun n => step₂ n (right seen) (right x)) 0) (s : σ) :
    C.Triple (Except Failure (Tree σ)) (parts s)
      (fun n => (left s).countWith (C.first n) (step₁ n))
      (fun n => (right s).countWith (C.second n) (step₂ n)) 0 := by
  refine C.bind 0 (C.walk 0 h 0 s) (by simp) ?_
  rintro ⟨seen | e, s⟩
  · refine C.bind 0 (C.dropSequence s) (by simp) fun _ => ?_
    exact C.pure (Except.ok (Tree.scalar (.integer seen)) : Except Failure (Tree σ)) (by simp)
  · refine C.bind 0 (C.dropSequence s) (by simp) fun _ => ?_
    exact C.of_eq (C.refuse e) (by simp) rfl

end

theorem countStep (seen : Nat) (x : Except Failure (Tree σ)) :
    C.Triple (Flow Nat Failure) (parts seen + parts x + 0)
      (fun n => Sequence.countStep (C.first n) (left seen) (left x))
      (fun n => Sequence.countStep (C.second n) (right seen) (right x)) 0 := by
  cases x with
  | error e => exact C.pure (Flow.halt e : Flow Nat Failure) (by simp)
  | ok v =>
    refine C.bind 0 (C.drop [v]) (by simp) fun _ => ?_
    exact C.pure (Flow.onward (seen + 1) : Flow Nat Failure) (by simp)

theorem tallyStep (seen : Nat) (x : Except Failure (Tree σ)) :
    C.Triple (Flow Nat Failure) (parts seen + parts x + 0)
      (fun n => Sequence.tallyStep (C.first n) (left seen) (left x))
      (fun n => Sequence.tallyStep (C.second n) (right seen) (right x)) 0 := by
  refine C.bind 0 (C.dropItem x) (by simp) fun _ => ?_
  exact C.pure (Flow.onward (seen + 1) : Flow Nat Failure) (by simp)

theorem parts_take_drop (n : Nat) (ts : List (Tree σ)) :
    (parts ts : Parts σ κ) = parts (ts.take n) + parts (ts.drop n) := by
  conv => lhs; rw [← List.take_append_drop n ts]
  exact parts_append _ _

theorem parts_eraseIdx (ts : List (Tree σ)) {n : Nat} {t : Tree σ} (h : ts[n]? = some t) :
    (parts ts : Parts σ κ) = parts t + parts (ts.eraseIdx n) := by
  obtain ⟨hn, rfl⟩ := List.getElem?_eq_some_iff.mp h
  rw [parts_take_drop n ts, List.drop_eq_getElem_cons hn, List.eraseIdx_eq_take_drop_succ,
    parts_append, parts_cons]
  abel

theorem element (place : Nat) (c : Collection σ) :
    C.Triple (Except Failure (Tree σ)) (parts c)
      (fun n => (left c).element (C.first n) place)
      (fun n => (right c).element (C.second n) place) 0 := by
  cases c with
  | list items =>
    have hget {τ : Type} (f : σ → τ) : (Tree.mapList f items)[place]? =
        items[place]?.map (Tree.map f) := by
      rw [Tree.mapList_eq_map, List.getElem?_map]
    have hlength {τ : Type} (f : σ → τ) : (Tree.mapList f items).length = items.length := by
      rw [Tree.mapList_eq_map, List.length_map]
    have herase {τ : Type} (f : σ → τ) : (Tree.mapList f items).eraseIdx place =
        Tree.mapList f (items.eraseIdx place) := by
      rw [Tree.mapList_eq_map, Tree.mapList_eq_map, List.eraseIdx_map]
    change C.Triple _ _ (fun n => (Collection.list (Tree.mapList left items)).element (C.first n) place)
      (fun n => (Collection.list (Tree.mapList right items)).element (C.second n) place) _
    simp only [Collection.element, hget]
    cases hv : items[place]? with
    | none =>
      refine C.bind 0 (C.drop items) (by simp [Collection.toValue]) fun _ => ?_
      rw [hlength, hlength]
      exact C.of_eq (C.refuse _) (by simp) rfl
    | some v =>
      dsimp only [Option.map]
      rw [herase, herase]
      refine C.bind (parts v) (C.drop (items.eraseIdx place)) ?_ fun _ => ?_
      · simp only [parts_collection, Collection.toValue, parts_list, parts_eraseIdx items hv]
        abel
      · exact C.pure (Except.ok v : Except Failure (Tree σ)) (by simp)
  | sequence s =>
    refine C.bind 0 (C.index place s) (by simp [Collection.toValue]) ?_
    rintro ⟨result, s⟩
    refine C.bind (parts result) (C.dropSequence s) (by simp; abel) fun _ => ?_
    exact C.pure result (by simp)

theorem newSequence (source : Source σ κ) {hint hint' : Hint} (h : hint = hint') :
    C.Triple (Except Failure (Tree σ)) (parts source)
      (fun _ => pure (.ok (.sequence (.ofSource (left source) hint))))
      (fun _ => pure (.ok (.sequence (.ofSource (right source) hint')))) 0 := by
  subst h
  refine C.of_eq (C.made (A := 0) source hint ?_) (by simp) rfl
  rw [← C.left_make, ← C.right_make]
  exact C.pure (Except.ok (Tree.sequence (C.make source hint)) : Except Failure (Tree σ)) (by simp)

theorem windowOf (start count : Nat) (c : Collection σ) :
    C.Triple (Except Failure (Tree σ)) (parts c)
      (fun n => (left c).window (C.first n) start count)
      (fun n => (right c).window (C.second n) start count) 0 := by
  cases c with
  | list items =>
    change C.Triple _ _
      (fun n => Collection.window (C.first n) start count (.list (Tree.mapList left items)))
      (fun n => Collection.window (C.second n) start count (.list (Tree.mapList right items))) _
    simp only [Collection.window, Tree.mapList_eq_map, ← List.map_take, ← List.map_drop]
    simp only [← Tree.mapList_eq_map]
    refine C.bind (parts (items.drop start)) (C.drop (items.take start)) ?_ fun _ => ?_
    · simp only [parts_collection, Collection.toValue, parts_list, ← parts_take_drop]
    refine C.bind (parts ((items.drop start).take count)) (C.drop ((items.drop start).drop count)) ?_
      fun _ => ?_
    · simp only [parts_unit, parts_take_drop count (items.drop start)]
      abel
    · exact C.pure (Except.ok (Tree.list ((items.drop start).take count)) :
        Except Failure (Tree σ)) (by simp)
  | sequence s =>
    refine C.of_eq (C.hinted (A := 0) s fun hs => ?_) (by simp [Collection.toValue]) rfl
    exact C.of_eq (C.newSequence (.window s start count) (by rw [hs])) (by simp) rfl

theorem plain (t : Plain) :
    C.Triple (Except Failure (Tree σ)) 0 (fun _ => pure (.ok (.ofPlain t)))
      (fun _ => pure (.ok (.ofPlain t))) 0 := by
  rw [← Tree.map_ofPlain (left : σ → _) t, ← Tree.map_ofPlain (right : σ → _) t]
  exact C.pure (Except.ok (Tree.ofPlain t) : Except Failure (Tree σ)) (by simp)

theorem each (f : Outline → Except Failure Plain) (c : Collection σ) :
    C.Triple (Except Failure (Tree σ)) (parts c) (fun n => (left c).each (C.first n) f)
      (fun n => (right c).each (C.second n) f) 0 := by
  have hstep (v : Tree σ) : C.Triple (Except Failure (Tree σ)) (parts v)
      (fun n => do
        let made := f (Value.outline (left v))
        (C.first n).drop [left v]
        pure (made.map Tree.ofPlain))
      (fun n => do
        let made := f (Value.outline (right v))
        (C.second n).drop [right v]
        pure (made.map Tree.ofPlain)) 0 := by
    refine C.of_eq (C.outlined (A := 0) v fun hv => ?_) (by simp) rfl
    simp only [hv]
    refine C.bind 0 (C.drop [v]) (by simp) fun _ => ?_
    cases f (Value.outline (right v)) with
    | error e => exact C.of_eq (C.refuse e) (by simp) rfl
    | ok t => exact C.of_eq (C.plain t) (by simp) rfl
  refine C.of_eq (C.collected (A := 0) c fun s hl hr => ?_) (by simp) rfl
  simp only [Collection.each, ← hl, ← hr]
  exact C.of_eq (C.convert hstep [] s) (by simp) rfl

theorem perform (reading : Reading) (c : Collection σ) :
    C.Triple (Except Failure (Tree σ)) (parts c)
      (fun n => (left c).perform (C.first n) reading)
      (fun n => (right c).perform (C.second n) reading) 0 := by
  cases reading with
  | constant v =>
    refine C.bind 0 (C.dropCollection c) (by simp) fun _ => ?_
    exact C.of_eq (C.plain v) (by simp) rfl
  | element place => exact C.element place c
  | window start count => exact C.windowOf start count c
  | gather start count =>
    refine C.of_eq (C.collected (A := 0) c fun s hl hr => ?_) (by simp) rfl
    simp only [Collection.perform, ← hl, ← hr]
    exact C.of_eq (C.spend start count s) (by simp) rfl
  | each f => exact C.each f c
  | count =>
    refine C.of_eq (C.collected (A := 0) c fun s hl hr => ?_) (by simp) rfl
    simp only [Collection.perform, ← hl, ← hr]
    exact C.of_eq (C.countWith C.countStep s) (by simp) rfl
  | tally =>
    refine C.of_eq (C.collected (A := 0) c fun s hl hr => ?_) (by simp) rfl
    simp only [Collection.perform, ← hl, ← hr]
    exact C.of_eq (C.countWith C.tallyStep s) (by simp) rfl
  | total finish =>
    simp only [Collection.perform, C.first_fuel, C.second_fuel]
    exact C.total finish 0 c
  | whole =>
    have hvalue {τ : Type} (f : σ → τ) : (c.map f).toValue = c.toValue.map f := by cases c <;> rfl
    have := C.pure (A := parts c) (B := 0) (Except.ok c.toValue : Except Failure (Tree σ)) (by simp)
    simp only [Collection.perform, left, right, hvalue]
    exact this
  | twice =>
    refine C.bind 0 (C.copyCollection (f := fun n => (C.first n).fork) (g := fun n => (C.second n).fork) C.fork c) (by simp) ?_
    rintro ⟨c, c'⟩
    have hvalue {τ : Type} (f : σ → τ) (c : Collection σ) : (c.map f).toValue = c.toValue.map f := by cases c <;> rfl
    have := C.pure (A := parts (c, c') + (0 + 0)) (B := 0) (Except.ok (Tree.list [c'.toValue, c.toValue]) : Except Failure (Tree σ)) (by simp; abel)
    simp only [left, right, hvalue]
    exact this

theorem readWith (kernel : Extent → Except Failure Plan) (c : Collection σ) :
    C.Triple (Except Failure (Tree σ)) (parts c)
      (fun n => (left c).readWith (C.first n) kernel)
      (fun n => (right c).readWith (C.second n) kernel) 0 := by
  refine C.of_eq (C.extended (A := 0) c fun hc => ?_) (by simp) rfl
  simp only [Collection.readWith, hc]
  cases kernel (right c).extent with
  | error e =>
    refine C.bind 0 (C.dropCollection c) (by simp) fun _ => ?_
    exact C.of_eq (C.refuse e) (by simp) rfl
  | ok plan =>
    refine C.bind (parts c) (C.note plan.before) (by simp) fun _ => ?_
    refine C.bind 0 (C.perform plan.reading c) (by simp) ?_
    rintro (e | v)
    · exact C.of_eq (C.refuse e) (by simp) rfl
    · refine C.bind (parts v) (C.note plan.after) (by simp) fun _ => ?_
      exact C.pure (Except.ok v : Except Failure (Tree σ)) (by simp)

end Coupling

end LazyCalc
