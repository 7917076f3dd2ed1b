import LazyCalc.Fanout
/-!
What the operations of a fan-out do to each slot, seen through `slot?`: a slot that an operation
does not name stays as it is.
-/

namespace LazyCalc.Fanout

variable {α : Type}

theorem slot?_eq_some_iff {f : Fanout α} {slot : Nat} {s : Slot α} :
    f.slot? slot = some s ↔ f.slots[slot]? = some (some s) := by
  simp [slot?, Option.join_eq_some_iff]

theorem slot?_lt {f : Fanout α} {slot : Nat} {s : Slot α} (h : f.slot? slot = some s) :
    slot < f.slots.length :=
  (List.getElem?_eq_some_iff.mp (slot?_eq_some_iff.mp h)).1

theorem backlog_eq {f : Fanout α} {slot : Nat} {s : Slot α} (h : f.slot? slot = some s) :
    f.backlog slot = s.backlog.toList := by
  simp [backlog, h]

theorem slot?_single (slot : Nat) :
    (single : Fanout α).slot? slot = if slot = 0 then some (.ofList []) else none := by
  cases slot <;> simp [slot?, single]

theorem slot?_set {slots : List (Option (Slot α))} {done : Bool} {slot : Nat} {s : Option (Slot α)}
    (h : slot < slots.length) (j : Nat) :
    (⟨slots.set slot s, done⟩ : Fanout α).slot? j =
      if j = slot then s else (⟨slots, done⟩ : Fanout α).slot? j := by
  simp only [slot?, List.getElem?_set]
  split
  · next he => subst he; simp
  · next he => rw [if_neg (Ne.symm he)]

theorem slot?_leave (f : Fanout α) (slot j : Nat) :
    (f.leave slot).slot? j = if j = slot then none else f.slot? j := by
  simp only [leave, slot?, List.getElem?_set]
  by_cases h : slot = j
  · subst h
    by_cases hl : slot < f.slots.length <;> simp [hl]
  · rw [if_neg h, if_neg (Ne.symm h)]

@[simp]
theorem done_leave (f : Fanout α) (slot : Nat) : (f.leave slot).done = f.done := rfl

theorem isDeserted_iff (f : Fanout α) : f.isDeserted = true ↔ ∀ j, f.slot? j = none := by
  simp only [isDeserted, List.all_eq_true, Option.isNone_iff_eq_none, slot?]
  constructor
  · intro h j
    cases hj : f.slots[j]? with
    | none => rfl
    | some s => simp [h s (List.mem_of_getElem? hj)]
  · intro h s hs
    obtain ⟨j, hj⟩ := List.mem_iff_getElem?.mp hs
    simpa [hj] using h j

theorem not_isDeserted {f : Fanout α} {slot : Nat} (h : (f.slot? slot).isSome = true) :
    ¬ f.isDeserted = true := fun hdeserted => by
  rw [(isDeserted_iff f).mp hdeserted slot] at h
  cases h

theorem slot?_setBacklog (f : Fanout α) (slot : Nat) (items : List α) (j : Nat) :
    (f.setBacklog slot items).slot? j =
      if j = slot then (f.slot? j).map fun s => { s with backlog := .ofList items }
      else f.slot? j := by
  simp only [setBacklog, slot?, List.getElem?_modify]
  by_cases h : slot = j
  · subst h; rcases f.slots[slot]? with _ | _ | s <;> simp
  · simp [h, Ne.symm h]

@[simp]
theorem done_setBacklog (f : Fanout α) (slot : Nat) (items : List α) :
    (f.setBacklog slot items).done = f.done := rfl

theorem pop?_eq_none_iff {f : Fanout α} {slot : Nat} :
    f.pop? slot = none ↔ f.backlog slot = [] := by
  unfold pop? backlog
  cases f.slot? slot with
  | none => simp
  | some s =>
    dsimp only
    cases hp : s.backlog.pop? with
    | none => simpa using (s.backlog.pop?_eq_none_iff).mp hp
    | some r => simp [Backlog.toList_of_pop? hp]

theorem pop?_eq_some {f f' : Fanout α} {slot : Nat} {item : α} (h : f.pop? slot = some (item, f')) :
    f'.done = f.done ∧ ∃ s t, f.slot? slot = some s ∧ s.backlog.toList = item :: t.backlog.toList ∧
      t.warnAt = s.warnAt ∧ ∀ j, f'.slot? j = if j = slot then some t else f.slot? j := by
  unfold pop? at h
  cases hs : f.slot? slot with
  | none => simp [hs] at h
  | some s =>
    cases hp : s.backlog.pop? with
    | none => simp [hs, hp] at h
    | some r =>
      simp only [hs, hp, Option.some.injEq, Prod.mk.injEq] at h
      obtain ⟨rfl, rfl⟩ := h
      refine ⟨rfl, s, { s with backlog := r.2 }, rfl, Backlog.toList_of_pop? hp, rfl, ?_⟩
      exact slot?_set (slot?_lt hs)

theorem insert_fst_free (s : Slot α) (slots : List (Option (Slot α))) :
    slots[(insert s slots).1]?.join = none := by
  induction slots with
  | nil => rfl
  | cons t slots ih =>
    cases t with
    | none => rfl
    | some t => simpa [insert] using ih

theorem getElem?_insert (s : Slot α) (slots : List (Option (Slot α))) (j : Nat) :
    ((insert s slots).2)[j]?.join =
      if j = (insert s slots).1 then some s else slots[j]?.join := by
  induction slots generalizing j with
  | nil => cases j <;> simp [insert]
  | cons t slots ih =>
    cases t with
    | none => cases j <;> simp [insert]
    | some t =>
      cases j with
      | zero => simp [insert]
      | succ j => simpa [insert] using ih j

theorem slot?_join_fst (f : Fanout α) (items : List α) : f.slot? (f.join items).1 = none :=
  insert_fst_free _ f.slots

theorem slot?_join (f : Fanout α) (items : List α) (j : Nat) :
    (f.join items).2.slot? j =
      if j = (f.join items).1 then some (.ofList items) else f.slot? j :=
  getElem?_insert _ f.slots j

@[simp]
theorem done_join (f : Fanout α) (items : List α) : (f.join items).2.done = f.done := rfl

@[simp]
theorem toList_ofList_backlog (items : List α) :
    (Slot.ofList items).backlog.toList = items := by
  simp [Slot.ofList]

@[simp]
theorem toList_push_backlog (s : Slot α) (item : α) :
    (s.push item).1.backlog.toList = s.backlog.toList ++ [item] := by
  unfold Slot.push
  dsimp only
  split <;> simp

theorem length_push_backlog (s : Slot α) (item : α) :
    (s.push item).1.backlog.length = s.backlog.length + 1 := by
  rw [← Backlog.length_toList, toList_push_backlog, List.length_append, List.length_singleton,
    Backlog.length_toList]

theorem due_push (s : Slot α) (item : α) :
    (s.push item).2 = decide (s.warnAt ≤ s.backlog.length + 1) := by
  unfold Slot.push
  dsimp only
  split
  · next hdue => exact (decide_eq_true hdue).symm
  · next hdue => exact (decide_eq_false hdue).symm

theorem warnAt_push (s : Slot α) (item : α) :
    (s.push item).1.warnAt =
      if s.warnAt ≤ s.backlog.toList.length + 1 then 2 * s.warnAt else s.warnAt := by
  have hlength : (s.backlog.push item).length = s.backlog.toList.length + 1 := by
    rw [← Backlog.length_toList, Backlog.toList_push, List.length_append, List.length_singleton]
  unfold Slot.push
  dsimp only
  rw [hlength]
  split <;> rfl

theorem deliver_of_copy {m : Type → Type} [Monad m] [LawfulMonad m] {copy : α → m (α × α)} {item : α}
    (h : copy item = pure (item, item)) (puller k : Nat) (slots : List (Option (Slot α))) :
    ∃ slots' lags, deliver copy puller item k slots = pure (item, slots', lags) ∧
      ∀ j, slots'[j]?.join =
        if k + j = puller then slots[j]?.join else slots[j]?.join.map fun s => (s.push item).1 := by
  induction slots generalizing k with
  | nil => exact ⟨[], [], rfl, by simp⟩
  | cons t slots ih =>
    obtain ⟨slots', lags, hd, hs⟩ := ih (k + 1)
    have hshift : ∀ j, k + 1 + j = k + (j + 1) := by intro j; omega
    cases t with
    | none =>
      refine ⟨none :: slots', lags, by simp [deliver, hd], ?_⟩
      intro j
      cases j with
      | zero => simp
      | succ j => simpa [hshift] using hs j
    | some s =>
      by_cases hp : k = puller
      · subst hp
        refine ⟨some s :: slots', lags, by simp [deliver, hd], ?_⟩
        intro j
        cases j with
        | zero => simp
        | succ j => simpa [hshift] using hs j
      · refine ⟨some (s.push item).1 :: slots', _, by simp [deliver, hd, hp, h]; rfl, ?_⟩
        intro j
        cases j with
        | zero => simp [hp]
        | succ j => simpa [hshift] using hs j

end LazyCalc.Fanout
