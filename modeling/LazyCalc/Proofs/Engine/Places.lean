import LazyCalc.Engine.Store
/-!
Lending and returning: what is at each place of a store, and what binding two steps of the engine
comes to.
-/

namespace LazyCalc

namespace Store

theorem getElem?_setFanout (st : Store) (i : Nat) (place : Place Shared) (j : Nat) :
    (st.setFanout i place).fanouts[j]? =
      if i = j then (if i < st.fanouts.size then some place else none) else st.fanouts[j]? := by
  simp only [setFanout, Array.getElem?_setIfInBounds]

theorem getElem?_setCell (st : Store) (i : Nat) (place : Place Cell) (j : Nat) :
    (st.setCell i place).cells[j]? =
      if i = j then (if i < st.cells.size then some place else none) else st.cells[j]? := by
  simp only [setCell, Array.getElem?_setIfInBounds]

@[simp]
theorem cells_setFanout (st : Store) (i : Nat) (place : Place Shared) :
    (st.setFanout i place).cells = st.cells := rfl

@[simp]
theorem log_setFanout (st : Store) (i : Nat) (place : Place Shared) :
    (st.setFanout i place).log = st.log := rfl

@[simp]
theorem fanouts_setCell (st : Store) (i : Nat) (place : Place Cell) :
    (st.setCell i place).fanouts = st.fanouts := rfl

@[simp]
theorem log_setCell (st : Store) (i : Nat) (place : Place Cell) :
    (st.setCell i place).log = st.log := rfl

@[simp]
theorem fanouts_record (st : Store) (events : List Event) :
    (st.record events).fanouts = st.fanouts := rfl

@[simp]
theorem cells_record (st : Store) (events : List Event) :
    (st.record events).cells = st.cells := rfl

@[simp]
theorem toList_log_record (st : Store) (events : List Event) :
    (st.record events).log.toList = st.log.toList ++ events := by
  simp [record]

@[simp]
theorem setFanout_setFanout (st : Store) (i : Nat) (place place' : Place Shared) :
    (st.setFanout i place).setFanout i place' = st.setFanout i place' := by
  simp only [setFanout, Array.setIfInBounds_setIfInBounds]

@[simp]
theorem setCell_setCell (st : Store) (i : Nat) (place place' : Place Cell) :
    (st.setCell i place).setCell i place' = st.setCell i place' := by
  simp only [setCell, Array.setIfInBounds_setIfInBounds]

theorem setIfInBounds_push {α : Type} (places : Array α) (a b : α) :
    (places.push a).setIfInBounds places.size b = places.push b := by
  have hlt : places.size < (places.push a).size := by simp
  rw [Array.setIfInBounds, dif_pos hlt, Array.set_push, dif_neg (Nat.lt_irrefl _)]

theorem getElem?_addFanout (st : Store) (shared : Shared) (j : Nat) :
    (st.addFanout shared).2.fanouts[j]? =
      if j = st.fanouts.size then some (.held shared) else st.fanouts[j]? := by
  simp only [addFanout, Array.getElem?_push]

theorem setFanout_addFanout (st : Store) (shared shared' : Shared) :
    (st.addFanout shared).2.setFanout st.fanouts.size (.held shared') =
      (st.addFanout shared').2 := by
  simp only [addFanout, setFanout, setIfInBounds_push]

theorem lend_eq {α : Type} {places : Array (Place α)} {i : Nat} {a : α}
    (h : places[i]? = some (.held a)) : lend places i = .ok (a, places.setIfInBounds i .lent) := by
  obtain ⟨hi, ha⟩ := Array.getElem?_eq_some_iff.mp h
  simp [lend, hi, ha, Array.setIfInBounds]

theorem lendFanout_eq {st : Store} {i : Nat} {shared : Shared}
    (h : st.fanouts[i]? = some (.held shared)) :
    st.lendFanout i = .ok (shared, st.setFanout i .lent) := by
  simp [lendFanout, lend_eq h, setFanout]

theorem lendCell_eq {st : Store} {i : Nat} {cell : Cell}
    (h : st.cells[i]? = some (.held cell)) :
    st.lendCell i = .ok (cell, st.setCell i .lent) := by
  simp [lendCell, lend_eq h, setCell]

theorem of_lend {α : Type} {places places' : Array (Place α)} {i : Nat} {a : α}
    (h : lend places i = .ok (a, places')) : places[i]? = some (.held a) := by
  unfold lend at h
  split at h
  · next hi =>
    cases hp : places[i] with
    | vacant => simp [hp] at h
    | lent => simp [hp] at h
    | held b =>
      simp only [hp, Except.ok.injEq, Prod.mk.injEq] at h
      rw [Array.getElem?_eq_getElem hi, hp, h.1]
  · cases h

theorem of_lendFanout {st st' : Store} {i : Nat} {shared : Shared}
    (h : st.lendFanout i = .ok (shared, st')) :
    st.fanouts[i]? = some (.held shared) ∧ st' = st.setFanout i .lent := by
  have hi : st.fanouts[i]? = some (.held shared) := by
    obtain ⟨fanouts, cells, log⟩ := st
    unfold lendFanout at h
    cases hl : lend fanouts i with
    | error fault => simp [hl] at h
    | ok pair =>
      simp only [hl, Except.ok.injEq, Prod.mk.injEq] at h
      exact h.1 ▸ of_lend hl
  exact ⟨hi, (Prod.mk.inj (Except.ok.inj (h.symm.trans (lendFanout_eq hi)))).2⟩

theorem of_lendCell {st st' : Store} {i : Nat} {cell : Cell}
    (h : st.lendCell i = .ok (cell, st')) :
    st.cells[i]? = some (.held cell) ∧ st' = st.setCell i .lent := by
  have hi : st.cells[i]? = some (.held cell) := by
    obtain ⟨fanouts, cells, log⟩ := st
    unfold lendCell at h
    cases hl : lend cells i with
    | error fault => simp [hl] at h
    | ok pair =>
      simp only [hl, Except.ok.injEq, Prod.mk.injEq] at h
      exact h.1 ▸ of_lend hl
  exact ⟨hi, (Prod.mk.inj (Except.ok.inj (h.symm.trans (lendCell_eq hi)))).2⟩

theorem lt_of_getElem? {st : Store} {i : Nat} {place : Place Shared}
    (h : st.fanouts[i]? = some place) : i < st.fanouts.size :=
  (Array.getElem?_eq_some_iff.mp h).1

end Store

namespace Engine

theorem bind_eq {α β : Type} {f : Engine α} {g : α → Engine β} {st st' : Store} {a : α}
    (h : f st = .ok (a, st')) : (f >>= g) st = g a st' := by
  show (f st >>= fun r => g r.1 r.2) = _
  rw [h]
  rfl

theorem bind_error {α β : Type} {f : Engine α} {g : α → Engine β} {st : Store} {e : Fault}
    (h : f st = .error e) : (f >>= g) st = .error e := by
  show (f st >>= fun r => g r.1 r.2) = _
  rw [h]
  rfl

theorem of_bind_ok {α β : Type} {f : Engine α} {g : α → Engine β} {st : Store} {r : β × Store}
    (h : (f >>= g) st = .ok r) : ∃ a st', f st = .ok (a, st') ∧ g a st' = .ok r := by
  cases hf : f st with
  | error e => cases (bind_error hf).symm.trans h
  | ok r' => exact ⟨r'.1, r'.2, rfl, (bind_eq hf).symm.trans h⟩

theorem bind_congr_at {α β : Type} {f f' : Engine α} {st st' : Store} (h : f st = f' st')
    (g : α → Engine β) : (f >>= g) st = (f' >>= g) st' := by
  show (f st >>= fun r => g r.1 r.2) = _
  rw [h]
  rfl

theorem map_eq {α β : Type} {f : Engine α} {g : α → β} {st st' : Store} {a : α}
    (h : f st = .ok (a, st')) : (g <$> f) st = .ok (g a, st') :=
  bind_eq (g := fun a => pure (g a)) h

theorem map_error {α β : Type} {f : Engine α} {g : α → β} {st : Store} {e : Fault}
    (h : f st = .error e) : (g <$> f) st = .error e :=
  bind_error (g := fun a => pure (g a)) h

theorem lendFanout_eq {st : Store} {i : Nat} {shared : Shared}
    (h : st.fanouts[i]? = some (.held shared)) :
    lendFanout i st = .ok (shared, st.setFanout i .lent) := Store.lendFanout_eq h

theorem lendCell_eq {st : Store} {i : Nat} {cell : Cell}
    (h : st.cells[i]? = some (.held cell)) :
    lendCell i st = .ok (cell, st.setCell i .lent) := Store.lendCell_eq h

@[simp]
theorem pure_eq {α : Type} (a : α) (st : Store) : (pure a : Engine α) st = .ok (a, st) := rfl

end Engine

end LazyCalc
