import LazyCalc.Proofs.Coupling.Call
import LazyCalc.Proofs.Desk.Basic
namespace LazyCalc

section

variable {κ ι : Type}

theorem Mapping.map_closed (f : κ → ι) (mapping : Mapping Empty) :
    (mapping.map Empty.elim : Mapping κ).map f = mapping.map Empty.elim := by
  rcases mapping with ⟨⟨⟩ | ⟨⟨⟩⟩⟩ | ⟨_, _, ⟨⟩ | ⟨⟨⟩⟩⟩ | _ | _ | _ | _ <;> rfl

theorem Pairing.map_closed (f : κ → ι) (pairing : Pairing Empty) :
    (pairing.map Empty.elim : Pairing κ).map f = pairing.map Empty.elim := by
  rcases pairing with ⟨⟨⟩ | ⟨⟨⟩⟩⟩ | _ | _ <;> rfl

@[simp]
theorem parts_closedMapping {σ : Type} (mapping : Mapping Empty) :
    (parts (mapping.map Empty.elim : Mapping κ) : Parts σ κ) = 0 := by
  rcases mapping with ⟨⟨⟩ | ⟨⟨⟩⟩⟩ | ⟨_, _, ⟨⟩ | ⟨⟨⟩⟩⟩ | _ | _ | _ | _ <;> rfl

@[simp]
theorem parts_closedPairing {σ : Type} (pairing : Pairing Empty) :
    (parts (pairing.map Empty.elim : Pairing κ) : Parts σ κ) = 0 := by
  rcases pairing with ⟨⟨⟩ | ⟨⟨⟩⟩⟩ | _ | _ <;> rfl

end

namespace Coupling

variable {m₁ m₂ : Type → Type} [Monad m₁] [Monad m₂] {ρ₁ κ₁ ρ₂ κ₂ σ κ : Type}
  [Paired σ (Sequence ρ₁ κ₁) (Sequence ρ₂ κ₂)] [Paired κ κ₁ κ₂]
  (C : Coupling m₁ m₂ ρ₁ κ₁ ρ₂ κ₂ σ κ)

theorem back (vs : List (Tree σ)) :
    C.Triple (List (Except Failure (Tree σ))) (parts vs) (fun _ => pure ((left vs).map .ok))
      (fun _ => pure ((right vs).map .ok)) 0 := by
  simp only [← left_items_ok, ← right_items_ok]
  exact C.pure (vs.map .ok : List (Except Failure (Tree σ))) (by simp)

theorem fresh (t : Template) (vs : List (Tree σ)) :
    C.Triple (List (Except Failure (Tree σ))) (parts vs)
      (fun _ => pure (Except.ok (Value.ofTemplate t) :: (left vs).map Except.ok))
      (fun _ => pure (Except.ok (Value.ofTemplate t) :: (right vs).map Except.ok)) 0 := by
  refine C.templated t fun v hl hr => ?_
  have hmake := C.pure (A := parts v + parts vs) (B := 0)
    (.ok v :: vs.map .ok : List (Except Failure (Tree σ))) (by simp)
  rw [← hl, ← hr, ← left_items_ok, ← right_items_ok]
  exact hmake

theorem single {A : Parts σ κ} {X : Nat → m₁ (Item ρ₁ κ₁)} {Y : Nat → m₂ (Item ρ₂ κ₂)}
    (h : C.Triple (Except Failure (Tree σ)) A X Y 0) :
    C.Triple (List (Except Failure (Tree σ))) A (fun n => Tool.single (X n))
      (fun n => Tool.single (Y n)) 0 := by
  refine C.bind 0 h (add_zero A).symm fun x => ?_
  exact C.pure ([x] : List (Except Failure (Tree σ))) (by simp)

section

variable {f₁ : Nat → Value ρ₁ κ₁ → m₁ (List (Item ρ₁ κ₁))}
  {f₂ : Nat → Value ρ₂ κ₂ → m₂ (List (Item ρ₂ κ₂))}

theorem onValue (h : ∀ v : Tree σ, C.Triple (List (Except Failure (Tree σ))) (parts v)
      (fun n => f₁ n (left v)) (fun n => f₂ n (right v)) 0) (vs : List (Tree σ)) :
    C.Triple (List (Except Failure (Tree σ))) (parts vs) (fun n => Tool.onValue (f₁ n) (left vs))
      (fun n => Tool.onValue (f₂ n) (right vs)) 0 := by
  match vs with
  | [v] => exact C.of_eq (h v) (by simp) rfl
  | [] => exact C.back []
  | v :: w :: vs => exact C.back (v :: w :: vs)

end

section

variable {f₁ : Nat → Sequence ρ₁ κ₁ → m₁ (List (Item ρ₁ κ₁))}
  {f₂ : Nat → Sequence ρ₂ κ₂ → m₂ (List (Item ρ₂ κ₂))}

theorem onSequence (h : ∀ s : σ, C.Triple (List (Except Failure (Tree σ))) (parts s)
      (fun n => f₁ n (left s)) (fun n => f₂ n (right s)) 0) (vs : List (Tree σ)) :
    C.Triple (List (Except Failure (Tree σ))) (parts vs)
      (fun n => Tool.onSequence (f₁ n) (left vs)) (fun n => Tool.onSequence (f₂ n) (right vs)) 0 := by
  refine C.onValue (fun v => ?_) vs
  refine C.of_eq (C.wrapped (A := 0) v fun s hl hr => ?_) (by simp) rfl
  rw [← hl, ← hr]
  exact C.of_eq (h s) (by simp) rfl

end

section

variable {γ α β : Type} [Paired γ α β] [Parted σ κ γ] {shown₁ : α → List (Item ρ₁ κ₁)}
  {shown₂ : β → List (Item ρ₂ κ₂)} {f₁ : Nat → Sequence ρ₁ κ₁ → m₁ (α × Sequence ρ₁ κ₁)}
  {f₂ : Nat → Sequence ρ₂ κ₂ → m₂ (β × Sequence ρ₂ κ₂)}

theorem reading (shown : γ → List (Except Failure (Tree σ)))
    (hl : ∀ c, shown₁ (left c) = left (shown c)) (hr : ∀ c, shown₂ (right c) = right (shown c))
    (hparts : ∀ c, (parts (shown c) : Parts σ κ) = parts c)
    (h : ∀ s : σ, C.Triple (γ × σ) (parts s) (fun n => f₁ n (left s)) (fun n => f₂ n (right s)) 0)
    (vs : List (Tree σ)) :
    C.Triple (List (Except Failure (Tree σ))) (parts vs)
      (fun n => Tool.reading shown₁ (f₁ n) (left vs))
      (fun n => Tool.reading shown₂ (f₂ n) (right vs)) 0 := by
  refine C.onSequence (fun s => ?_) vs
  refine C.bind 0 (h s) (by simp) ?_
  rintro ⟨c, s⟩
  have := C.pure (A := parts c + parts s) (B := 0)
    (.ok (.sequence s) :: shown c : List (Except Failure (Tree σ)))
    (by simp [hparts, add_comm])
  simp only [left, right, hl, hr]
  exact C.of_eq this (by simp) rfl

end

theorem filter (test : Outline → Except Failure Bool) (invert : Bool) (vs : List (Tree σ)) :
    C.Triple (List (Except Failure (Tree σ))) (parts vs)
      (fun _ => Tool.filter test invert (left vs)) (fun _ => Tool.filter test invert (right vs))
      0 := by
  cases vs with
  | nil => exact C.back []
  | cons v held =>
    refine C.of_eq (C.wrapped (A := parts held) v fun s hl hr => ?_) (by simp) rfl
    change C.Triple _ _
      (fun _ => Tool.single (pure (.ok (.sequence
        ((Sequence.wrap (left v)).filtered test (left held) invert)))))
      (fun _ => Tool.single (pure (.ok (.sequence
        ((Sequence.wrap (right v)).filtered test (right held) invert))))) _
    rw [← hl, ← hr]
    exact C.of_eq (C.single (C.newSequence (.filtered s test held invert) (Eq.refl Hint.unknown)))
      (by simp) rfl

theorem zip (pairing : Pairing Empty) (vs : List (Tree σ)) :
    C.Triple (List (Except Failure (Tree σ))) (parts vs)
      (fun _ => Tool.zip (pairing.map Empty.elim) (left vs))
      (fun _ => Tool.zip (pairing.map Empty.elim) (right vs)) 0 := by
  match vs with
  | [a, b] =>
    refine C.of_eq (C.wrapped (A := parts b) a fun s hsl hsr => ?_) (by simp) rfl
    refine C.of_eq (C.wrapped (A := parts s) b fun t htl htr => ?_) (by abel) rfl
    refine C.of_eq (C.hinted (A := parts t) s fun hs => ?_) (by abel) rfl
    refine C.of_eq (C.hinted (A := parts s) t fun ht => ?_) (by abel) rfl
    have hzip := C.single (C.newSequence (.zipped s t (pairing.map Empty.elim))
      (congrArg₂ Hint.min hs ht))
    simp only [left, right, Source.map, Pairing.map_closed] at hzip
    change C.Triple _ _
      (fun _ => Tool.single (pure (.ok (.sequence ((Sequence.wrap (left a)).zipped
        (.wrap (left b)) (pairing.map Empty.elim))))))
      (fun _ => Tool.single (pure (.ok (.sequence ((Sequence.wrap (right a)).zipped
        (.wrap (right b)) (pairing.map Empty.elim)))))) _
    rw [← hsl, ← hsr, ← htl, ← htr]
    exact C.of_eq hzip (by simp; abel) rfl
  | [] => exact C.back []
  | [a] => exact C.back [a]
  | a :: b :: c :: vs => exact C.back (a :: b :: c :: vs)

theorem shaped_map {τ υ : Type} (f : τ → υ) (shape : List (Option Failure)) (ts : List (Tree τ)) :
    shaped shape (Tree.mapList f ts) = (shaped shape ts).map (Except.map (Tree.map f)) := by
  fun_induction shaped shape ts with
  | case1 ts =>
    rw [shaped, Tree.mapList_eq_map, List.map_map, List.map_map]
    rfl
  | case2 e shape ts ih => rw [shaped, ih]; rfl
  | case3 shape ih => exact ih
  | case4 shape t ts ih => rw [Tree.mapList, shaped, ih]; rfl

@[simp]
theorem parts_shaped (shape : List (Option Failure)) (ts : List (Tree σ)) :
    (parts (shaped shape ts) : Parts σ κ) = parts ts := by
  fun_induction shaped shape ts with
  | case1 ts => exact parts_items_ok ts
  | case2 e shape ts ih => rw [parts_items_cons, parts_error, zero_add, ih]
  | case3 shape ih => exact ih
  | case4 shape t ts ih => rw [parts_items_cons, ih]; rfl

theorem spread_map {τ υ : Type} (f : τ → υ) (t : Tree τ) :
    (t.map f).spread = Tree.mapList f t.spread := by
  cases t <;> rfl

@[simp]
theorem parts_spread (t : Tree σ) : (parts t.spread : Parts σ κ) = parts t := by
  cases t <;> simp [Tree.spread]

theorem work (tool : Tool) (vs : List (Tree σ)) :
    C.Triple (List (Except Failure (Tree σ))) (parts vs)
      (fun n => tool.work (C.first n) (left vs)) (fun n => tool.work (C.second n) (right vs)) 0 := by
  simp only [Tool.work]
  cases tool with
  | make t => exact C.fresh t vs
  | list => exact C.pure ([.ok (.list vs)] : List (Except Failure (Tree σ))) (by simp)
  | elements shape hint =>
    have hitems := C.single (C.newSequence (.items (shaped shape vs)) (Eq.refl hint))
    simp only [left, right, Source.map, ← shaped_map] at hitems
    exact C.of_eq hitems (by simp) rfl
  | spread =>
    refine C.onValue (fun v => ?_) vs
    have hspread := C.back v.spread
    simp only [left, right, ← spread_map] at hspread
    exact C.of_eq hspread (by simp) rfl
  | unwrap =>
    refine C.onValue (fun v => ?_) vs
    have := C.pure (A := parts v) (B := 0) ([.ok v.unwrap] : List (Except Failure (Tree σ)))
      (by simp [parts_unwrap])
    simp only [left, right, List.map, Except.map, ← Tree.unwrap_map] at this
    exact this
  | wrap => exact C.onSequence (fun s => C.pure ([.ok (.sequence s)] : List (Except Failure (Tree σ))) (by simp)) vs
  | mapped mapping =>
    refine C.onSequence (fun s => ?_) vs
    refine C.of_eq (C.hinted (A := 0) s fun hs => ?_) (by simp) rfl
    have hmap := C.single (C.newSequence (.mapped s (mapping.map Empty.elim)) hs)
    simp only [left, right, Source.map, Mapping.map_closed] at hmap
    exact C.of_eq hmap (by simp) rfl
  | filtered test invert => exact C.filter test invert vs
  | zipped pairing => exact C.zip pairing vs
  | window start count =>
    refine C.onSequence (fun s => ?_) vs
    refine C.of_eq (C.hinted (A := 0) s fun hs => ?_) (by simp) rfl
    exact C.of_eq (C.single (C.newSequence (.window s start count)
      (congrArg (fun h => (Hint.skip start h).min (.exact count)) hs))) (by simp) rfl
  | call name op => exact C.single (C.call name op vs)
  | invoke table name => exact C.single (C.invoke table name vs)
  | copy =>
    refine C.onValue (fun v => ?_) vs
    refine C.bind 0 (C.copy v) (by simp) ?_
    rintro ⟨v, w⟩
    exact C.pure ([.ok v, .ok w] : List (Except Failure (Tree σ))) (by simp)
  | fork =>
    refine C.onSequence (fun s => ?_) vs
    refine C.bind 0 (C.fork s) (by simp) ?_
    rintro ⟨s, t⟩
    exact C.pure ([.ok (.sequence s), .ok (.sequence t)] : List (Except Failure (Tree σ))) (by simp)
  | pull =>
    refine C.reading Option.toList ?_ ?_ ?_ C.pull vs
    · rintro (_ | x) <;> rfl
    · rintro (_ | x) <;> rfl
    · rintro (_ | x) <;> simp
  | skip count =>
    refine C.reading (fun n : Nat => [.ok (.scalar (.integer n))]) (fun _ => rfl) (fun _ => rfl)
      (fun _ => by simp) (C.discard count 0) vs
  | take count =>
    exact C.reading (fun x => [x]) (fun _ => rfl) (fun _ => rfl) (fun _ => by simp) (C.takeList count) vs
  | index place =>
    exact C.reading (fun x => [x]) (fun _ => rfl) (fun _ => rfl) (fun _ => by simp) (C.index place) vs
  | slice start stop =>
    exact C.reading (fun x => [x]) (fun _ => rfl) (fun _ => rfl) (fun _ => by simp) (C.slice start stop) vs
  | collect => exact C.onSequence (fun s => C.single (C.collect s)) vs
  | materialize =>
    refine C.onValue (fun v => ?_) vs
    have := C.single (C.materialize v)
    simp only [C.first_fuel, C.second_fuel]
    exact this
  | drop =>
    refine C.bind 0 (C.drop vs) (by simp) fun _ => ?_
    exact C.pure ([] : List (Except Failure (Tree σ))) (by simp)

end Coupling

section

variable {γ α β σ κ : Type} [Paired γ α β]

instance : Paired (List (Option (Tree γ))) (List (Option (Tree α))) (List (Option (Tree β))) :=
  ⟨List.map (Option.map left), List.map (Option.map right)⟩

instance : Parted σ κ (List (Option (Tree σ))) := ⟨fun desk => (desk.map parts).sum⟩

instance : Paired Showing Showing Showing := ⟨id, id⟩

instance : Parted σ κ Showing := ⟨fun _ => 0⟩

theorem left_desk_set (desk : List (Option (Tree γ))) (i : Nat) (t : Tree γ) :
    left (desk.set i (some t)) = (left desk).set i (some (left t)) := List.map_set

theorem right_desk_set (desk : List (Option (Tree γ))) (i : Nat) (t : Tree γ) :
    right (desk.set i (some t)) = (right desk).set i (some (right t)) := List.map_set

theorem parts_desk_append (desk desk' : List (Option (Tree σ))) :
    (parts (desk ++ desk') : Parts σ κ) = parts desk + parts desk' := by
  simp [parts]

theorem parts_desk_items (items : List (Except Failure (Tree σ))) :
    (parts (items.map Except.toOption) : Parts σ κ) = parts items := by
  induction items with
  | nil => rfl
  | cons x items ih =>
    rw [parts_items_cons, ← ih]
    cases x <;> rfl

theorem parts_desk_set {desk : List (Option (Tree σ))} {i : Nat} {t : Tree σ}
    (h : Readers.at? desk i = some t) (o : Option (Tree σ)) :
    (parts (desk.set i o) + parts t : Parts σ κ) = parts desk + parts o := by
  induction desk generalizing i with
  | nil => simp [Readers.at?] at h
  | cons o' desk ih =>
    cases i with
    | zero =>
      obtain rfl : o' = some t := by simpa [Readers.at?] using h
      simp only [List.set_cons_zero, parts, List.map_cons, List.sum_cons]
      abel
    | succ i =>
      have := ih (i := i) (by simpa [Readers.at?] using h)
      simp only [List.set_cons_succ, parts, List.map_cons, List.sum_cons] at this ⊢
      rw [add_assoc, this, add_assoc]

theorem parts_desk_at {desk : List (Option (Tree σ))} {i : Nat} {t : Tree σ}
    (h : Readers.at? desk i = some t) :
    (parts desk : Parts σ κ) = parts t + parts (desk.set i none) := by
  have hset := parts_desk_set (κ := κ) h none
  rw [parts_none, add_zero] at hset
  rw [← hset, add_comm]

theorem parts_desk_replace {desk : List (Option (Tree σ))} {i : Nat} {t : Tree σ}
    (h : Readers.at? desk i = some t) (u : Tree σ) :
    (parts (desk.set i (some u)) : Parts σ κ) = parts u + parts (desk.set i none) := by
  have hset := parts_desk_set (κ := κ) h (some u)
  rw [parts_desk_at h, add_comm (parts t), add_right_comm] at hset
  exact (add_right_cancel hset).trans (add_comm _ _)

theorem set_of_gone {α : Type} {desk : List (Option α)} {i : Nat} (h : Readers.at? desk i = none) :
    desk.set i none = desk := by
  refine List.ext_getElem? fun j => ?_
  rw [List.getElem?_set]
  split
  · next hij =>
    subst hij
    split
    · next hlt =>
      rw [List.getElem?_eq_getElem hlt]
      rw [Readers.at?, List.getElem?_eq_getElem hlt] at h
      exact congrArg some h.symm
    · next hge => exact (List.getElem?_eq_none (Nat.le_of_not_lt hge)).symm
  · rfl

namespace Desk

theorem at?_map {α β : Type} (f : α → β) (desk : List (Option α)) (i : Nat) :
    Readers.at? (desk.map (Option.map f)) i = (Readers.at? desk i).map f := by
  simp only [Readers.at?, List.getElem?_map]
  cases desk[i]? <;> rfl

theorem take_map {α β : Type} (f : α → β) (is : List Nat) (desk : List (Option α)) :
    take is (desk.map (Option.map f)) =
      ((take is desk).1.map f, (take is desk).2.map (Option.map f)) := by
  induction is generalizing desk with
  | nil => rfl
  | cons i is ih =>
    have hset : (desk.map (Option.map f)).set i none = (desk.set i none).map (Option.map f) := by
      rw [List.map_set]
      rfl
    simp only [take, at?_map, hset, ih, List.map_append]
    cases Readers.at? desk i <;> rfl

theorem take_left {γ α β : Type} [Paired γ α β] (is : List Nat) (desk : List (Option (Tree γ))) :
    take is (left desk) = (left (take is desk).1, left (take is desk).2) := by
  rw [left_list]
  exact take_map left is desk

theorem take_right {γ α β : Type} [Paired γ α β] (is : List Nat) (desk : List (Option (Tree γ))) :
    take is (right desk) = (right (take is desk).1, right (take is desk).2) := by
  rw [right_list]
  exact take_map right is desk

theorem put_map {α β : Type} (f : α → β) (items : List (Except Failure α)) (desk : List (Option α)) :
    put (items.map (Except.map f)) (desk.map (Option.map f)) =
      (put items desk).map (Option.map f) := by
  simp only [put, List.map_append, List.map_map]
  congr 2
  funext x
  cases x <;> rfl

theorem parts_take (is : List Nat) (desk : List (Option (Tree σ))) :
    (parts (take is desk).1 + parts (take is desk).2 : Parts σ κ) = parts desk := by
  induction is generalizing desk with
  | nil => simp [take]
  | cons i is ih =>
    simp only [take]
    cases h : Readers.at? desk i with
    | none => rw [set_of_gone h]; exact ih desk
    | some t =>
      have hset := parts_desk_set (κ := κ) h none
      rw [parts_none, add_zero] at hset
      simp only [Option.toList, List.cons_append, List.nil_append, parts_cons, add_assoc, ih]
      rw [add_comm, hset]

theorem parts_put (items : List (Except Failure (Tree σ))) (desk : List (Option (Tree σ))) :
    (parts (put items desk) : Parts σ κ) = parts items + parts desk := by
  rw [put, parts_desk_append, parts_desk_items, add_comm]

end Desk

end

namespace Coupling

variable {m₁ m₂ : Type → Type} [Monad m₁] [Monad m₂] {ρ₁ κ₁ ρ₂ κ₂ σ κ : Type}
  [Paired σ (Sequence ρ₁ κ₁) (Sequence ρ₂ κ₂)] [Paired κ κ₁ κ₂]
  (C : Coupling m₁ m₂ ρ₁ κ₁ ρ₂ κ₂ σ κ)

theorem outlinedItems {γ α β : Type} [Paired γ α β] [Parted σ κ γ] {A B : Parts σ κ}
    {X : Nat → m₁ α} {Y : Nat → m₂ β} (items : List (Except Failure (Tree σ)))
    (h : Desk.showing (left items) = Desk.showing (right items) →
      C.Triple γ (parts items + A) X Y B) : C.Triple γ (parts items + A) X Y B := by
  induction items generalizing A with
  | nil => exact h rfl
  | cons x items ih =>
    have hshow (hx : Except.map Value.outline (left x) = Except.map Value.outline (right x))
        (hitems : Desk.showing (left items) = Desk.showing (right items)) :
        Desk.showing (left (x :: items)) = Desk.showing (right (x :: items)) :=
      congrArg₂ List.cons hx hitems
    cases x with
    | error e =>
      refine C.of_eq (ih (A := A) fun hitems => ?_) (by simp) rfl
      exact C.of_eq (h (hshow rfl hitems)) (by simp) rfl
    | ok v =>
      refine C.of_eq (C.outlined (A := parts items + A) v fun hv => ?_) (by simp [add_assoc]) rfl
      refine C.of_eq (ih (A := parts v + A) fun hitems => ?_) (by abel) rfl
      exact C.of_eq (h (hshow (congrArg Except.ok hv) hitems)) (by simp; abel) rfl

theorem use (mark₁ : Sequence ρ₁ κ₁ → String → Sequence ρ₁ κ₁)
    (mark₂ : Sequence ρ₂ κ₂ → String → Sequence ρ₂ κ₂) (tool : Tool) (numbers : List Nat)
    (desk : List (Option (Tree σ))) :
    C.Triple (Showing × List (Option (Tree σ))) (parts desk)
      (fun n => Desk.act (C.first n) mark₁ (.use tool numbers) (left desk))
      (fun n => Desk.act (C.second n) mark₂ (.use tool numbers) (right desk)) 0 := by
  simp only [Desk.act, Desk.take_left, Desk.take_right]
  refine C.bind (parts (Desk.take numbers desk).2) (C.work tool (Desk.take numbers desk).1)
    (Desk.parts_take numbers desk).symm fun items => ?_
  refine C.outlinedItems items fun hitems => ?_
  have hpl : Desk.put (left items) (left (Desk.take numbers desk).2) =
      left (Desk.put items (Desk.take numbers desk).2) := Desk.put_map left _ _
  have hpr : Desk.put (right items) (right (Desk.take numbers desk).2) =
      right (Desk.put items (Desk.take numbers desk).2) := Desk.put_map right _ _
  rw [hitems, hpl, hpr]
  refine C.pure (γ := Showing × List (Option (Tree σ)))
    (Desk.showing (right items), Desk.put items (Desk.take numbers desk).2) ?_
  rw [parts_pair, Desk.parts_put, add_zero, zero_add]
  exact (zero_add _).symm

end Coupling

end LazyCalc
