import LazyCalc.Proofs.Engine.Guards
import LazyCalc.Proofs.Engine.Plain
import Mathlib.Data.List.Forall2
/-!
Copies of an item. They are the same but for the sequences in them, which are branches of the same
fan-outs.
-/

namespace LazyCalc

/-- Branches of one fan-out, which show the same. -/
structure Sequence.Beside (s t : Linked.Sequence) : Prop where
  origin : ∃ i a b, s.origin = .branch ⟨i, a⟩ ∧ t.origin = .branch ⟨i, b⟩
  hint : s.hint = t.hint
  finished : s.finished = t.finished

mutual

def Tree.Copies : Linked.Value → Linked.Value → Prop
  | .scalar x, .scalar y => x = y
  | .list vs, .list ws => CopiesList vs ws
  | .sequence s, .sequence t => s.Beside t
  | _, _ => False

def Tree.CopiesList : List Linked.Value → List Linked.Value → Prop
  | [], [] => True
  | v :: vs, w :: ws => v.Copies w ∧ CopiesList vs ws
  | _, _ => False

end

def Item.Copies : Linked.Item → Linked.Item → Prop
  | .error e, .error e' => e = e'
  | .ok v, .ok w => v.Copies w
  | _, _ => False

namespace Sequence.Beside

variable {s t u : Linked.Sequence}

theorem symm (h : s.Beside t) : t.Beside s := by
  obtain ⟨i, a, b, hs, ht⟩ := h.origin
  exact ⟨⟨i, b, a, ht, hs⟩, h.hint.symm, h.finished.symm⟩

theorem trans (h : s.Beside t) (h' : t.Beside u) : s.Beside u := by
  obtain ⟨i, a, b, hs, ht⟩ := h.origin
  obtain ⟨j, b', c, ht', hu⟩ := h'.origin
  obtain ⟨rfl, -⟩ := Branch.mk.inj (Origin.branch.inj (ht.symm.trans ht'))
  exact ⟨⟨i, a, c, hs, hu⟩, h.hint.trans h'.hint, h.finished.trans h'.finished⟩

end Sequence.Beside

namespace Tree

mutual

theorem Copies.symm {v w : Linked.Value} (h : v.Copies w) : w.Copies v := by
  cases v <;> cases w <;> simp only [Copies] at h ⊢
  case scalar.scalar => exact h.symm
  case list.list vs ws => exact CopiesList.symm h
  case sequence.sequence => exact h.symm

theorem CopiesList.symm {vs ws : List Linked.Value} (h : CopiesList vs ws) : CopiesList ws vs := by
  cases vs <;> cases ws <;> simp only [CopiesList] at h ⊢
  case cons.cons => exact ⟨h.1.symm, h.2.symm⟩

end

mutual

theorem Copies.trans {v w u : Linked.Value} (h : v.Copies w) (h' : w.Copies u) : v.Copies u := by
  cases v <;> cases w <;> simp only [Copies] at h <;> cases u <;> simp only [Copies] at h' ⊢
  case scalar.scalar.scalar => exact h.trans h'
  case list.list.list => exact CopiesList.trans h h'
  case sequence.sequence.sequence => exact h.trans h'

theorem CopiesList.trans {vs ws us : List Linked.Value} (h : CopiesList vs ws)
    (h' : CopiesList ws us) : CopiesList vs us := by
  cases vs <;> cases ws <;> simp only [CopiesList] at h <;> cases us <;>
    simp only [CopiesList] at h' ⊢
  case cons.cons.cons => exact ⟨h.1.trans h'.1, h.2.trans h'.2⟩

end

end Tree

namespace Item

theorem Copies.symm {x y : Linked.Item} (h : Copies x y) : Copies y x := by
  cases x <;> cases y <;> simp only [Copies] at h ⊢
  case error.error => exact h.symm
  case ok.ok => exact h.symm

theorem Copies.trans {x y z : Linked.Item} (h : Copies x y) (h' : Copies y z) : Copies x z := by
  cases x <;> cases y <;> simp only [Copies] at h <;> cases z <;> simp only [Copies] at h' ⊢
  case error.error.error => exact h.trans h'
  case ok.ok.ok => exact h.trans h'

end Item

namespace Tree

mutual

theorem copies_ofPlain_iff {t : Plain} {w : Linked.Value} :
    (ofPlain t).Copies w ↔ w = ofPlain t := by
  cases t with
  | scalar x =>
    cases w with
    | scalar y => exact ⟨fun h => congrArg scalar (Eq.symm h), fun h => (scalar.inj h).symm⟩
    | list _ | sequence _ => exact ⟨False.elim, nofun⟩
  | list ts =>
    cases w with
    | list ws => exact copiesList_ofPlain_iff.trans ⟨congrArg list, list.inj⟩
    | scalar _ | sequence _ => exact ⟨False.elim, nofun⟩
  | sequence e => exact e.elim

theorem copiesList_ofPlain_iff {ts : List Plain} {ws : List Linked.Value} :
    CopiesList (mapList Empty.elim ts) ws ↔ ws = mapList Empty.elim ts := by
  cases ts with
  | nil =>
    cases ws with
    | nil => exact ⟨fun _ => rfl, fun _ => trivial⟩
    | cons _ _ => exact ⟨False.elim, nofun⟩
  | cons t ts =>
    cases ws with
    | nil => exact ⟨False.elim, nofun⟩
    | cons w ws =>
      rw [mapList, CopiesList, copiesList_ofPlain_iff, List.cons.injEq]
      exact and_congr_left fun _ => copies_ofPlain_iff

end

end Tree

theorem Item.copies_ofPlain_iff {x : Except Failure Plain} {y : Linked.Item} :
    (Item.ofPlain x).Copies y ↔ y = Item.ofPlain x := by
  cases x with
  | error e =>
    cases y with
    | error e' =>
      exact ⟨fun h => congrArg Except.error (Eq.symm h), fun h => (Except.error.inj h).symm⟩
    | ok w => exact ⟨False.elim, nofun⟩
  | ok t =>
    cases y with
    | error e' => exact ⟨False.elim, nofun⟩
    | ok w => exact Tree.copies_ofPlain_iff.trans ⟨congrArg Except.ok, Except.ok.inj⟩

theorem Item.length_copyListWith
    {fork : Linked.Sequence → Engine (Linked.Sequence × Linked.Sequence)} {xs : List Linked.Item}
    {st st' : Store} {rs : List Linked.Item × List Linked.Item}
    (hr : copyListWith fork xs st = .ok (rs, st')) :
    rs.1.length = xs.length ∧ rs.2.length = xs.length := by
  obtain ⟨pairs, _, hpairs, hpure⟩ := Engine.of_bind_ok hr
  cases hpure
  clear hr
  rw [List.unzip_eq_map, List.length_map, List.length_map, and_self]
  induction xs generalizing st pairs with
  | nil =>
    cases hpairs
    rfl
  | cons x xs ih =>
    rw [List.mapM_cons] at hpairs
    obtain ⟨r, _, -, hpairs⟩ := Engine.of_bind_ok hpairs
    obtain ⟨rs, _, hxs, hpairs⟩ := Engine.of_bind_ok hpairs
    cases hpairs
    exact congrArg Nat.succ (ih _ hxs)

/-- What is copied stays beside its copy, and beside the copies that it has already. -/
structure Forks (fork : Linked.Sequence → Engine (Linked.Sequence × Linked.Sequence)) : Prop where
  beside : ∀ {s : Linked.Sequence} {st st' : Store} {r : Linked.Sequence × Linked.Sequence},
    fork s st = .ok (r, st') → r.1.Beside r.2
  left : ∀ {s t : Linked.Sequence} {st st' : Store} {r : Linked.Sequence × Linked.Sequence},
    s.Beside t → fork s st = .ok (r, st') → r.1.Beside t

theorem Sequence.forks_forkWithin (depth : Nat) : Forks (forkWithin depth) := by
  cases depth with
  | zero => exact ⟨nofun, nofun⟩
  | succ depth =>
    constructor
    · intro s st st' r h
      obtain ⟨origin, hint, finished, hooks⟩ := s
      cases origin with
      | direct source =>
        obtain ⟨i, st₁, hadd, h⟩ := Engine.of_bind_ok h
        cases h
        exact ⟨⟨_, _, _, rfl, rfl⟩, rfl, rfl⟩
      | branch place =>
        obtain ⟨_, _, -, h⟩ := Engine.of_bind_ok h
        obtain ⟨_, _, -, h⟩ := Engine.of_bind_ok h
        cases h
        exact ⟨⟨_, _, _, rfl, rfl⟩, rfl, rfl⟩
    · intro s t st st' r hst h
      obtain ⟨i, a, b, hs, ht⟩ := hst.origin
      obtain ⟨origin, hint, finished, hooks⟩ := s
      cases hs
      obtain ⟨_, _, -, h⟩ := Engine.of_bind_ok h
      obtain ⟨_, _, -, h⟩ := Engine.of_bind_ok h
      cases h
      exact ⟨⟨_, _, _, rfl, ht⟩, hst.hint, hst.finished⟩

theorem Sequence.forks_fork : Forks fork where
  beside {_ st _ _} h := (forks_forkWithin (st.fanouts.size + 1)).beside h
  left {_ _ st _ _} h hfork := (forks_forkWithin (st.fanouts.size + 1)).left h hfork

namespace Forks

variable {fork : Linked.Sequence → Engine (Linked.Sequence × Linked.Sequence)}

mutual

theorem copies_tree (h : Forks fork) {v : Linked.Value} {st st' : Store}
    {r : Linked.Value × Linked.Value} (hr : v.copyWith fork st = .ok (r, st')) :
    r.1.Copies r.2 ∧ ∀ w, v.Copies w → r.1.Copies w := by
  cases v with
  | scalar x =>
    cases hr
    exact ⟨rfl, fun _ hw => hw⟩
  | list vs =>
    obtain ⟨rs, _, hrs, hr⟩ := Engine.of_bind_ok hr
    cases hr
    obtain ⟨hcopies, hleft⟩ := copies_list h hrs
    refine ⟨hcopies, fun w hw => ?_⟩
    cases w with
    | list ws => exact hleft ws hw
    | scalar _ | sequence _ => exact hw.elim
  | sequence s =>
    obtain ⟨rs, _, hrs, hr⟩ := Engine.of_bind_ok hr
    cases hr
    refine ⟨h.beside hrs, fun w hw => ?_⟩
    cases w with
    | sequence t => exact h.left hw hrs
    | scalar _ | list _ => exact hw.elim

theorem copies_list (h : Forks fork) {vs : List Linked.Value} {st st' : Store}
    {rs : List Linked.Value × List Linked.Value}
    (hr : Tree.copyListWith fork vs st = .ok (rs, st')) :
    Tree.CopiesList rs.1 rs.2 ∧ ∀ ws, Tree.CopiesList vs ws → Tree.CopiesList rs.1 ws := by
  cases vs with
  | nil =>
    cases hr
    exact ⟨trivial, fun _ hws => hws⟩
  | cons v vs =>
    obtain ⟨r, _, hv, hr⟩ := Engine.of_bind_ok hr
    obtain ⟨rs, _, hvs, hr⟩ := Engine.of_bind_ok hr
    cases hr
    obtain ⟨hcopies, hleft⟩ := copies_tree h hv
    obtain ⟨hcopiesList, hleftList⟩ := copies_list h hvs
    refine ⟨⟨hcopies, hcopiesList⟩, fun ws hws => ?_⟩
    cases ws with
    | nil => exact hws.elim
    | cons w ws => exact ⟨hleft w hws.1, hleftList ws hws.2⟩

end

theorem copies (h : Forks fork) {x : Linked.Item} {st st' : Store} {r : Linked.Item × Linked.Item}
    (hr : Item.copyWith fork x st = .ok (r, st')) :
    r.1.Copies r.2 ∧ ∀ y, x.Copies y → r.1.Copies y := by
  cases x with
  | error e =>
    cases hr
    exact ⟨rfl, fun _ hy => hy⟩
  | ok v =>
    obtain ⟨rs, _, hrs, hr⟩ := Engine.of_bind_ok hr
    cases hr
    obtain ⟨hcopies, hleft⟩ := h.copies_tree hrs
    refine ⟨hcopies, fun y hy => ?_⟩
    cases y with
    | error e => exact hy.elim
    | ok w => exact hleft w hy

theorem copies_items (h : Forks fork) {xs ys : List Linked.Item} {st st' : Store}
    {rs : List Linked.Item × List Linked.Item} (hxs : List.Forall₂ Item.Copies xs ys)
    (hr : Item.copyListWith fork ys st = .ok (rs, st')) :
    List.Forall₂ Item.Copies xs rs.1 ∧ List.Forall₂ Item.Copies xs rs.2 := by
  obtain ⟨pairs, _, hpairs, hpure⟩ := Engine.of_bind_ok hr
  cases hpure
  clear hr
  induction hxs generalizing st pairs with
  | nil =>
    cases hpairs
    exact ⟨.nil, .nil⟩
  | @cons x y xs ys hxy _ ih =>
    rw [List.mapM_cons] at hpairs
    obtain ⟨r, _, hy, hpairs⟩ := Engine.of_bind_ok hpairs
    obtain ⟨rs, _, hys, hpairs⟩ := Engine.of_bind_ok hpairs
    cases hpairs
    obtain ⟨hown, hother⟩ := ih _ hys
    obtain ⟨hcopies, hleft⟩ := h.copies hy
    have hx : x.Copies r.1 := (hleft x hxy.symm).symm
    simp only [List.unzip_cons]
    exact ⟨.cons hx hown, .cons (hx.trans hcopies) hother⟩

end Forks

end LazyCalc
