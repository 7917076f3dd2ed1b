import LazyCalc.Proofs.Fanout.Turns
/-!
How something comes to be read by more than one reader. Whatever makes a copy, for a row, for a call
of a kernel or otherwise, makes branches over the sources that there are, and asks none of them.
-/

namespace LazyCalc

open Engine (Keeps)

/-- `v` has been copied: what is kept of it and the copy have branches over the sources that `v`
read, and no source has been asked for that. -/
structure Tree.Shares (v kept copy : Linked.Value) (st st' : Store) : Prop where
  becomes : v.Becomes (fun i source => st'.Sources i source) kept
  beside : kept.Copies copy
  unasked : ∀ i source, st.Sources i source → st'.Sources i source

theorem Tree.shares_copyWith {v kept copy : Linked.Value} {st st' : Store}
    (h : v.copyWith Sequence.fork st = .ok ((kept, copy), st')) : v.Shares kept copy st st' where
  becomes := becomes_copyWith h
  beside := (Sequence.forks_fork.copies_tree h).1
  unasked i source hi := keeps_copyWith (Store.Sources.keeps_fork i source) v _ _ _ hi h

theorem Collection.shares_copyWith {c kept copy : Linked.Collection} {st st' : Store}
    (h : c.copyWith Sequence.fork st = .ok ((kept, copy), st')) :
    c.toValue.Shares kept.toValue copy.toValue st st' := by
  refine Tree.shares_copyWith ?_
  cases c with
  | list vs =>
    obtain ⟨rs, _, hrs, h⟩ := Engine.of_bind_ok h
    cases h
    exact (Engine.bind_eq hrs).trans rfl
  | sequence s =>
    obtain ⟨rs, _, hrs, h⟩ := Engine.of_bind_ok h
    cases h
    exact (Engine.bind_eq hrs).trans rfl

theorem Tree.Shares.pair {v kept copy v' kept' copy' : Linked.Value} {st st₁ st' : Store}
    (h : v.Shares kept copy st st₁) (h' : v'.Shares kept' copy' st₁ st') :
    (Tree.list [v, v']).Shares (.list [kept, kept']) (.list [copy, copy']) st st' where
  becomes :=
    ⟨Tree.Rel.mono (fun _ _ => Sequence.Becomes.mono h'.unasked) h.becomes, h'.becomes, trivial⟩
  beside := ⟨h.beside, h'.beside, trivial⟩
  unasked i source hi := h'.unasked i source (h.unasked i source hi)

namespace Store

theorem lt_setCell {k : Nat} {st : Store} (h : k < st.cells.size) (j : Nat) (place : Place Cell) :
    k < (st.setCell j place).cells.size := by
  simpa [setCell] using h

theorem guard_lt_cells (k : Nat) : Guard (fun st => k < st.cells.size) fun _ _ => True where
  record _ h := h
  lend h _ := ⟨h, trivial⟩
  leave _ h := h
  put h _ := h
  vacate h _ := h
  lendCell h _ := ⟨lt_setCell h _ _, lt_setCell h _ _, fun _ => lt_setCell h _ _⟩

end Store

theorem Engine.shares_read {k : Nat} {c : Linked.Collection} {st st' : Store}
    (h : Engine.read k st = .ok (c, st')) : ∃ (cell : Cell) (kept : Linked.Collection),
      st.cells[k]? = some (.held cell) ∧
      st'.cells[k]? = some (.held { cell with collection := kept }) ∧
      cell.collection.toValue.Shares kept.toValue c.toValue st st' := by
  obtain ⟨cell, st₁, hlend, h⟩ := Engine.of_bind_ok h
  obtain ⟨hk, rfl⟩ := Store.of_lendCell hlend
  obtain ⟨⟨kept, copy⟩, st₂, hcopy, h⟩ := Engine.of_bind_ok h
  have hshares := Collection.shares_copyWith hcopy
  have hfork (s : Linked.Sequence) : Keeps (fun st => k < st.cells.size) s.fork :=
    (Store.guard_lt_cells k).keeps_fork (fun h _ => h) (fun _ h => h) s
  have hlt : k < (st.setCell k .lent).cells.size :=
    Store.lt_setCell (Array.getElem?_eq_some_iff.mp hk).1 k .lent
  have hlt₂ : k < st₂.cells.size := Collection.keeps_copyWith hfork cell.collection _ _ _ hlt hcopy
  cases h
  refine ⟨cell, kept, hk, ?_, hshares.becomes, hshares.beside, hshares.unasked⟩
  rw [Store.getElem?_setCell, if_pos rfl, if_pos hlt₂]

/-- A pull asks the source of a fan-out once if the branch has nothing before it and the source is
not done, and does not ask it otherwise. -/
inductive Shared.AsksFor (d : Linked.Drive) (slot : Nat) (st : Store) : Shared → Shared → Prop
  | needless {shared shared' : Shared}
    (h : shared.fanout.backlog slot ≠ [] ∨ shared.fanout.done = true)
    (hsource : shared'.source = shared.source) : AsksFor d slot st shared shared'
  | once {shared shared' : Shared} {item : Option Linked.Item} {st₁ : Store}
    (hpop : shared.fanout.backlog slot = []) (hdone : ¬ shared.fanout.done = true)
    (hstep : shared.source.step d st = .ok ((item, shared'.source), st₁)) :
    AsksFor d slot st shared shared'

theorem Shared.Pulls.asksFor {d : Linked.Drive} {i slot : Nat} {st st' : Store}
    {shared shared' : Shared} {x : Option Linked.Item} (h : shared.Pulls d i slot st st' x shared') :
    shared.AsksFor d slot (st.setFanout i .lent) shared' := by
  cases h with
  | waiting hpop =>
    refine .needless (.inl fun hnil => ?_) rfl
    cases (Fanout.pop?_eq_none_iff.mpr hnil).symm.trans hpop
  | drained hpop hdone => exact .needless (.inr hdone) rfl
  | ended hpop hdone hstep => exact .once (Fanout.pop?_eq_none_iff.mp hpop) hdone hstep
  | produced hpop hdone hstep => exact .once (Fanout.pop?_eq_none_iff.mp hpop) hdone hstep

/-- Whatever is read more than once is shared, and asked for no more than its readers need. -/
structure ReadsShared : Prop where
  copy : ∀ (n : Nat) (v kept copy : Linked.Value) (st st' : Store),
    (Drive.ofFuel n).copy v st = .ok ((kept, copy), st') → v.Shares kept copy st st'
  /-- The arguments of a row are copies of those of the batch. -/
  arguments : ∀ (n : Nat) (plan : Scalar → Extent → Except Failure Plan) (limit : Nat)
    (a kept copy : Linked.Value) (st st' : Store),
    (Trailing.one (Drive.ofFuel n) plan limit).copy a st = .ok ((kept, copy), st') →
      a.Shares kept copy st st'
  pairs : ∀ (n : Nat) (plan : Scalar × Scalar → Extent → Except Failure Plan) (limit : Nat)
    (args kept copy : Linked.Value × Linked.Value) (st st' : Store),
    (Trailing.two (Drive.ofFuel n) plan limit).copy args st = .ok ((kept, copy), st') →
      (Tree.list [args.1, args.2]).Shares (.list [kept.1, kept.2]) (.list [copy.1, copy.2]) st st'
  /-- Each call of a kernel reads a copy of what is in the cell. -/
  read : ∀ (n k : Nat) (c : Linked.Collection) (st st' : Store),
    (Drive.ofFuel n).read k st = .ok (c, st') → ∃ (cell : Cell) (kept : Linked.Collection),
      st.cells[k]? = some (.held cell) ∧
      st'.cells[k]? = some (.held { cell with collection := kept }) ∧
      cell.collection.toValue.Shares kept.toValue c.toValue st st'
  pull : ∀ (n i slot : Nat) (x : Option Linked.Item) (st st' : Store),
    pullBranch (Drive.ofFuel n) ⟨i, slot⟩ st = .ok (x, st') → ∃ shared shared' : Shared,
      st.Shows i (.held shared) ∧ st'.Shows i (.held shared') ∧
      shared.AsksFor (Drive.ofFuel n) slot (st.setFanout i .lent) shared'

theorem readsShared : ReadsShared where
  copy n v kept copy st st' := Tree.shares_copyWith
  arguments n plan limit a kept copy st st' := Tree.shares_copyWith
  pairs n plan limit args kept copy st st' h := by
    obtain ⟨⟨a, a'⟩, st₁, ha, h⟩ := Engine.of_bind_ok h
    obtain ⟨⟨b, b'⟩, st₂, hb, h⟩ := Engine.of_bind_ok h
    cases h
    exact (Tree.shares_copyWith ha).pair (Tree.shares_copyWith hb)
  read n k c st st' := Engine.shares_read
  pull n i slot x st st' h := by
    obtain ⟨shared, shared', hi, hpulls, hi'⟩ := Store.of_pullBranch h
    exact ⟨shared, shared', hi, hi', hpulls.asksFor⟩

end LazyCalc
