import LazyCalc.Proofs.Broadcast.Grid
import LazyCalc.Proofs.Collections.Afresh
/-!
How deep the recursions go into values without sequences, and that each of them heeds its limit: it
goes through only if it is no deeper than the limit, and it is refused for its depth only if it is
deeper. A broadcast goes down the grid of its operands; a batch and the rows of a total go down
their lists, and further arguments go on from the level of the list that they are with.
-/

namespace LazyCalc

/-- What comes of a recursion that goes down to the level `deepest`. -/
structure Heeds {α : Type} (limit deepest : Nat) (x : Except Failure α) : Prop where
  passed : ∀ a, x = .ok a → deepest ≤ limit
  refused : ∀ l, x = .error (.nestingTooDeep l) → l = limit ∧ limit < deepest

def Unlimited {α : Type} (x : Except Failure α) : Prop := ∀ l, x ≠ .error (.nestingTooDeep l)

namespace Unlimited

variable {α β : Type}

theorem ok (a : α) : Unlimited (.ok a : Except Failure α) := by
  rintro l ⟨⟩

theorem bind {x : Except Failure α} {f : α → Except Failure β} (hx : Unlimited x)
    (hf : ∀ a, Unlimited (f a)) : Unlimited (x >>= f) := by
  cases x with
  | ok a => exact hf a
  | error e =>
    rintro l ⟨⟩
    exact hx l rfl

theorem map {x : Except Failure α} (hx : Unlimited x) (f : α → β) : Unlimited (x.map f) := by
  cases x with
  | ok a => exact ok _
  | error e =>
    rintro l ⟨⟩
    exact hx l rfl

end Unlimited

namespace Heeds

variable {α β : Type} {limit deepest deepest' : Nat} {x : Except Failure α}

theorem of_unlimited (h : Unlimited x) (hle : deepest ≤ limit) : Heeds limit deepest x :=
  ⟨fun _ _ => hle, fun l hl => absurd hl (h l)⟩

theorem refuse (h : limit < deepest) :
    Heeds limit deepest (.error (.nestingTooDeep limit) : Except Failure α) :=
  ⟨nofun, fun _ hl => ⟨(Failure.nestingTooDeep.inj (Except.error.inj hl)).symm, h⟩⟩

theorem map (h : Heeds limit deepest x) (f : α → β) : Heeds limit deepest (x.map f) := by
  cases x with
  | ok a => exact ⟨fun _ _ => h.passed a rfl, nofun⟩
  | error e => exact ⟨nofun, fun l hl => h.refused l (congrArg Except.error (Except.error.inj hl))⟩

theorem after (h : Heeds limit deepest' x) (hle : deepest ≤ limit) :
    Heeds limit (max deepest deepest') x :=
  ⟨fun a ha => max_le hle (h.passed a ha),
    fun l hl => (h.refused l hl).imp_right fun hlt => lt_max_of_lt_right hlt⟩

theorem before {e : Failure} (h : Heeds limit deepest (.error e : Except Failure α)) :
    Heeds limit (max deepest deepest') (.error e : Except Failure β) :=
  ⟨nofun, fun l hl => (h.refused l (congrArg Except.error (Except.error.inj hl))).imp_right
    fun hlt => lt_max_of_lt_left hlt⟩

theorem fails_iff (h : Heeds limit deepest x)
    (hx : ∀ e, x = .error e → ∃ l, e = .nestingTooDeep l) :
    ((∃ e, x = .error e) ↔ limit < deepest) ∧ ∀ e, x = .error e → e = .nestingTooDeep limit := by
  refine ⟨⟨?_, fun hlt => ?_⟩, fun e he => ?_⟩
  · rintro ⟨e, he⟩
    obtain ⟨l, rfl⟩ := hx e he
    exact (h.refused l he).2
  · cases x with
    | ok a => exact absurd (h.passed a rfl) (Nat.not_le_of_lt hlt)
    | error e => exact ⟨e, rfl⟩
  · obtain ⟨l, rfl⟩ := hx e he
    rw [(h.refused l he).1]

end Heeds

def Heeding {α : Type} (limit deepest : Nat) (X : Option (Except Failure α)) : Prop :=
  ∃ x, X = some x ∧ Heeds limit deepest x

namespace Grid

variable {α : Type}

mutual

def deepest (depth : Nat) : Grid α → Nat
  | .leaf _ => depth
  | .rows gs => max depth (deepestRow (depth + 1) gs)

def deepestRow (depth : Nat) : List (Grid α) → Nat
  | [] => 0
  | g :: gs => max (deepest depth g) (deepestRow depth gs)

end

theorem le_deepest (depth : Nat) (g : Grid α) : depth ≤ g.deepest depth := by
  cases g with
  | leaf a => exact le_refl _
  | rows gs => exact le_max_left _ _

variable {run : α → Option Lone.Item} (n limit : Nat)

mutual

theorem heeding_carry (hrun : ∀ a, ∃ x, run a = some x ∧ Unlimited x) (depth : Nat) (g : Grid α) :
    Heeding limit (g.deepest depth) (g.carry (Drive.alone n) run limit depth) := by
  by_cases hlt : limit < depth
  · refine ⟨.error (.nestingTooDeep limit), ?_, .refuse (hlt.trans_le (g.le_deepest depth))⟩
    cases g <;> rw [carry, if_pos hlt] <;> rfl
  · cases g with
    | leaf a =>
      obtain ⟨x, hx, hunlimited⟩ := hrun a
      exact ⟨x, by rw [carry, if_neg hlt, hx], .of_unlimited hunlimited (Nat.le_of_not_lt hlt)⟩
    | rows gs =>
      obtain ⟨x, hx, hheeds⟩ := heeding_carryRows hrun (depth + 1) [] gs
      exact ⟨x, by rw [carry, if_neg hlt, hx], hheeds.after (Nat.le_of_not_lt hlt)⟩

theorem heeding_carryRows (hrun : ∀ a, ∃ x, run a = some x ∧ Unlimited x) (depth : Nat)
    (made : List Lone.Value) (gs : List (Grid α)) :
    Heeding limit (deepestRow depth gs) (carryRows (Drive.alone n) run limit depth made gs) := by
  cases gs with
  | nil => exact ⟨_, rfl, .of_unlimited (.ok _) (Nat.zero_le _)⟩
  | cons g gs =>
    obtain ⟨x, hx, hheeds⟩ := heeding_carry hrun depth g
    rw [carryRows, hx]
    cases x with
    | error e => exact ⟨.error e, rfl, hheeds.before⟩
    | ok v =>
      obtain ⟨y, hy, hrest⟩ := heeding_carryRows hrun depth (v :: made) gs
      exact ⟨y, hy, hrest.after (hheeds.passed v rfl)⟩

end

end Grid

theorem Drive.drop_alone (n : Nat) (ts : List Plain) :
    (Drive.alone n).drop (Tree.mapList Empty.elim ts) = pure () := rfl

namespace Tree

variable {σ : Type}

mutual

/-- The deepest level that a recursion into rows comes to in a tree at a level; below what is no list
of lists it goes on by itself, down to the level `own`. -/
def rowDepth (own : Nat → Nat) (depth : Nat) : Tree σ → Nat
  | .list items =>
    if (Tree.list items).isBatch then rowsDepth own (depth + 1) items else own depth
  | .scalar _ | .sequence _ => own depth

def rowsDepth (own : Nat → Nat) (depth : Nat) : List (Tree σ) → Nat
  | [] => 0
  | t :: ts => max (rowDepth own depth t) (rowsDepth own depth ts)

end

mutual

theorem le_rowDepth {own : Nat → Nat} (hown : ∀ depth, depth ≤ own depth) (depth : Nat)
    (t : Tree σ) : depth ≤ t.rowDepth own depth := by
  cases t with
  | scalar x => exact hown depth
  | sequence s => exact hown depth
  | list items =>
    rw [rowDepth]
    split
    · next hbatch =>
      refine (Nat.le_succ depth).trans (le_rowsDepth hown (depth + 1) items ?_)
      rintro rfl
      cases hbatch
    · exact hown depth

theorem le_rowsDepth {own : Nat → Nat} (hown : ∀ depth, depth ≤ own depth) (depth : Nat)
    (ts : List (Tree σ)) (hts : ts ≠ []) : depth ≤ rowsDepth own depth ts := by
  cases ts with
  | nil => exact absurd rfl hts
  | cons t ts => exact (le_rowDepth hown depth t).trans (le_max_left _ _)

end

theorem isBatch_mapList {τ : Type} (f : σ → τ) (ts : List (Tree σ)) :
    (Tree.list (mapList f ts)).isBatch = (Tree.list ts).isBatch := by
  cases ts with
  | nil => rfl
  | cons t ts => cases t <;> rfl

end Tree

namespace Lone

section

variable {limit : Nat} {read : (depth : Nat) → Collection → Option Item} {own : Nat → Nat}

mutual

theorem heeding_byRows (hown : ∀ depth, depth ≤ own depth)
    (hread : ∀ depth (ts : List Plain),
      Heeding limit (own depth) (read depth (.list (Tree.mapList Empty.elim ts))))
    (depth : Nat) (t : Plain) :
    Heeding limit (t.rowDepth own depth) (byRows limit read depth (.ofPlain t)) := by
  by_cases hlt : limit < depth
  · refine ⟨.error (.nestingTooDeep limit), ?_, .refuse (hlt.trans_le (t.le_rowDepth hown depth))⟩
    cases t with
    | scalar x => exact if_pos hlt
    | list ts => exact if_pos hlt
    | sequence e => exact e.elim
  · cases t with
    | scalar x =>
      have := hread depth [.scalar x]
      rw [Tree.ofPlain, Tree.map, byRows, if_neg hlt]
      · exact this
      · rintro items ⟨⟩
    | list ts =>
      rw [Tree.ofPlain, Tree.map, byRows, if_neg hlt, Tree.isBatch_mapList, Tree.rowDepth]
      split
      · obtain ⟨x, hx, hheeds⟩ := heeding_ofRows hown hread (depth + 1) ts
        exact ⟨_, by rw [hx]; rfl, hheeds.map .list⟩
      · exact hread depth ts
    | sequence e => exact e.elim

theorem heeding_ofRows (hown : ∀ depth, depth ≤ own depth)
    (hread : ∀ depth (ts : List Plain),
      Heeding limit (own depth) (read depth (.list (Tree.mapList Empty.elim ts))))
    (depth : Nat) (ts : List Plain) :
    Heeding limit (Tree.rowsDepth own depth ts)
      (ofRows limit read depth (Tree.mapList Empty.elim ts)) := by
  cases ts with
  | nil => exact ⟨_, rfl, .of_unlimited (.ok _) (Nat.zero_le _)⟩
  | cons t ts =>
    obtain ⟨x, hx, hheeds⟩ := heeding_byRows hown hread depth t
    rw [Tree.ofPlain] at hx
    rw [Tree.mapList, ofRows, hx]
    cases x with
    | error e => exact ⟨.error e, rfl, hheeds.before⟩
    | ok w =>
      obtain ⟨y, hy, hrest⟩ := heeding_ofRows hown hread depth ts
      exact ⟨_, by simp only [Option.bind_eq_bind, Option.bind_some, hy]; rfl,
        (hrest.map (w :: ·)).after (hheeds.passed w rfl)⟩

end

end

def ready (ts : List Plain) (hint : Hint) : Sequence :=
  ⟨.direct (.items ((Tree.mapList Empty.elim ts).map .ok)), hint, false, []⟩

theorem walkFor_ready_nil {α β : Type} (n : Nat) (visit : α → Item → Option (Flow α β)) (k : Nat)
    (state : α) (hint : Hint) :
    (Drive.alone (n + 1)).walkFor visit (k + 1) state (ready [] hint) =
      some (.onward state, { ready [] hint with finished := true }) := rfl

theorem walkFor_ready_cons {α β : Type} (n : Nat) (visit : α → Item → Option (Flow α β)) (k : Nat)
    (state : α) (t : Plain) (ts : List Plain) (hint : Hint) :
    (Drive.alone (n + 1)).walkFor visit (k + 1) state (ready (t :: ts) hint) =
      (visit state (.ok (.ofPlain t))).bind fun
        | .onward state => (Drive.alone (n + 1)).walkFor visit k state (ready ts hint)
        | .halt result => some (.halt result, ready ts hint) := rfl

theorem exists_addUp (hadd : ∀ a b : Scalar, Unlimited (a.add b))
    {finish : Scalar → Nat → Except Failure Scalar}
    (hfinish : ∀ total count, Unlimited (finish total count)) (ts : List Plain) (hint : Hint)
    (first : Scalar) :
    ∃ x, Unlimited x ∧
      ∀ n, ts.length ≤ n → (ready ts hint).addUp (Drive.alone (n + 1)) finish first = some x := by
  -- for every sum so far, with the turns `k` of the walk apart from the fuel `n` of its steps
  suffices h : ∀ sum : Scalar × Nat, ∃ flow s, (∀ e, flow = .halt e → Unlimited (.error e : Item)) ∧
      ∀ n k, ts.length ≤ k → (Drive.alone (n + 1)).walkFor
        (LazyCalc.Sequence.addStep (Drive.alone (n + 1))) (k + 1) sum (ready ts hint) =
          some (flow, s) by
    obtain ⟨flow, s, hunlimited, hwalk⟩ := h (first, 1)
    have haddUp (n : Nat) (hn : ts.length ≤ n) : (ready ts hint).addUp (Drive.alone (n + 1)) finish
        first = match (flow, s) with
          | (.onward (total, count), _) => some ((finish total count).map .scalar)
          | (.halt e, _) => some (.error e) := by
      change Option.bind ((Drive.alone (n + 1)).walkFor _ (n + 1) (first, 1) (ready ts hint)) _ = _
      rw [hwalk n n hn]
      cases flow <;> rfl
    cases flow with
    | onward sum => exact ⟨_, (hfinish sum.1 sum.2).map .scalar, haddUp⟩
    | halt e => exact ⟨_, hunlimited e rfl, haddUp⟩
  induction ts with
  | nil =>
    exact fun sum => ⟨.onward sum, { ready [] hint with finished := true }, nofun,
      fun n k _ => walkFor_ready_nil n _ k sum hint⟩
  | cons t ts ih =>
    intro sum
    simp only [walkFor_ready_cons]
    cases t with
    | scalar x =>
      cases htotal : sum.1.add x with
      | ok total =>
        obtain ⟨flow, s, hunlimited, hwalk⟩ := ih (total, sum.2 + 1)
        refine ⟨flow, s, hunlimited, fun n k hk => ?_⟩
        obtain ⟨k, rfl⟩ := Nat.exists_eq_add_of_le' (Nat.one_le_of_lt hk)
        simp only [Tree.ofPlain, Tree.map, LazyCalc.Sequence.addStep, htotal]
        exact hwalk n k (Nat.le_of_succ_le_succ hk)
      | error e =>
        refine ⟨.halt e, ready ts hint, ?_, fun n k hk => ?_⟩
        · rintro _ ⟨⟩ l ⟨⟩
          exact hadd sum.1 x l htotal
        · simp only [Tree.ofPlain, Tree.map, LazyCalc.Sequence.addStep, htotal]
          rfl
    | list us =>
      obtain ⟨text, htext⟩ : ∃ text, ∀ n, LazyCalc.Sequence.addStep (Drive.alone (n + 1)) sum
          (.ok (.ofPlain (.list us))) = some (.halt (.type text)) := ⟨_, fun _ => rfl⟩
      refine ⟨.halt (.type text), ready ts hint, ?_, fun n k _ => by rw [htext]; rfl⟩
      rintro _ ⟨⟩ l ⟨⟩
    | sequence e => exact e.elim

theorem exists_convert {limit depth : Nat} (own : Nat → Nat) {F : Nat → Nat → Value → Option Item}
    (ts : List Plain) (hts : ∀ t ∈ ts, ∃ N x, Heeds limit (t.rowDepth own depth) x ∧
      ∀ n m, N ≤ n → N ≤ m → F n m (.ofPlain t) = some x) (hint : Hint) (made : List Value) :
    ∃ N x, Heeds limit (Tree.rowsDepth own depth ts) x ∧ ∀ n m, N ≤ n → N ≤ m →
      (ready ts hint).convert (Drive.alone (n + 1)) (F (n + 1) m) made = some x := by
  suffices h : ∀ made : List Value, ∃ N flow s x, Heeds limit (Tree.rowsDepth own depth ts) x ∧
      (∀ n, (match flow with
        | .onward made => some (.ok (.list (List.reverse made)))
        | .halt gathered => (Drive.alone n).settle gathered) = some x) ∧
      ∀ n m k, N ≤ n → N ≤ m → N ≤ k → (Drive.alone (n + 1)).walkFor
        (LazyCalc.Sequence.convertStep (F (n + 1) m)) (k + 1) made (ready ts hint) =
          some (flow, s) by
    obtain ⟨N, flow, s, x, hheeds, hflow, hwalk⟩ := h made
    refine ⟨N, x, hheeds, fun n m hn hm => ?_⟩
    change Option.bind ((Drive.alone (n + 1)).walkFor _ (n + 1) made (ready ts hint)) _ = _
    rw [hwalk n m n hn hm hn, Option.bind_some, ← hflow (n + 1)]
    cases flow <;> rfl
  induction ts with
  | nil =>
    exact fun made => ⟨0, .onward made, { ready [] hint with finished := true }, _,
      .of_unlimited (.ok _) (Nat.zero_le _), fun n => rfl,
      fun n m k _ _ _ => walkFor_ready_nil n _ k made hint⟩
  | cons t ts ih =>
    intro made
    simp only [walkFor_ready_cons, LazyCalc.Sequence.convertStep]
    obtain ⟨N, x, hheeds, hF⟩ := hts t List.mem_cons_self
    cases x with
    | error e =>
      refine ⟨N, .halt ⟨made.reverse, some e⟩, ready ts hint, .error e, hheeds.before, fun n => rfl,
        fun n m k hn hm hk => ?_⟩
      rw [hF (n + 1) m (hn.trans (Nat.le_succ n)) hm]
      rfl
    | ok w =>
      obtain ⟨N', flow, s, x, hrest, hflow, hwalk⟩ :=
        ih (fun u hu => hts u (List.mem_cons_of_mem t hu)) (w :: made)
      refine ⟨max N (N' + 1), flow, s, x, hrest.after (hheeds.passed w rfl), hflow,
        fun n m k hn hm hk => ?_⟩
      obtain ⟨k, rfl⟩ := Nat.exists_eq_add_of_le' ((Nat.le_add_left 1 N').trans
        ((le_max_right N (N' + 1)).trans hk))
      rw [hF (n + 1) m (((le_max_left _ _).trans hn).trans (Nat.le_succ n)) ((le_max_left _ _).trans hm)]
      exact hwalk n m k (Nat.le_of_succ_le ((le_max_right N _).trans hn))
        (Nat.le_of_succ_le ((le_max_right N _).trans hm))
        (Nat.le_of_succ_le_succ ((le_max_right N _).trans hk))

section

variable (n m : Nat) {depth : Nat} (finish : Scalar → Nat → Except Failure Scalar)
  (hle : depth ≤ defaultLimit) {c : Collection} {ts : List Plain} {hint : Hint}

include hle

theorem total_ready_scalar {first : Scalar} (hc : c.toSequence = ready (.scalar first :: ts) hint) :
    c.total (Drive.alone (n + 1)) finish (m + 1) depth =
      (ready ts hint).addUp (Drive.alone (n + 1)) finish first := by
  rw [Collection.total, if_neg (Nat.not_lt_of_le hle), hc]
  rfl

theorem total_ready_list {us : List Plain} (hc : c.toSequence = ready (.list us :: ts) hint) :
    c.total (Drive.alone (n + 1)) finish (m + 1) depth =
      ((Collection.ofValue (Tree.ofPlain (.list us))).total (Drive.alone (n + 1)) finish m
        (depth + 1)).bind fun
        | .ok made => (ready ts hint).convert (Drive.alone (n + 1)) (fun row =>
            (Collection.ofValue row).total (Drive.alone (n + 1)) finish m (depth + 1)) [made]
        | .error e => some (.error e) := by
  rw [Collection.total, if_neg (Nat.not_lt_of_le hle), hc]
  change Option.bind ((Collection.ofValue (Tree.ofPlain (.list us))).total _ finish m (depth + 1)) _ = _
  refine congrArg (Option.bind _) (funext fun x => ?_)
  cases x <;> rfl

end

/-- With enough fuel the total of a value comes to something that heeds the limit. -/
def TotalHeeds (finish : Scalar → Nat → Except Failure Scalar) (depth : Nat) (t : Plain) : Prop :=
  ∃ N x, Heeds defaultLimit (t.rowDepth id depth) x ∧ ∀ n m, N ≤ n → N ≤ m →
    (Collection.ofValue (Tree.ofPlain t)).total (Drive.alone (n + 1)) finish (m + 1) depth = some x

namespace TotalHeeds

variable {finish : Scalar → Nat → Except Failure Scalar} {depth : Nat} {us ts : List Plain}

theorem too_deep (h : defaultLimit < depth) (t : Plain) : TotalHeeds finish depth t := by
  have hdeep := h.trans_le (t.le_rowDepth (fun _ => le_refl _) depth)
  refine ⟨0, .error (.nestingTooDeep defaultLimit), .refuse hdeep, fun n m _ _ => ?_⟩
  rw [Collection.total, if_pos h]
  rfl

theorem nil (hfinish : ∀ total count, Unlimited (finish total count)) (hle : depth ≤ defaultLimit) :
    TotalHeeds finish depth (.list []) := by
  refine ⟨0, (finish (.integer 0) 0).map .scalar, .of_unlimited ((hfinish _ _).map _) hle,
    fun n m _ _ => ?_⟩
  rw [Collection.total, if_neg (Nat.not_lt_of_le hle)]
  rfl

theorem rows (hle : depth ≤ defaultLimit) (hus : TotalHeeds finish (depth + 1) (.list us))
    (hts : ∀ u ∈ ts, TotalHeeds finish (depth + 1) u) :
    TotalHeeds finish depth (.list (.list us :: ts)) := by
  have hready : (Collection.ofValue (Tree.ofPlain (.list (.list us :: ts))) :
      Collection).toSequence = ready (.list us :: ts) (.exact (Tree.mapList Empty.elim
        (.list us :: ts) : List Value).length) := rfl
  obtain ⟨N, x, hheeds, hrow⟩ := hus
  have hrowDepth : (Tree.list (.list us :: ts) : Plain).rowDepth id depth =
      max ((Tree.list us : Plain).rowDepth id (depth + 1)) (Tree.rowsDepth id (depth + 1) ts) :=
    rfl
  rw [TotalHeeds, hrowDepth]
  cases x with
  | error e =>
    refine ⟨N + 1, .error e, hheeds.before, fun n m hn hm => ?_⟩
    obtain ⟨m, rfl⟩ := Nat.exists_eq_add_of_le' ((Nat.le_add_left 1 N).trans hm)
    rw [total_ready_list n (m + 1) finish hle hready,
      hrow n m (Nat.le_of_succ_le hn) (Nat.le_of_succ_le_succ hm)]
    rfl
  | ok made =>
    have hrows (u : Plain) (hu : u ∈ ts) : ∃ N x, Heeds defaultLimit (u.rowDepth id (depth + 1)) x ∧
        ∀ n m, N ≤ n → N ≤ m → (Collection.ofValue (Tree.ofPlain u)).total (Drive.alone n) finish m
          (depth + 1) = some x := by
      obtain ⟨N, x, hheeds, htotal⟩ := hts u hu
      refine ⟨N + 1, x, hheeds, fun n m hn hm => ?_⟩
      obtain ⟨n, rfl⟩ := Nat.exists_eq_add_of_le' ((Nat.le_add_left 1 N).trans hn)
      obtain ⟨m, rfl⟩ := Nat.exists_eq_add_of_le' ((Nat.le_add_left 1 N).trans hm)
      exact htotal n m (Nat.le_of_succ_le_succ hn) (Nat.le_of_succ_le_succ hm)
    obtain ⟨N', y, hrest, hconvert⟩ := exists_convert id (F := fun n m row =>
      (Collection.ofValue row).total (Drive.alone n) finish m (depth + 1)) ts hrows
        (.exact (Tree.mapList Empty.elim (.list us :: ts) : List Value).length) [made]
    refine ⟨max (N + 1) N', y, hrest.after (hheeds.passed made rfl), fun n m hn hm => ?_⟩
    have hm' := (le_max_left (N + 1) N').trans hm
    rw [total_ready_list n m finish hle hready]
    obtain ⟨k, rfl⟩ := Nat.exists_eq_add_of_le' ((Nat.le_add_left 1 N).trans hm')
    rw [hrow n k (Nat.le_of_succ_le ((le_max_left _ _).trans hn)) (Nat.le_of_succ_le_succ hm')]
    exact hconvert n (k + 1) ((le_max_right _ _).trans hn) ((le_max_right _ _).trans hm)

end TotalHeeds

theorem totalHeeds (hadd : ∀ a b : Scalar, Unlimited (a.add b))
    {finish : Scalar → Nat → Except Failure Scalar}
    (hfinish : ∀ total count, Unlimited (finish total count)) (depth : Nat) (t : Plain) :
    TotalHeeds finish depth t := by
  by_cases hlt : defaultLimit < depth
  · exact .too_deep hlt t
  have hle := Nat.le_of_not_lt hlt
  match t with
  | .sequence e => exact e.elim
  | .scalar first =>
    obtain ⟨x, hx, haddUp⟩ := exists_addUp hadd hfinish [] (.exact 1) first
    exact ⟨0, x, .of_unlimited hx hle, fun n m _ _ =>
      (total_ready_scalar n m finish hle rfl).trans (haddUp n (Nat.zero_le n))⟩
  | .list [] => exact .nil hfinish hle
  | .list (.sequence e :: _) => exact e.elim
  | .list (.scalar first :: ts) =>
    have hready : (Collection.ofValue (Tree.ofPlain (.list (.scalar first :: ts))) :
        Collection).toSequence = ready (.scalar first :: ts) (.exact (Tree.mapList Empty.elim
          (.scalar first :: ts) : List Value).length) := rfl
    obtain ⟨x, hx, haddUp⟩ := exists_addUp hadd hfinish ts _ first
    exact ⟨ts.length, x, .of_unlimited hx hle, fun n m hn _ =>
      (total_ready_scalar n m finish hle hready).trans (haddUp n hn)⟩
  | .list (.list us :: ts) =>
    exact .rows hle (totalHeeds hadd hfinish (depth + 1) (.list us))
      fun u hu => totalHeeds hadd hfinish (depth + 1) u
termination_by sizeOf t
decreasing_by
  · simp only [Tree.list.sizeOf_spec, List.cons.sizeOf_spec]
    omega
  · have := List.sizeOf_lt_of_mem hu
    simp only [Tree.list.sizeOf_spec, List.cons.sizeOf_spec]
    omega

end Lone

end LazyCalc
