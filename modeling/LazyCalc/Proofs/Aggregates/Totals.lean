import LazyCalc.Operator.Builtin
import LazyCalc.Proofs.Aggregates.Piles
import LazyCalc.Proofs.Coupling.Reading
import LazyCalc.Proofs.Desk.Standing
import LazyCalc.Proofs.Lone.Walking
/-!
Sums and means of values that come to piles. Pulls go through a list and through a sequence over the
same elements alike, so both have the total of the pile.
-/

namespace LazyCalc

open Filter

namespace Lone

mutual

/-- A value and the pile that it comes to, if all there is to it is pulled. -/
inductive Shows : Value → Pile → Prop where
  | scalar (x : Scalar) : Shows (.scalar x) (.scalar x)
  | list {vs : List Value} {pulls : Pulls} (h : Lists vs pulls) :
    Shows (.list vs) (.node .list pulls)
  | sequence {s : Sequence} {pulls : Pulls} (h : Pours s pulls) :
    Shows (.sequence s) (.node .sequence pulls)

inductive Lists : List Value → Pulls → Prop where
  | nil : Lists [] (.ended [])
  | cons {v : Value} {vs : List Value} {first : Pile} {rest : Pulls} (hv : Shows v first)
    (hvs : Lists vs rest) : Lists (v :: vs) (.given [] first rest)

inductive Pours : Sequence → Pulls → Prop where
  | ended {s s' : Sequence} {texts : List String}
    (hpull : Tells (fun n => (Drive.told n).pull s) (none, s') texts) : Pours s (.ended texts)
  | failed {s s' : Sequence} {e : Failure} {texts : List String}
    (hpull : Tells (fun n => (Drive.told n).pull s) (some (.error e), s') texts) :
    Pours s (.failed texts e)
  | given {s s' : Sequence} {v : Value} {texts : List String} {first : Pile} {rest : Pulls}
    (hpull : Tells (fun n => (Drive.told n).pull s) (some (.ok v), s') texts)
    (hv : Shows v first) (hrest : Pours s' rest) : Pours s (.given texts first rest)

end

theorem lists_iff_pours {vs : List Value} {pulls : Pulls} (hint : Hint) :
    Lists vs pulls ↔ Pours (LazyCalc.Sequence.ofValues vs hint) pulls := by
  induction vs generalizing pulls with
  | nil =>
    have hpull := tells_items [] hint
    constructor
    · rintro ⟨⟩
      exact .ended hpull
    · intro h
      cases h with
      | ended h =>
        obtain ⟨-, rfl⟩ := h.unique hpull
        exact .nil
      | failed h => cases (h.unique hpull).1
      | given h hv hrest => cases (h.unique hpull).1
  | cons v vs ih =>
    have hpull := tells_items (.ok v :: vs.map .ok) hint
    constructor
    · rintro ⟨⟩
      rename_i hv hvs
      exact .given hpull hv (ih.mp hvs)
    · intro h
      cases h with
      | ended h => cases (h.unique hpull).1
      | failed h => cases (h.unique hpull).1
      | given h hv hrest =>
        obtain ⟨hitem, rfl⟩ := h.unique hpull
        cases hitem
        exact .cons hv (ih.mpr hrest)

mutual

/-- Some lists are replaced by the sequences over their elements, and some such sequences by the
lists. -/
inductive Rewrapped : Value → Value → Prop where
  | same (v : Value) : Rewrapped v v
  | lists {vs vs' : List Value} (h : RewrappedList vs vs') : Rewrapped (.list vs) (.list vs')
  | sequences {vs vs' : List Value} (h : RewrappedList vs vs') :
    Rewrapped (.sequence (.wrap (.list vs))) (.sequence (.wrap (.list vs')))
  | wrapped {vs vs' : List Value} (h : RewrappedList vs vs') :
    Rewrapped (.list vs) (.sequence (.wrap (.list vs')))
  | unwrapped {vs vs' : List Value} (h : RewrappedList vs vs') :
    Rewrapped (.sequence (.wrap (.list vs))) (.list vs')

inductive RewrappedList : List Value → List Value → Prop where
  | nil : RewrappedList [] []
  | cons {v v' : Value} {vs vs' : List Value} (hv : Rewrapped v v') (hvs : RewrappedList vs vs') :
    RewrappedList (v :: vs) (v' :: vs')

end

mutual

theorem Shows.rewrapped {v v' : Value} {t : Pile} (ht : Shows v t) (h : Rewrapped v v') :
    ∃ t', Shows v' t' ∧ t.Recast t' := by
  cases h with
  | same _ => exact ⟨t, ht, .refl t⟩
  | lists h =>
    cases ht with
    | list hvs =>
      obtain ⟨pulls', hvs', hpulls⟩ := hvs.rewrapped h
      exact ⟨_, .list hvs', .node hpulls⟩
  | sequences h =>
    cases ht with
    | sequence hs =>
      obtain ⟨pulls', hvs', hpulls⟩ := ((lists_iff_pours _).mpr hs).rewrapped h
      exact ⟨_, .sequence ((lists_iff_pours _).mp hvs'), .node hpulls⟩
  | wrapped h =>
    cases ht with
    | list hvs =>
      obtain ⟨pulls', hvs', hpulls⟩ := hvs.rewrapped h
      exact ⟨_, .sequence ((lists_iff_pours _).mp hvs'), .node hpulls⟩
  | unwrapped h =>
    cases ht with
    | sequence hs =>
      obtain ⟨pulls', hvs', hpulls⟩ := ((lists_iff_pours _).mpr hs).rewrapped h
      exact ⟨_, .list hvs', .node hpulls⟩

theorem Lists.rewrapped {vs vs' : List Value} {pulls : Pulls} (hvs : Lists vs pulls)
    (h : RewrappedList vs vs') : ∃ pulls', Lists vs' pulls' ∧ pulls.Recast pulls' := by
  cases hvs with
  | nil =>
    cases h with
    | nil => exact ⟨_, .nil, .ended []⟩
  | cons hv hvs =>
    cases h with
    | cons h hs =>
      obtain ⟨t', hv', ht⟩ := hv.rewrapped h
      obtain ⟨pulls', hvs', hpulls⟩ := hvs.rewrapped hs
      exact ⟨_, .cons hv' hvs', .given ht hpulls⟩

end

section

variable (finish : Scalar → Nat → Except Failure Scalar)

theorem item_ofScalar (result : Except Failure Scalar) :
    ((Spoken.ofScalar result).result.map Tree.ofPlain : Item) = result.map .scalar := by
  cases result <;> rfl

def added : Flow (Scalar × Nat) Failure → Item
  | .onward sum => (finish sum.1 sum.2).map .scalar
  | .halt e => .error e

theorem Pours.walks_addUp {s : Sequence} {pulls : Pulls} (h : Pours s pulls) (total : Scalar)
    (count : Nat) :
    ∃ flow s', Walks (fun n => LazyCalc.Sequence.addStep (Drive.told n)) (total, count) s (flow, s')
        (pulls.addUp finish total count).texts ∧
      added finish flow = (pulls.addUp finish total count).result.map Tree.ofPlain := by
  cases h with
  | @ended _ s' texts hpull =>
    refine ⟨.onward (total, count), s', ?_, (item_ofScalar _).symm⟩
    rw [Pulls.addUp, Spoken.tell, Spoken.ofScalar, List.append_nil]
    exact .ended hpull
  | failed hpull => exact ⟨_, _, .halted hpull (.pure _), rfl⟩
  | given hpull hv hrest =>
    cases hv with
    | scalar x =>
      rw [Pulls.addUp]
      cases hadd : total.add x with
      | error e =>
        have hvisit : Tells (fun n => LazyCalc.Sequence.addStep (Drive.told n) (total, count)
            (.ok (.scalar x))) (.halt e) [] := by
          simp only [LazyCalc.Sequence.addStep, hadd]
          exact .pure _
        exact ⟨_, _, .halted hpull hvisit, rfl⟩
      | ok sum =>
        have hvisit : Tells (fun n => LazyCalc.Sequence.addStep (Drive.told n) (total, count)
            (.ok (.scalar x))) (.onward (sum, count + 1)) [] := by
          simp only [LazyCalc.Sequence.addStep, hadd]
          exact .pure _
        obtain ⟨flow, s', hwalk, hflow⟩ := walks_addUp hrest sum (count + 1)
        exact ⟨flow, s', .onward hpull hvisit hwalk, hflow⟩
    | list _ => exact ⟨_, _, .halted hpull ((Tells.pure ()).bind (.pure _)), rfl⟩
    | sequence _ => exact ⟨_, _, .halted hpull ((Tells.pure ()).bind (.pure _)), rfl⟩

theorem Pours.tells_addUp {s : Sequence} {pulls : Pulls} (h : Pours s pulls) (x : Scalar) :
    Tells (fun n => s.addUp (Drive.told n) finish x)
      ((pulls.addUp finish x 1).result.map Tree.ofPlain) (pulls.addUp finish x 1).texts := by
  obtain ⟨flow, s', hwalk, hflow⟩ := h.walks_addUp finish x 1
  rw [← hflow, ← List.append_nil (Spoken.texts _)]
  refine hwalk.tells.bind ((Tells.pure ()).bind ?_)
  cases flow <;> exact .pure _

/-- What comes of the total of a collection, however much of the fuel is spent before. -/
def Totals (depth : Nat) (c : Collection) (x : Spoken Plain) : Prop :=
  ∀ spent, Tells (fun n => c.total (Drive.told n) finish (n - spent) depth)
    (x.result.map Tree.ofPlain) x.texts

def converted : Flow (List Value) (Gathered Sequence) → Item
  | .onward made => .ok (.list made.reverse)
  | .halt g => settled g

def rowTotal (depth spent n : Nat) (row : Value) : Told Item :=
  (LazyCalc.Collection.ofValue row).total (Drive.told n) finish (n - spent) depth

def TotalsRows (depth : Nat) (s : Sequence) (x : Spoken (List Plain)) : Prop :=
  ∀ (spent : Nat) (made : List Value), ∃ flow s',
    Walks (fun n => LazyCalc.Sequence.convertStep (rowTotal finish depth spent n)) made s (flow, s')
      x.texts ∧
    converted flow = x.result.map fun rows => .list (made.reverse ++ rows.map Tree.ofPlain)

variable {finish} {depth : Nat} {c : Collection} {s s' : Sequence} {v : Value}
  {row : Spoken Plain} {rows : Spoken (List Plain)} {texts : List String}

theorem totals_of_turn {x : Spoken Plain} (h : ∀ spent, Tells (fun n =>
      Collection.totalTurn (Drive.told n) finish
        (fun i => i.2.total (Drive.told n) finish (n - spent) i.1) (depth, c))
      (x.result.map Tree.ofPlain) x.texts) : Totals finish depth c x := by
  intro spent
  refine (h (spent + 1)).congr ?_
  filter_upwards [eventually_gt_atTop spent] with n hn
  rw [show n - spent = n - (spent + 1) + 1 by omega]
  rfl

theorem totals_too_deep (h : defaultLimit < depth) :
    Totals finish depth c (.refused (.nestingTooDeep defaultLimit)) := by
  refine totals_of_turn fun spent => ?_
  simp only [Collection.totalTurn, if_pos h]
  exact (Tells.pure ()).bind (.pure _)

theorem totalsRows_ended (hpull : Tells (fun n => (Drive.told n).pull s) (none, s') texts) :
    TotalsRows finish depth s ((⟨[], .ok []⟩ : Spoken (List Plain)).tell texts) := by
  intro spent made
  refine ⟨.onward made, s', ?_, ?_⟩
  · rw [Spoken.tell, List.append_nil]
    exact .ended hpull
  · exact congrArg (fun vs => Except.ok (Tree.list vs)) (List.append_nil _).symm

theorem totalsRows_failed {e : Failure}
    (hpull : Tells (fun n => (Drive.told n).pull s) (some (.error e), s') texts) :
    TotalsRows finish depth s ((Spoken.refused e).tell texts) :=
  fun _ made => ⟨.halt ⟨made.reverse, some e⟩, s', .halted hpull (.pure _), rfl⟩

theorem totalsRows_given
    (hpull : Tells (fun n => (Drive.told n).pull s) (some (.ok v), s') texts)
    (hrow : Totals finish depth (.ofValue v) row) (hrows : TotalsRows finish depth s' rows) :
    TotalsRows finish depth s ((row.cons rows).tell texts) := by
  intro spent made
  obtain ⟨texts', result⟩ := row
  cases result with
  | error e =>
    have hvisit : Tells (fun n => LazyCalc.Sequence.convertStep (rowTotal finish depth spent n) made
        (.ok v)) (.halt ⟨made.reverse, some e⟩) (texts' ++ []) := (hrow spent).bind (.pure _)
    refine ⟨.halt ⟨made.reverse, some e⟩, s', ?_, rfl⟩
    rw [List.append_nil] at hvisit
    exact .halted hpull hvisit
  | ok t =>
    have hvisit : Tells (fun n => LazyCalc.Sequence.convertStep (rowTotal finish depth spent n) made
        (.ok v)) (.onward (.ofPlain t :: made)) (texts' ++ []) := (hrow spent).bind (.pure _)
    obtain ⟨flow, s'', hwalk, hflow⟩ := hrows spent (.ofPlain t :: made)
    rw [List.append_nil] at hvisit
    refine ⟨flow, s'', .onward hpull hvisit hwalk, hflow.trans ?_⟩
    obtain ⟨texts'', result⟩ := rows
    cases result with
    | error e => rfl
    | ok ts =>
      refine congrArg (fun vs => Except.ok (Tree.list vs)) ?_
      rw [List.reverse_cons, List.append_assoc]
      rfl

theorem tells_convert {f : Nat → Value → Told Item} {made : List Value}
    {flow : Flow (List Value) (Gathered Sequence)}
    (h : Walks (fun n => LazyCalc.Sequence.convertStep (f n)) made s (flow, s') texts) :
    Tells (fun n => s.convert (Drive.told n) (f n) made) (converted flow) texts := by
  rw [← List.append_nil texts]
  refine h.tells.bind ((Tells.pure ()).bind ?_)
  cases flow with
  | onward made => exact .pure _
  | halt g => exact tells_settle g

theorem tells_totalRows (spent : Nat) (hrow : Totals finish depth (.ofValue v) row)
    (hrows : TotalsRows finish depth s rows) :
    Tells (fun n => s.totalRows (Drive.told n) (rowTotal finish depth spent n) v)
      (((row.cons rows).map Tree.list).result.map Tree.ofPlain)
      ((row.cons rows).map Tree.list).texts := by
  obtain ⟨texts, result⟩ := row
  cases result with
  | error e =>
    have hrefused : Tells (fun n => s.totalRows (Drive.told n) (rowTotal finish depth spent n) v)
        (.error e) (texts ++ ([] ++ [])) := (hrow spent).bind ((Tells.pure ()).bind (.pure _))
    rwa [List.append_nil, List.append_nil] at hrefused
  | ok t =>
    obtain ⟨flow, s', hwalk, hflow⟩ := hrows spent [.ofPlain t]
    have hconverted : Tells (fun n => s.totalRows (Drive.told n) (rowTotal finish depth spent n) v)
        (converted flow) (texts ++ rows.texts) := (hrow spent).bind (tells_convert hwalk)
    rw [hflow] at hconverted
    obtain ⟨texts', result⟩ := rows
    cases result with
    | error e => exact hconverted
    | ok ts =>
      have hlist : (Tree.ofPlain (.list (t :: ts)) : Value) = .list ((t :: ts).map .ofPlain) :=
        congrArg Tree.list (Tree.mapList_eq_map _ _)
      change Tells _ (Except.ok (Tree.ofPlain (.list (t :: ts)))) _
      rw [hlist]
      exact hconverted

-- by recursion on the pile; what is said of a sequence holds of every collection that is pulled as it
mutual

theorem Shows.totals {v : Value} {t : Pile} (h : Shows v t) (depth : Nat) :
    Totals finish depth (.ofValue v) (t.total finish depth) := by
  by_cases hdepth : defaultLimit < depth
  · have hdeep : t.total finish depth = .refused (.nestingTooDeep defaultLimit) := by
      cases t <;> exact if_pos hdepth
    rw [hdeep]
    exact totals_too_deep hdepth
  · cases h with
    | scalar x =>
      -- its list of one is no smaller pile to go on with, so it is pulled here
      rw [Pile.total, if_neg hdepth]
      refine totals_of_turn fun spent => ?_
      have hadd := (Pours.ended (tells_items [] (.exact 1))).tells_addUp finish x
      simp only [LazyCalc.Collection.totalTurn, if_neg hdepth]
      exact (tells_items [.ok (.scalar x)] (.exact 1)).bind hadd
    | list h =>
      rw [Pile.total, if_neg hdepth]
      exact ((lists_iff_pours _).mp h).totals hdepth rfl
    | sequence h =>
      rw [Pile.total, if_neg hdepth]
      exact h.totals hdepth rfl

theorem Pours.totals {c : Collection} {s : Sequence} {pulls : Pulls} (h : Pours s pulls)
    {depth : Nat} (hdepth : ¬ defaultLimit < depth) (hc : c.toSequence = s) :
    Totals finish depth c (pulls.total finish depth) := by
  refine totals_of_turn fun spent => ?_
  simp only [LazyCalc.Collection.totalTurn, if_neg hdepth, hc]
  cases h with
  | ended hpull =>
    have hitem := item_ofScalar (finish (.integer 0) 0)
    rw [Pulls.total, Spoken.tell, hitem]
    exact hpull.bind ((Tells.pure ()).bind (.pure _))
  | failed hpull => exact hpull.bind ((Tells.pure ()).bind (.pure _))
  | given hpull hv hrest =>
    have hrow : Totals finish (depth + 1) _ _ := hv.totals (depth + 1)
    have hrows : TotalsRows finish (depth + 1) _ _ := hrest.totalsRows depth
    cases hv with
    | scalar x => exact hpull.bind (hrest.tells_addUp finish x)
    | list _ => exact hpull.bind (tells_totalRows spent hrow hrows)
    | sequence _ => exact hpull.bind (tells_totalRows spent hrow hrows)

theorem Pours.totalsRows {s : Sequence} {pulls : Pulls} (h : Pours s pulls) (depth : Nat) :
    TotalsRows finish (depth + 1) s (pulls.totals finish depth) := by
  cases h with
  | ended hpull => exact totalsRows_ended hpull
  | failed hpull => exact totalsRows_failed hpull
  | given hpull hv hrest =>
    exact totalsRows_given hpull (hv.totals (depth + 1)) (hrest.totalsRows depth)

end

end

end Lone

inductive Aggregate where
  | sum
  | mean

namespace Aggregate

def name : Aggregate → String
  | .sum => "sum"
  | .mean => "mean"

def finish (a : Aggregate) (total : Scalar) (count : Nat) : Except Failure Scalar :=
  match a with
  | .sum => .ok total
  | .mean =>
    if count = 0 then .error (.domain "mean of an empty list") else total.divide (.integer count)

variable (a : Aggregate)

theorem tells_invoke {v : Lone.Value} {t : Pile} (h : Lone.Shows v t) (limit : Nat) :
    Tells (fun n => (Table.builtin limit).invoke (Drive.told n) a.name [v])
      ((t.total a.finish 0).result.map Tree.ofPlain) (t.total a.finish 0).texts := by
  have hread : Tells (fun n => (Collection.ofValue v).readWith (Drive.told n) fun _ =>
      .ok (.read (.total a.finish))) ((t.total a.finish 0).result.map Tree.ofPlain)
      (t.total a.finish 0).texts := Lone.tells_readWith rfl (h.totals 0 0)
  cases a <;> exact hread

end Aggregate

theorem Desk.replies_of_work {tool : Tool} {v : Lone.Value} {x : Lone.Item} {texts : List String}
    (h : Tells (fun n => tool.work (Drive.told n) [v]) [x] texts) :
    Replies [(0, .use tool [0])] [[some v]] [(0, [x.map Value.outline])] := by
  have hact : Tells (fun n => act (Drive.told n) (fun s _ => s) (.use tool [0]) [some v])
      ([x.map Value.outline], [none, x.toOption]) (texts ++ []) := h.bind (.pure _)
  have hactAt : Tells (fun n => actAt (Drive.told n) (fun s _ => s) 0 (.use tool [0]) [[some v]])
      ([x.map Value.outline], [[none, x.toOption]]) (texts ++ [] ++ []) := by
    simp only [actAt, List.getElem?_cons_zero]
    exact hact.bind (.pure _)
  exact replies_iff_tells.mpr ⟨_, _, hactAt.bind (.pure _)⟩

namespace Moment

/-- Sum and mean of a value that comes to a pile are the total of the pile, and they tell what is
told up to where the total is known. Whether nodes are lists or sequences makes no difference but in
the text of an error, and it is all that changes when lists are replaced by the sequences over their
elements or the other way round. -/
theorem totals_of_pile {M : Moment} {number : Nat} {v : Lone.Value} {t : Pile}
    (hv : M.Stands [number] [v]) (ht : Lone.Shows v t) (a : Aggregate) (limit : Nat) :
    Yields (fun n => Desk.replies n [(0, .use (.invoke (.builtin limit) a.name) [0])]
        [M.picked [number]]) M.store [(0, [(t.total a.finish 0).result.map Tree.ofPlain])] ∧
      Tells (fun n => (Table.builtin limit).invoke (Drive.told n) a.name [v])
        ((t.total a.finish 0).result.map Tree.ofPlain) (t.total a.finish 0).texts ∧
      (∀ t', t.Recast t' → (t.total a.finish 0).Alike (t'.total a.finish 0)) ∧
      ∀ v', Lone.Rewrapped v v' → ∃ t', Lone.Shows v' t' ∧ t.Recast t' := by
  have htells := a.tells_invoke ht limit
  refine ⟨(hv _ _).mpr ?_, htells, fun t' h => h.total a.finish 0, fun v' => ht.rewrapped⟩
  have hshown : ((t.total a.finish 0).result.map Tree.ofPlain : Lone.Item).map Value.outline =
      (t.total a.finish 0).result.map Tree.ofPlain := by
    cases (t.total a.finish 0).result with
    | error e => rfl
    | ok r => exact congrArg Except.ok (Tree.map_ofPlain _ r)
  rw [← hshown]
  exact Desk.replies_of_work (htells.bind (.pure [_]))

/-- A list, a scalar and a sequence as rows. -/
theorem totals_of_pile_rows :
    ∃ (M : Moment) (v : Lone.Value) (t : Pile), M.Stands [0] [v] ∧ Lone.Shows v t ∧
      Yields (fun n => Desk.replies n [(0, .use (.invoke (.builtin 128) "sum") [0])] [M.picked [0]])
        M.store [(0, [.ok (.list [.scalar (.integer 3), .scalar (.integer 5),
          .scalar (.integer 6)])])] := by
  let two (x y : Int) : Pulls :=
    .given [] (.scalar (.integer x)) (.given [] (.scalar (.integer y)) (.ended []))
  let t : Pile := .node .list (.given [] (.node .list (two 1 2))
    (.given [] (.scalar (.integer 5)) (.given [] (.node .sequence (two 2 4)) (.ended []))))
  let making : List (Nat × Act) := [(0, .use (.make (.list [
    .list [.scalar (.integer 1), .scalar (.integer 2)], .scalar (.integer 5),
    .sequence (.counted (.bySum (.integer 2) (.integer 2) 2))])) [])]
  have hstands := stands_run
    (rfl : Desk.runLinked 2 making [[]] .empty = .ok ((_, [_]), _))
    (Desk.settles_run (rfl : Desk.runAlone 2 making [[]] = some (_, [_]))) [0]
  have hcounted : Lone.Pours (.ofDraft (.counted (.bySum (.integer 2) (.integer 2) 2))) (two 2 4) :=
    .given (.succ (.pure _)) (.scalar _) (.given (.succ (.pure _)) (.scalar _)
      (.ended (.succ (.pure _))))
  have hshows : Lone.Shows (.list [.list [.scalar (.integer 1), .scalar (.integer 2)],
      .scalar (.integer 5), .sequence (.ofDraft (.counted (.bySum (.integer 2) (.integer 2) 2)))]) t :=
    .list (.cons (.list (.cons (.scalar _) (.cons (.scalar _) .nil))) (.cons (.scalar _)
      (.cons (.sequence hcounted) .nil)))
  exact ⟨_, _, t, hstands, hshows, (totals_of_pile hstands hshows .sum 128).1⟩

end Moment

end LazyCalc
