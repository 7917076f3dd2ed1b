import LazyCalc.Proofs.Fanout.Branches
import LazyCalc.Proofs.Fanout.Turns
/-!
Charts of a fan-out: which branches there are, what its source has produced and each of them has
given, and the thresholds as a list beside the slots. A fan-out holds for every branch what that
still has to give, and nothing else.
-/

namespace LazyCalc

open Readers (at?)

/-- A branch, with what it and those that it comes from have given. -/
structure Reader where
  slot : Nat
  given : List Linked.Item

structure Chart where
  /-- The branches in the order in which they came about. -/
  readers : List (Option Reader)
  /-- The items that the source has given. -/
  produced : List Linked.Item
  /-- What the copying for the branches has left of each of them. -/
  dealt : List Linked.Item
  /-- The source after these items. -/
  source : Linked.Source
  ended : Bool
  warnAt : List Nat
  /-- The largest number of branches that there were at one time. -/
  peak : Nat

namespace Chart

def single (source : Linked.Source) : Chart :=
  ⟨[some ⟨0, []⟩], [], [], source, false, [firstThreshold], 1⟩

def live (c : Chart) : Nat := c.readers.countP Option.isSome

def lag (c : Chart) (reader : Reader) : Nat := c.produced.length - reader.given.length

def fork (c : Chart) (reader : Reader) (slot : Nat) : Chart :=
  let threshold := thresholdAbove (c.lag reader) (c.lag reader) firstThreshold
  { c with
    readers := c.readers ++ [some { reader with slot }]
    warnAt :=
      if slot < c.warnAt.length then c.warnAt.set slot threshold else c.warnAt ++ [threshold]
    peak := max c.peak (c.live + 1) }

/-- One item more in a slot brings a branch other than the number `r` to the threshold `w`. -/
def isDue (c : Chart) (r slot w : Nat) : Bool :=
  (c.readers.set r none).any fun
    | some other => other.slot = slot && w ≤ c.lag other + 1
    | none => false

/-- What the source answers to a pull of `reader`, and what it is then. It is asked only where the
reader has given everything that there is, and until it ends or fails. -/
def ask (c : Chart) (d : Linked.Drive) (i : Nat) (reader : Reader) (st : Store) :
    Option (Option Linked.Item × Linked.Source) :=
  if reader.given.length < c.produced.length ∨ c.ended = true then none
  else
    match c.source.step d (st.setFanout i .lent) with
    | .ok (answer, _) => some answer
    | .error _ => none

def next (c : Chart) (r : Nat) (reader : Reader)
    (answer : Option (Option Linked.Item × Linked.Source)) (x : Option Linked.Item) : Chart :=
  let readers := c.readers.set r (some { reader with given := reader.given ++ x.toList })
  match answer with
  | none => { c with readers }
  | some (none, source) => { c with readers, source, ended := true }
  | some (some item, source) =>
    { c with
      readers
      produced := c.produced ++ [item]
      dealt := c.dealt ++ x.toList
      source
      ended := Item.isFailure item
      warnAt := c.warnAt.mapIdx fun slot w => if c.isDue r slot w then 2 * w else w }

def drop (c : Chart) (r : Nat) : Chart := { c with readers := c.readers.set r none }

theorem isDue_iff {c : Chart} {r slot w : Nat} : c.isDue r slot w = true ↔
    ∃ r' other, r' ≠ r ∧ at? c.readers r' = some other ∧ other.slot = slot ∧
      w ≤ c.lag other + 1 := by
  rw [isDue, List.any_eq_true]
  constructor
  · rintro ⟨_ | other, hmem, hdue⟩
    · cases hdue
    · obtain ⟨r', hr'⟩ := List.mem_iff_getElem?.mp hmem
      have hother : at? (c.readers.set r none) r' = some other := by rw [at?, hr']; rfl
      rw [Readers.at?_set_none] at hother
      split at hother
      · cases hother
      · next hne =>
        simp only [Bool.and_eq_true, decide_eq_true_eq] at hdue
        exact ⟨r', other, hne, hother, hdue⟩
  · rintro ⟨r', other, hne, hother, hslot, hw⟩
    have hset : at? (c.readers.set r none) r' = some other := by
      rw [Readers.at?_set_none, if_neg hne, hother]
    rw [at?, Option.join_eq_some_iff] at hset
    refine ⟨some other, List.mem_of_getElem? hset, ?_⟩
    simp only [hslot, hw, decide_true, Bool.and_true]

/-- What has been dealt is what a branch has given and, after that, the items. -/
def Awaits (c : Chart) (reader : Reader) (items : List Linked.Item) : Prop :=
  ∃ before after, c.dealt = before ++ after ∧
    List.Forall₂ (fun x y => x = y ∨ x.Copies y) before reader.given ∧
    List.Forall₂ Item.Copies after items

structure Represents (c : Chart) (f : Fanout Linked.Item) : Prop where
  thresholds : c.warnAt.length = f.slots.length
  apart : ∀ {r r' : Nat} {reader reader' : Reader}, at? c.readers r = some reader →
    at? c.readers r' = some reader' → reader.slot = reader'.slot → r = r'
  /-- Each item that the source has given is dealt, once and in its place. -/
  deals : List.Forall₂ (Item.Becomes fun _ _ => True) c.produced c.dealt
  awaits : ∀ {r : Nat} {reader : Reader}, at? c.readers r = some reader →
    ∃ s, f.slot? reader.slot = some s ∧ c.warnAt[reader.slot]? = some s.warnAt ∧
      c.Awaits reader s.backlog.toList
  done : f.done = c.ended
  free : ∀ slot, (∀ r reader, at? c.readers r = some reader → reader.slot ≠ slot) →
    f.slot? slot = none
  width : f.slots.length = c.peak
  live : f.taken.card = c.live

section

variable {c : Chart} {r : Nat} {reader : Reader} {items : List Linked.Item}

theorem Awaits.length_eq (h : c.Awaits reader items) :
    c.dealt.length = reader.given.length + items.length := by
  obtain ⟨before, after, hdealt, hgiven, hitems⟩ := h
  rw [hdealt, List.length_append, hgiven.length_eq, hitems.length_eq]

theorem Represents.lag_eq {f : Fanout Linked.Item} (h : c.Represents f)
    (hawaits : c.Awaits reader items) : c.lag reader = items.length := by
  rw [lag, h.deals.length_eq, hawaits.length_eq, Nat.add_sub_cancel_left]

theorem live_append (readers : List (Option Reader)) (reader : Reader) :
    (readers ++ [some reader]).countP Option.isSome = readers.countP Option.isSome + 1 := by
  rw [List.countP_append]
  rfl

theorem live_set {r : Nat} {readers : List (Option Reader)} (hr : at? readers r = some reader)
    (other : Option Reader) : (readers.set r other).countP Option.isSome =
      readers.countP Option.isSome - 1 + if other.isSome = true then 1 else 0 := by
  have hlt := Readers.lt_of_at? hr
  rw [at?, Option.join_eq_some_iff, List.getElem?_eq_getElem hlt, Option.some.injEq] at hr
  rw [List.countP_set hlt, hr]
  rfl

theorem live_pos (hr : at? c.readers r = some reader) : 0 < c.live := by
  rw [at?, Option.join_eq_some_iff] at hr
  exact List.countP_pos_iff.mpr ⟨some reader, List.mem_of_getElem? hr, rfl⟩

theorem live_set_some (hr : at? c.readers r = some reader) (other : Reader) :
    (c.readers.set r (some other)).countP Option.isSome = c.live :=
  (live_set hr (some other)).trans (Nat.sub_add_cancel (live_pos hr))

theorem live_next (hr : at? c.readers r = some reader)
    (answer : Option (Option Linked.Item × Linked.Source)) (x : Option Linked.Item) :
    (c.next r reader answer x).live = c.live := by
  obtain _ | ⟨_ | item, source⟩ := answer <;> exact live_set_some hr _

theorem getElem?_warnAt_fork {slot : Nat} (hslot : slot ≤ c.warnAt.length) (j : Nat) :
    (c.fork reader slot).warnAt[j]? =
      if j = slot then some (thresholdAbove (c.lag reader) (c.lag reader) firstThreshold)
      else c.warnAt[j]? := by
  rw [fork]
  dsimp only
  by_cases hlt : slot < c.warnAt.length
  · rw [if_pos hlt, List.getElem?_set]
    by_cases hj : slot = j
    · rw [if_pos hj, if_pos hlt, if_pos hj.symm]
    · rw [if_neg hj, if_neg (Ne.symm hj)]
  · obtain rfl : slot = c.warnAt.length := by omega
    rw [if_neg hlt, List.getElem?_append]
    by_cases hj : j < c.warnAt.length
    · rw [if_pos hj, if_neg hj.ne]
    · rw [if_neg hj, List.getElem?_singleton]
      by_cases he : j = c.warnAt.length
      · rw [if_pos (by omega), if_pos he]
      · rw [if_neg (by omega), if_neg he, List.getElem?_eq_none (by omega)]

theorem length_warnAt_fork {slot : Nat} (hslot : slot ≤ c.warnAt.length) :
    (c.fork reader slot).warnAt.length = max c.warnAt.length (slot + 1) := by
  rw [fork]
  dsimp only
  split
  · rw [List.length_set]
    omega
  · rw [List.length_append, List.length_singleton]
    omega

end

namespace Represents

variable {c : Chart} {f g : Fanout Linked.Item} {r : Nat} {reader : Reader}

theorem single (source : Linked.Source) : (Chart.single source).Represents .single where
  thresholds := rfl
  deals := .nil
  done := rfl
  apart := by
    intro r r' _ _ h h' _
    have hr := Readers.lt_of_at? h
    have hr' := Readers.lt_of_at? h'
    simp only [Chart.single, List.length_singleton] at hr hr'
    omega
  awaits := by
    intro r reader h
    obtain rfl : r = 0 := Nat.lt_one_iff.mp (Readers.lt_of_at? h)
    cases h
    exact ⟨.ofList [], rfl, rfl, [], [], rfl, .nil, .nil⟩
  free slot h := by
    rw [Fanout.slot?_single]
    split
    · next h0 => exact (h 0 ⟨0, []⟩ rfl h0.symm).elim
    · rfl
  width := rfl
  live := by
    rw [Fanout.taken_single]
    rfl

theorem isDue_eq (h : c.Represents f) {r' : Nat} {other : Reader} (hne : r' ≠ r)
    (hother : at? c.readers r' = some other) (w : Nat) :
    c.isDue r other.slot w = decide (w ≤ c.lag other + 1) := by
  rw [Bool.eq_iff_iff, isDue_iff, decide_eq_true_iff]
  constructor
  · rintro ⟨r₁, other₁, -, h₁, hslot, hw⟩
    obtain rfl := h.apart h₁ hother hslot
    obtain rfl := Option.some.inj (h₁.symm.trans hother)
    exact hw
  · intro hw
    exact ⟨r', other, hne, hother, rfl, hw⟩

theorem isDue_self (h : c.Represents f) (hr : at? c.readers r = some reader) (w : Nat) :
    c.isDue r reader.slot w = false := by
  rw [Bool.eq_false_iff, Ne, isDue_iff]
  rintro ⟨r₁, other₁, hne, h₁, hslot, -⟩
  exact hne (h.apart h₁ hr hslot)

theorem exists_reader (h : c.Represents f) {j : Nat} (hj : f.slot? j ≠ none) :
    ∃ r reader, at? c.readers r = some reader ∧ reader.slot = j := by
  by_contra! hnone
  exact hj (h.free j hnone)

theorem advance (h : c.Represents f) (hr : at? c.readers r = some reader) {c' : Chart}
    {reader' : Reader} (hslot : reader'.slot = reader.slot)
    (hreaders : ∀ j, at? c'.readers j = if j = r then some reader' else at? c.readers j)
    (hlive : c'.live = c.live) (hpeak : c'.peak = c.peak)
    (hthresholds : c'.warnAt.length = c.warnAt.length)
    (hdeals : List.Forall₂ (Item.Becomes fun _ _ => True) c'.produced c'.dealt)
    (hdone : g.done = c'.ended) (hlength : g.slots.length = f.slots.length)
    (hfree : ∀ j, f.slot? j = none → g.slot? j = none)
    (hown : ∃ s, g.slot? reader.slot = some s ∧ c'.warnAt[reader.slot]? = some s.warnAt ∧
      c'.Awaits reader' s.backlog.toList)
    (hother : ∀ r₁ reader₁, r₁ ≠ r → at? c.readers r₁ = some reader₁ →
      ∃ s, g.slot? reader₁.slot = some s ∧ c'.warnAt[reader₁.slot]? = some s.warnAt ∧
        c'.Awaits reader₁ s.backlog.toList) : c'.Represents g := by
  -- Every branch is still there, in its slot.
  have hstays {r₁ : Nat} {reader₁ : Reader} (h₁ : at? c.readers r₁ = some reader₁) :
      (∃ reader₂, at? c'.readers r₁ = some reader₂ ∧ reader₂.slot = reader₁.slot) ∧
        ∃ s, g.slot? reader₁.slot = some s := by
    by_cases he : r₁ = r
    · subst he
      obtain rfl := Option.some.inj (h₁.symm.trans hr)
      exact ⟨⟨reader', by rw [hreaders, if_pos rfl], hslot⟩, hown.imp fun _ => And.left⟩
    · exact ⟨⟨reader₁, by rw [hreaders, if_neg he, h₁], rfl⟩,
        (hother r₁ reader₁ he h₁).imp fun _ => And.left⟩
  refine ⟨?_, ?_, hdeals, ?_, hdone, ?_, ?_, ?_⟩
  · rw [hthresholds, h.thresholds, hlength]
  · intro r₁ r₂ reader₁ reader₂ h₁ h₂ heq
    rw [hreaders] at h₁ h₂
    split at h₁ <;> split at h₂
    · omega
    · next he _ =>
      cases h₁
      exact he.trans (h.apart hr h₂ (hslot.symm.trans heq))
    · next he =>
      cases h₂
      exact (h.apart h₁ hr (heq.trans hslot)).trans he.symm
    · exact h.apart h₁ h₂ heq
  · intro r₁ reader₁ h₁
    rw [hreaders] at h₁
    split at h₁
    · cases h₁
      rwa [hslot]
    · next hne => exact hother r₁ reader₁ hne h₁
  · intro slot hunowned
    by_contra hsome
    obtain ⟨r₁, reader₁, h₁, rfl⟩ := h.exists_reader fun hnone => hsome (hfree slot hnone)
    obtain ⟨⟨reader₂, h₂, hslot₂⟩, -⟩ := hstays h₁
    exact hunowned r₁ reader₂ h₂ hslot₂
  · rw [hlength, h.width, hpeak]
  · rw [hlive, ← h.live, Fanout.taken_congr]
    intro j
    cases hj : f.slot? j with
    | none => rw [hfree j hj]
    | some s =>
      obtain ⟨r₁, reader₁, h₁, rfl⟩ := h.exists_reader (by rw [hj]; exact Option.some_ne_none s)
      obtain ⟨-, t, ht⟩ := hstays h₁
      rw [ht]
      rfl

theorem ne_slot (h : c.Represents f) (hr : at? c.readers r = some reader) {r' : Nat}
    {reader' : Reader} (hne : r' ≠ r) (hr' : at? c.readers r' = some reader') :
    reader'.slot ≠ reader.slot :=
  fun heq => hne (h.apart hr' hr heq)

theorem setBacklog (h : c.Represents f) (hr : at? c.readers r = some reader)
    {items : List Linked.Item} (hitems : c.Awaits reader items) :
    c.Represents (f.setBacklog reader.slot items) := by
  have hslots := f.slot?_setBacklog reader.slot items
  refine h.advance hr rfl (fun j => ?_) rfl rfl rfl h.deals h.done (f.length_setBacklog _ _)
    (fun j hj => ?_) ?_ ?_
  · split
    · next hj => rw [hj, hr]
    · rfl
  · rw [hslots, hj]
    split <;> rfl
  · obtain ⟨s, hs, hthreshold, -⟩ := h.awaits hr
    rw [hslots, if_pos rfl, hs]
    exact ⟨_, rfl, hthreshold, (Backlog.toList_ofList items).symm ▸ hitems⟩
  · intro r₁ reader₁ hne h₁
    rw [hslots, if_neg (h.ne_slot hr hne h₁)]
    exact h.awaits h₁

theorem join (h : c.Represents f) {items : List Linked.Item} (hitems : c.Awaits reader items) :
    (c.fork reader (f.join items).1).Represents (f.join items).2 := by
  have hslots := f.slot?_join items
  have hle : (f.join items).1 ≤ c.warnAt.length := h.thresholds ▸ f.join_fst_le items
  have hreaders := Readers.at?_append c.readers (some { reader with slot := (f.join items).1 })
  have hne {r' : Nat} {reader' : Reader} (hr' : at? c.readers r' = some reader') :
      reader'.slot ≠ (f.join items).1 := by
    intro heq
    obtain ⟨s, hs, -⟩ := h.awaits hr'
    rw [heq, f.slot?_join_fst] at hs
    cases hs
  refine ⟨?_, ?_, h.deals, ?_, h.done, ?_, ?_, ?_⟩
  · rw [length_warnAt_fork hle, f.length_join_fst, h.thresholds]
  · intro r₁ r₂ reader₁ reader₂ h₁ h₂ hslot
    rw [Chart.fork, hreaders] at h₁ h₂
    split at h₁
    · cases h₁
      split at h₂
      · omega
      · exact (hne h₂ hslot.symm).elim
    · split at h₂
      · cases h₂
        exact (hne h₁ hslot).elim
      · exact h.apart h₁ h₂ hslot
  · intro r₁ reader₁ h₁
    rw [Chart.fork, hreaders] at h₁
    split at h₁
    · cases h₁
      refine ⟨.ofList items, by rw [hslots, if_pos rfl], ?_, ?_⟩
      · rw [getElem?_warnAt_fork hle, if_pos rfl, h.lag_eq hitems]
        rfl
      · rw [Fanout.toList_ofList_backlog]
        exact hitems
    · obtain ⟨s, hs, hthreshold, hawaits⟩ := h.awaits h₁
      refine ⟨s, by rw [hslots, if_neg (hne h₁), hs], ?_, hawaits⟩
      rw [getElem?_warnAt_fork hle, if_neg (hne h₁), hthreshold]
  · intro slot hfree
    have hplace : slot ≠ (f.join items).1 := fun heq => by
      refine hfree c.readers.length { reader with slot := (f.join items).1 } ?_ heq.symm
      rw [Chart.fork, hreaders, if_pos rfl]
    rw [hslots, if_neg hplace]
    refine h.free slot fun r₁ reader₁ h₁ => hfree r₁ reader₁ ?_
    rw [Chart.fork, hreaders, if_neg (Readers.lt_of_at? h₁).ne, h₁]
  · rw [Fanout.length_join, h.width, h.live]
    rfl
  · rw [Fanout.taken_join, Finset.card_insert_of_notMem (f.join_fst_notMem items), h.live]
    exact (live_append c.readers _).symm

theorem fork (h : c.Represents f) (hr : at? c.readers r = some reader) {own seed : List Linked.Item}
    {place : Nat} (hf : Fanout.Forked reader.slot f own seed place g) :
    (c.fork reader place).Represents g := by
  obtain ⟨s, hs, -, before, after, hdealt, hgiven, hafter⟩ := h.awaits hr
  rw [← Fanout.backlog_eq hs] at hafter
  obtain ⟨hown, hseed⟩ := hf.copies hafter
  have hjoined := (h.setBacklog hr ⟨before, after, hdealt, hgiven, hown⟩).join
    ⟨before, after, hdealt, hgiven, hseed⟩
  rwa [hf.join_eq] at hjoined

theorem lt_produced_iff (h : c.Represents f) (hr : at? c.readers r = some reader) :
    reader.given.length < c.produced.length ↔ f.pop? reader.slot ≠ none := by
  obtain ⟨s, hs, -, hawaits⟩ := h.awaits hr
  rw [Ne, Fanout.pop?_eq_none_iff, Fanout.backlog_eq hs, ← List.length_eq_zero_iff,
    h.deals.length_eq, hawaits.length_eq]
  omega

theorem ask_eq (h : c.Represents f) (hr : at? c.readers r = some reader) (d : Linked.Drive)
    (i : Nat) (st : Store) :
    c.ask d i reader st = if f.pop? reader.slot ≠ none ∨ f.done = true then none
      else
        match c.source.step d (st.setFanout i .lent) with
        | .ok (answer, _) => some answer
        | .error _ => none := by
  simp only [ask, h.lt_produced_iff hr, h.done]

theorem set_self (hr : at? c.readers r = some reader) :
    c.readers.set r (some { reader with given := reader.given ++ [] }) = c.readers := by
  rw [at?, Option.join_eq_some_iff] at hr
  obtain ⟨hlt, hr⟩ := List.getElem?_eq_some_iff.mp hr
  rw [List.append_nil, ← hr, List.set_getElem_self hlt]

theorem pop (h : c.Represents f) (hr : at? c.readers r = some reader) {item : Linked.Item}
    (hpop : f.pop? reader.slot = some (item, g)) :
    (c.next r reader none (some item)).Represents g := by
  obtain ⟨s, hs, hthreshold, before, after, hdealt, hgiven, hafter⟩ := h.awaits hr
  obtain ⟨hdone, s', t, hs', hitems, hwarn, hslots⟩ := Fanout.pop?_eq_some hpop
  obtain rfl := Option.some.inj (hs.symm.trans hs')
  rw [hitems] at hafter
  obtain ⟨y, rest, hy, hrest, rfl⟩ := List.forall₂_cons_right_iff.mp hafter
  have hslot : ({ reader with given := reader.given ++ [item] } : Reader).slot = reader.slot := rfl
  refine h.advance hr hslot (Readers.at?_set (Readers.lt_of_at? hr) _) (live_set_some hr _) rfl rfl
    h.deals (hdone.trans h.done) (Fanout.length_of_pop? hpop) (fun j hj => ?_)
    ⟨t, by rw [hslots, if_pos rfl], by rw [next, hthreshold, hwarn], ?_⟩ ?_
  · rw [hslots, hj]
    split
    · next he =>
      rw [he, hs] at hj
      cases hj
    · rfl
  · exact ⟨before ++ [y], rest, by rw [next, hdealt, List.append_assoc]; rfl,
      List.rel_append hgiven (.cons (.inr hy) .nil), hrest⟩
  · intro r₁ reader₁ hne h₁
    rw [hslots, if_neg (h.ne_slot hr hne h₁)]
    exact h.awaits h₁

/-- A branch gives what the copying for the others leaves of an item of the source, and the others
have their copies before them. -/
theorem produce (h : c.Represents f) (hr : at? c.readers r = some reader) {item raw : Linked.Item}
    (source : Linked.Source) (hpop : f.pop? reader.slot = none)
    (hbecomes : raw.Becomes (fun _ _ => True) item) (hdone : g.done = Item.isFailure raw)
    (hlength : g.slots.length = f.slots.length) (hfree : ∀ j, f.slot? j = none → g.slot? j = none)
    (hown : g.slot? reader.slot = f.slot? reader.slot)
    (hother : ∀ j s, j ≠ reader.slot → f.slot? j = some s →
      ∃ other, item.Copies other ∧ g.slot? j = some (s.push other).1) :
    (c.next r reader (some (some raw, source)) (some item)).Represents g := by
  obtain ⟨s, hs, hthreshold, hawaits⟩ := h.awaits hr
  have hnil : s.backlog.toList = [] :=
    (Fanout.backlog_eq hs).symm.trans (Fanout.pop?_eq_none_iff.mp hpop)
  rw [hnil] at hawaits
  have hslot : ({ reader with given := reader.given ++ [item] } : Reader).slot = reader.slot := rfl
  refine h.advance hr hslot (Readers.at?_set (Readers.lt_of_at? hr) _) (live_set_some hr _) rfl
    List.length_mapIdx (List.rel_append h.deals (.cons hbecomes .nil)) hdone hlength hfree
    ⟨s, hown.trans hs, ?_, ?_⟩ ?_
  · rw [next, List.getElem?_mapIdx, hthreshold, Option.map_some, h.isDue_self hr]
    rfl
  · obtain ⟨before, after, hdealt, hgiven, hafter⟩ := hawaits
    rw [hnil]
    cases hafter
    exact ⟨before ++ [item], [], by rw [next, hdealt, List.append_nil, List.append_nil]; rfl,
      List.rel_append hgiven (.cons (.inl rfl) .nil), .nil⟩
  · intro r₁ reader₁ hne h₁
    obtain ⟨s₁, hs₁, hthreshold₁, hawaits₁⟩ := h.awaits h₁
    obtain ⟨other, hcopies, hpushed⟩ := hother _ s₁ (h.ne_slot hr hne h₁) hs₁
    have hlag := h.lag_eq hawaits₁
    refine ⟨_, hpushed, ?_, ?_⟩
    · rw [next, List.getElem?_mapIdx, hthreshold₁, Option.map_some, h.isDue_eq hne h₁, hlag,
        Fanout.warnAt_push]
      simp only [decide_eq_true_eq]
    · obtain ⟨before, after, hdealt, hgiven, hafter⟩ := hawaits₁
      exact ⟨before, after ++ [item], by rw [next, hdealt, List.append_assoc]; rfl, hgiven, by
        rw [Fanout.toList_push_backlog]
        exact List.rel_append hafter (.cons hcopies .nil)⟩

/-- A pull leaves a fan-out as its chart says, with the source as it answers. -/
theorem next {d : Linked.Drive} {i : Nat} {st st' : Store} {shared shared' : Shared}
    {x : Option Linked.Item} (h : c.Represents shared.fanout) (hsource : shared.source = c.source)
    (hr : at? c.readers r = some reader)
    (hpulls : shared.Pulls d i reader.slot st st' x shared') :
    shared'.source = (c.next r reader (c.ask d i reader st) x).source ∧
      (c.next r reader (c.ask d i reader st) x).Represents shared'.fanout := by
  rw [h.ask_eq hr, ← hsource]
  cases hpulls with
  | waiting hpop =>
    rw [if_pos (.inl (by rw [hpop]; exact Option.some_ne_none _))]
    exact ⟨hsource, h.pop hr hpop⟩
  | drained hpop hdone =>
    rw [if_pos (.inr hdone), Chart.next, Option.toList_none, set_self hr]
    exact ⟨hsource, h⟩
  | ended hpop hdone hstep =>
    rw [if_neg (not_or.mpr ⟨not_not.mpr hpop, hdone⟩), hstep]
    dsimp only
    rw [Chart.next, Option.toList_none, set_self hr]
    exact ⟨rfl, h.thresholds, h.apart, h.deals, h.awaits, rfl, h.free, h.width, h.live⟩
  | produced hpop hdone hstep hbecomes hslots =>
    rw [if_neg (not_or.mpr ⟨not_not.mpr hpop, hdone⟩), hstep]
    refine ⟨rfl, ?_⟩
    cases hslots with
    | waiting hpop' => cases hpop.symm.trans hpop'
    | produced _ hlength hfree hown hother =>
      exact h.produce hr _ hpop (hbecomes.mono fun _ _ _ => trivial) rfl hlength hfree hown hother

/-- A pull gives something just if there is something that the branch has not given, be it from the
source. That an item comes from the source with its sequences unasked is said of the store. -/
theorem gives {d : Linked.Drive} {i : Nat} {st st' : Store} {shared shared' : Shared}
    {x : Option Linked.Item} (h : c.Represents shared.fanout) (hsource : shared.source = c.source)
    (hr : at? c.readers r = some reader)
    (hpulls : shared.Pulls d i reader.slot st st' x shared') :
    (x.isSome = true ↔
      reader.given.length < (c.next r reader (c.ask d i reader st) x).produced.length) ∧
    ∀ item source, c.ask d i reader st = some (some item, source) →
      ∃ item', x = some item' ∧ item.Becomes (fun j other => st'.Sources j other) item' := by
  have hlt := h.lt_produced_iff hr
  rw [h.ask_eq hr, ← hsource]
  cases hpulls with
  | waiting hpop =>
    have hsome : shared.fanout.pop? reader.slot ≠ none := by
      rw [hpop]
      exact Option.some_ne_none _
    rw [if_pos (.inl hsome), Chart.next]
    exact ⟨⟨fun _ => hlt.mpr hsome, fun _ => rfl⟩, fun _ _ h => nomatch h⟩
  | drained hpop hdone =>
    rw [if_pos (.inr hdone), Chart.next]
    exact ⟨⟨nofun, fun hless => (hlt.mp hless hpop).elim⟩, fun _ _ h => nomatch h⟩
  | ended hpop hdone hstep =>
    rw [if_neg (not_or.mpr ⟨not_not.mpr hpop, hdone⟩), hstep]
    dsimp only
    rw [Chart.next]
    exact ⟨⟨nofun, fun hless => (hlt.mp hless hpop).elim⟩, fun _ _ h => nomatch h⟩
  | @produced _ _ item _ _ hpop hdone hstep hbecomes _ =>
    rw [if_neg (not_or.mpr ⟨not_not.mpr hpop, hdone⟩), hstep]
    refine ⟨⟨fun _ => ?_, fun _ => rfl⟩, ?_⟩
    · obtain ⟨s, -, -, hawaits⟩ := h.awaits hr
      have hlength := hawaits.length_eq
      have hdeals := h.deals.length_eq
      rw [Chart.next, List.length_append, List.length_singleton]
      omega
    · rintro _ _ ⟨⟩
      exact ⟨item, rfl, hbecomes⟩

theorem drop (h : c.Represents f) (hr : at? c.readers r = some reader) :
    (c.drop r).Represents (f.leave reader.slot) := by
  have hreaders := Readers.at?_set_none c.readers r
  obtain ⟨t, ht, -⟩ := h.awaits hr
  refine ⟨?_, ?_, h.deals, ?_, h.done, ?_, ?_, ?_⟩
  · rw [Fanout.length_leave]
    exact h.thresholds
  · intro r₁ r₂ _ _ h₁ h₂ hslot
    rw [Chart.drop, hreaders] at h₁ h₂
    split at h₁
    · cases h₁
    · split at h₂
      · cases h₂
      · exact h.apart h₁ h₂ hslot
  · intro r₁ reader₁ h₁
    rw [Chart.drop, hreaders] at h₁
    split at h₁
    · cases h₁
    · next hne =>
      obtain ⟨s, hs, hthreshold, hawaits⟩ := h.awaits h₁
      have hslot : reader₁.slot ≠ reader.slot := fun he => hne (h.apart h₁ hr he)
      exact ⟨s, by rw [Fanout.slot?_leave, if_neg hslot, hs], hthreshold, hawaits⟩
  · intro slot hfree
    rw [Fanout.slot?_leave]
    split
    · rfl
    · next hne =>
      refine h.free slot fun r₁ reader₁ h₁ => ?_
      by_cases he : r₁ = r
      · subst he
        obtain rfl := Option.some.inj (h₁.symm.trans hr)
        exact Ne.symm hne
      · exact hfree r₁ reader₁ (by rw [Chart.drop, hreaders, if_neg he, h₁])
  · rw [Fanout.length_leave]
    exact h.width
  · have htaken : reader.slot ∈ f.taken := by rw [Fanout.mem_taken, ht]; rfl
    rw [Fanout.taken_leave, Finset.card_erase_of_mem htaken, h.live]
    exact (live_set hr none).symm

end Represents

end Chart

end LazyCalc
