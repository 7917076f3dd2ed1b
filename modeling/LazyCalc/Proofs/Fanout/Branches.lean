import LazyCalc.Proofs.Engine.Places
import LazyCalc.Proofs.Engine.Plain
import LazyCalc.Proofs.Fanout.Readers
import LazyCalc.Proofs.Fanout.Slots
/-!
What lies between two positions of a stream, what the invariant of cursors is, and what a pull of a
branch does by what it finds in its slot.
-/

namespace LazyCalc

namespace Readers

variable {α : Type} {l : List (Option α)}

theorem lt_of_at? {r : Nat} {a : α} (h : at? l r = some a) : r < l.length := by
  rcases Nat.lt_or_ge r l.length with hlt | hge
  · exact hlt
  · simp [at?, List.getElem?_eq_none hge] at h

theorem at?_set {r : Nat} (h : r < l.length) (a : Option α) (j : Nat) :
    at? (l.set r a) j = if j = r then a else at? l j := by
  simp only [at?, List.getElem?_set]
  by_cases hj : r = j
  · subst hj; simp [h]
  · simp [hj, Ne.symm hj]

theorem at?_set_none (l : List (Option α)) (r j : Nat) :
    at? (l.set r none) j = if j = r then none else at? l j := by
  by_cases hlt : r < l.length
  · exact at?_set hlt none j
  · rw [List.set_eq_of_length_le (Nat.le_of_not_lt hlt)]
    split
    · next hj => rw [at?, List.getElem?_eq_none (by omega)]; rfl
    · rfl

theorem set_of_at? {r : Nat} {a : α} (h : at? l r = some a) : l.set r (some a) = l := by
  have hr : l[r]? = some (some a) := Option.join_eq_some_iff.mp h
  obtain ⟨hlt, hget⟩ := List.getElem?_eq_some_iff.mp hr
  rw [← hget, List.set_getElem_self]

theorem at?_append (l : List (Option α)) (a : Option α) (j : Nat) :
    at? (l ++ [a]) j = if j = l.length then a else at? l j := by
  simp only [at?, List.getElem?_append]
  by_cases hj : j < l.length
  · simp [hj, Nat.ne_of_lt hj]
  · by_cases he : j = l.length
    · simp [he]
    · have : j - l.length ≠ 0 := by omega
      simp [hj, he, this]

end Readers

namespace Cursors

open Readers

variable {answer : Nat → Option PlainItem} {cs : Cursors} {c c₀ : Cursor} {r : Nat}

structure Valid (answer : Nat → Option PlainItem) (cs : Cursors) : Prop where
  cursor : ∀ {r c}, at? cs.cursors r = some c → c.Valid answer ∧ c.position ≤ cs.reached
  reached : ∀ k, k + 1 < cs.reached → Delivers answer k

theorem Valid.reach (h : cs.Valid answer) (hc : c.Valid answer) : (cs.reach c).Valid answer := by
  refine ⟨?_, ?_⟩
  · intro j c' hj
    exact ⟨(h.cursor hj).1, Nat.le_trans (h.cursor hj).2 (Nat.le_max_left _ _)⟩
  · intro k hk
    rcases Nat.lt_or_ge (k + 1) cs.reached with hlt | hge
    · exact h.reached k hlt
    · have hp : k + 1 < c.position := by
        have : k + 1 < max cs.reached c.position := hk
        omega
      exact hc k (by omega) (fun _ => hp)

theorem Valid.move (h : cs.Valid answer) (hr : at? cs.cursors r = some c₀) (hc : c.Valid answer) :
    (cs.move r c).Valid answer := by
  refine ⟨?_, (h.reach hc).reached⟩
  intro j c' hj
  simp only [Cursors.move, at?_set (lt_of_at? hr)] at hj
  split at hj
  · obtain rfl := Option.some.inj hj
    exact ⟨hc, Nat.le_max_right _ _⟩
  · exact (h.reach hc).cursor hj

theorem Valid.add (h : cs.Valid answer) (hr : at? cs.cursors r = some c) :
    (cs.add c).Valid answer := by
  refine ⟨?_, h.reached⟩
  intro j c' hj
  simp only [Cursors.add, at?_append] at hj
  split at hj
  · obtain rfl := Option.some.inj hj
    exact h.cursor hr
  · exact h.cursor hj

theorem Valid.remove (h : cs.Valid answer) (hr : at? cs.cursors r = some c) :
    (cs.remove r).Valid answer := by
  refine ⟨?_, h.reached⟩
  intro j c' hj
  simp only [Cursors.remove, at?_set (lt_of_at? hr)] at hj
  split at hj
  · cases hj
  · exact h.cursor hj

end Cursors

def behind (answer : Nat → Option PlainItem) (first last : Nat) : List PlainItem :=
  (List.range' first (last - first)).filterMap answer

section

variable {answer : Nat → Option PlainItem} {first last : Nat}

theorem behind_self (n : Nat) : behind answer n n = [] := by simp [behind]

theorem behind_of_lt (h : first < last) :
    behind answer first last = (answer first).toList ++ behind answer (first + 1) last := by
  obtain ⟨n, hn⟩ : ∃ n, last - first = n + 1 := ⟨last - first - 1, by omega⟩
  have hn' : last - (first + 1) = n := by omega
  simp only [behind, hn, hn', List.range'_succ]
  cases ha : answer first <;> simp [ha]

theorem behind_succ (h : first ≤ last) :
    behind answer first (last + 1) = behind answer first last ++ (answer last).toList := by
  have hn : last + 1 - first = last - first + 1 := by omega
  have hl : first + (last - first) = last := by omega
  simp only [behind, hn, List.range'_concat, List.filterMap_append, Nat.one_mul, hl]
  cases h : answer last <;> simp [h]

end

section

variable {d : Linked.Drive} {i slot : Nat} {st : Store} {source : Linked.Source} {fanout : Fanout Linked.Item}
  {hooks : List String}

theorem pullBranch_of_pop {item : Linked.Item} {fanout' : Fanout Linked.Item}
    (hi : st.fanouts[i]? = some (.held ⟨source, fanout, hooks⟩))
    (hp : fanout.pop? slot = some (item, fanout')) :
    pullBranch d ⟨i, slot⟩ st = .ok (some item, st.setFanout i (.held ⟨source, fanout', hooks⟩)) := by
  rw [pullBranch]
  rw [Engine.bind_eq (Engine.lendFanout_eq hi)]
  simp only [hp]
  rw [Engine.bind_eq rfl]
  simp

theorem pullBranch_of_done (hi : st.fanouts[i]? = some (.held ⟨source, fanout, hooks⟩))
    (hp : fanout.pop? slot = none) (hd : fanout.done = true) :
    pullBranch d ⟨i, slot⟩ st = .ok (none, st.setFanout i (.held ⟨source, fanout, hooks⟩)) := by
  rw [pullBranch]
  rw [Engine.bind_eq (Engine.lendFanout_eq hi)]
  simp only [hp, hd, if_true]
  rw [Engine.bind_eq rfl]
  simp

theorem pullBranch_of_end {source' : Linked.Source} {st' : Store}
    (hi : st.fanouts[i]? = some (.held ⟨source, fanout, hooks⟩))
    (hp : fanout.pop? slot = none) (hd : fanout.done = false)
    (hs : source.step d (st.setFanout i .lent) = .ok ((none, source'), st')) :
    pullBranch d ⟨i, slot⟩ st =
      .ok (none, st'.setFanout i (.held ⟨source', { fanout with done := true }, hooks⟩)) := by
  rw [pullBranch]
  rw [Engine.bind_eq (Engine.lendFanout_eq hi)]
  simp only [hp, hd, Bool.false_eq_true, if_false]
  rw [Engine.bind_eq hs]
  rfl

theorem pullBranch_of_fault {fault : Fault}
    (hi : st.fanouts[i]? = some (.held ⟨source, fanout, hooks⟩))
    (hp : fanout.pop? slot = none) (hd : fanout.done = false)
    (hs : source.step d (st.setFanout i .lent) = .error fault) :
    pullBranch d ⟨i, slot⟩ st = .error fault := by
  rw [pullBranch]
  rw [Engine.bind_eq (Engine.lendFanout_eq hi)]
  simp only [hp, hd, Bool.false_eq_true, if_false]
  exact Engine.bind_error hs

theorem pullBranch_of_item {source' : Linked.Source} {item item' : Linked.Item} {slots lags}
    {st' st'' : Store} (hi : st.fanouts[i]? = some (.held ⟨source, fanout, hooks⟩))
    (hp : fanout.pop? slot = none) (hd : fanout.done = false)
    (hs : source.step d (st.setFanout i .lent) = .ok ((some item, source'), st'))
    (hc : Fanout.deliver (Item.copyWith d.fork) slot item 0 fanout.slots st' =
      .ok ((item', slots, lags), st'')) :
    pullBranch d ⟨i, slot⟩ st =
      .ok (some item', (st''.record (lags.map .lagging)).setFanout i
        (.held ⟨source', ⟨slots, Item.isFailure item⟩, hooks⟩)) := by
  rw [pullBranch]
  rw [Engine.bind_eq (Engine.lendFanout_eq hi)]
  simp only [hp, hd, Bool.false_eq_true, if_false]
  rw [Engine.bind_eq hs]
  dsimp only
  rw [Engine.bind_eq hc]
  rfl

end

namespace Sequence

variable {d : Linked.Drive} {s : Linked.Sequence} {st st' : Store} {o : Option PlainItem}

theorem step_of_finished (h : s.finished = true) :
    s.step d (pullBranch d) st = .ok ((none, s), st) := by
  simp [step, h]

theorem step_of_direct {source source' : Linked.Source} (h : s.finished = false)
    (horigin : s.origin = .direct source)
    (hp : source.step d st = .ok ((o.map .ofPlain, source'), st')) :
    s.step d (pullBranch d) st =
      .ok ((o.map .ofPlain, { s with origin := .direct source', finished := Cursor.stops o }), st') := by
  obtain ⟨origin, hint, finished, hooks⟩ := s
  obtain rfl : finished = false := h
  obtain rfl : origin = .direct source := horigin
  unfold step
  simp only [Bool.false_eq_true, if_false]
  rw [Engine.bind_eq hp]
  rcases o with _ | _ | v <;> rfl

theorem step_of_branch {b : Branch} (h : s.finished = false) (horigin : s.origin = .branch b)
    (hp : pullBranch d b st = .ok (o.map .ofPlain, st')) :
    s.step d (pullBranch d) st =
      .ok ((o.map .ofPlain, { s with finished := Cursor.stops o }), st') := by
  obtain ⟨origin, hint, finished, hooks⟩ := s
  obtain rfl : finished = false := h
  obtain rfl : origin = .branch b := horigin
  unfold step
  simp only [Bool.false_eq_true, if_false]
  rw [Engine.bind_eq hp]
  rcases o with _ | _ | v <;> rfl

end Sequence

end LazyCalc
