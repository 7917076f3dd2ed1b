import LazyCalc.Proofs.Lone.Stable
namespace LazyCalc

open Filter

namespace Lone

inductive Elements : Sequence → List Value → Prop
  | nil {s s' : Sequence} (h : Settles (fun n => (Drive.alone n).pull s) (none, s')) : Elements s []
  | cons {s s' : Sequence} {v : Value} {vs : List Value}
    (h : Settles (fun n => (Drive.alone n).pull s) (some (.ok v), s')) (hrest : Elements s' vs) :
    Elements s (v :: vs)

theorem Elements.settles_walk {α β : Type} {s : Sequence} {vs : List Value} (h : Elements s vs)
    (step : α → Value → Option α) (visit : Nat → α → Item → Option (Flow α β))
    (hvisit : ∀ n a v a', step a v = some a' → visit n a (.ok v) = some (.onward a')) (a a' : α)
    (hsteps : vs.foldlM step a = some a') :
    ∃ s', Settles (fun n => (Drive.alone n).walk (visit n) a s) (.onward a', s') := by
  -- the turns are bounded apart from the fuel of the pulls, so that each element takes one off
  suffices hwalk : ∃ s', ∀ᶠ n in atTop, ∀ k, vs.length < k →
      (Drive.alone n).walkFor (visit n) k a s = some (.onward a', s') by
    obtain ⟨s', hwalk⟩ := hwalk
    refine ⟨s', ?_⟩
    filter_upwards [hwalk, eventually_gt_atTop vs.length] with n hn hlt
    exact hn n hlt
  induction h generalizing a with
  | @nil s s' h =>
    obtain rfl := Option.some.inj hsteps
    refine ⟨s', ?_⟩
    filter_upwards [h] with n hn k hk
    obtain ⟨k, rfl⟩ := Nat.exists_eq_succ_of_ne_zero (Nat.ne_zero_of_lt hk)
    rw [Drive.walkFor, hn]
    rfl
  | @cons s s₁ v vs h hrest ih =>
    obtain ⟨a₁, ha₁, hsteps⟩ := Option.bind_eq_some_iff.mp hsteps
    obtain ⟨s', hwalk⟩ := ih a₁ hsteps
    refine ⟨s', ?_⟩
    filter_upwards [h, hwalk] with n hn hwalk k hk
    obtain ⟨k, rfl⟩ := Nat.exists_eq_succ_of_ne_zero (Nat.ne_zero_of_lt hk)
    rw [Drive.walkFor, hn]
    change (visit n a (.ok v)).bind _ = _
    rw [hvisit n a v a₁ ha₁]
    exact hwalk k (Nat.lt_of_succ_lt_succ hk)

theorem elements_of_gather {n k : Nat} {taken : List Value} {s s' : Sequence}
    {flow : Flow (Option Nat × List Value) (Gathered Sequence)}
    (h : (Drive.alone n).walkFor LazyCalc.Sequence.gatherStep k (none, taken) s = some (flow, s')) :
    (∃ vs, flow = .onward (none, vs.reverse ++ taken) ∧ Elements s vs) ∨
      ∃ items e, flow = .halt ⟨items, some e⟩ := by
  induction k generalizing taken s with
  | zero => cases h
  | succ k ih =>
    rw [Drive.walkFor] at h
    obtain ⟨⟨item, s₁⟩, hpull, h⟩ := Option.bind_eq_some_iff.mp h
    have hsettles := settles_pull hpull
    match item, h, hsettles with
    | none, h, hsettles =>
      cases h
      exact .inl ⟨[], rfl, .nil hsettles⟩
    | some (.error e), h, _ =>
      cases h
      exact .inr ⟨_, e, rfl⟩
    | some (.ok v), h, hsettles =>
      obtain ⟨vs, rfl, hrest⟩ | hhalt := ih h
      · exact .inl ⟨v :: vs, by simp, .cons hsettles hrest⟩
      · exact .inr hhalt

theorem elements_of_collect {s : Sequence} {vs : List Value} {n : Nat}
    (h : s.collect (Drive.alone n) = some (.ok (.list vs))) : Elements s vs := by
  rw [LazyCalc.Sequence.collect, LazyCalc.Sequence.spend, if_neg nofun] at h
  obtain ⟨_, ⟨⟩, h⟩ := Option.bind_eq_some_iff.mp h
  obtain ⟨⟨gathered, s₁⟩, hgather, h⟩ := Option.bind_eq_some_iff.mp h
  rw [LazyCalc.Sequence.gather, if_neg nofun] at hgather
  obtain ⟨⟨flow, s₂⟩, hwalk, hgather⟩ := Option.bind_eq_some_iff.mp hgather
  obtain ⟨vs', rfl, helements⟩ | ⟨items, e, rfl⟩ := elements_of_gather hwalk
  · cases hgather
    cases h
    simpa using helements
  · cases hgather
    cases h

end Lone

end LazyCalc
