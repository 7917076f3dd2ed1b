import LazyCalc.Proofs.Desk.Linked
import Mathlib.Order.Filter.Finite
/-!
A run of lone sequences over several desks is a run over each desk by itself: what is done elsewhere
in between makes no difference.
-/

namespace LazyCalc

open Filter

def own {α : Type} (k : Nat) (tagged : List (Nat × α)) : List (Nat × α) :=
  (tagged.filter (·.1 = k)).map fun a => (0, a.2)

section

variable {α : Type} {k j : Nat} {a : α} {tagged tagged' : List (Nat × α)}

@[simp]
theorem own_nil : own k ([] : List (Nat × α)) = [] := rfl

@[simp]
theorem own_cons_self : own k ((k, a) :: tagged) = (0, a) :: own k tagged := by
  simp [own]

theorem own_cons_of_ne (h : j ≠ k) : own k ((j, a) :: tagged) = own k tagged := by
  simp [own, h]

theorem own_eq_nil (h : k ∉ tagged.map Prod.fst) : own k tagged = [] := by
  induction tagged with
  | nil => rfl
  | cons a tagged ih =>
    obtain ⟨j, a⟩ := a
    rw [List.map_cons, List.mem_cons, not_or] at h
    rw [own_cons_of_ne (Ne.symm h.1), ih h.2]

theorem own_ext (htags : tagged.map Prod.fst = tagged'.map Prod.fst)
    (h : ∀ k, own k tagged = own k tagged') : tagged = tagged' := by
  induction tagged generalizing tagged' with
  | nil => exact (List.map_eq_nil_iff.mp htags.symm).symm
  | cons a tagged ih =>
    obtain ⟨k, a⟩ := a
    cases tagged' with
    | nil => cases htags
    | cons a' tagged' =>
      obtain ⟨k', a'⟩ := a'
      obtain ⟨rfl, hrest⟩ := List.cons.inj htags
      have hk := h k
      rw [own_cons_self, own_cons_self] at hk
      obtain ⟨ha, hown⟩ := List.cons.inj hk
      obtain rfl := (Prod.mk.inj ha).2
      refine congrArg _ (ih hrest fun j => ?_)
      by_cases hj : k = j
      · exact hj ▸ hown
      · simpa only [own_cons_of_ne hj] using h j

end

namespace Desk

def only {α : Type} (k : Nat) (desks : List α) : List α := desks[k]?.toList

variable {n k j : Nat} {a : Act} {acts : List (Nat × Act)} {desks desks' : List Lone.Desk}
  {reply : Showing} {replies : List (Nat × Showing)}

theorem actAt_only (h : actAt (Drive.alone n) (fun s _ => s) k a desks = some (reply, desks')) :
    actAt (Drive.alone n) (fun s _ => s) 0 a (only k desks) = some (reply, only k desks') ∧
      ∀ j, k ≠ j → only j desks' = only j desks := by
  unfold actAt at h
  cases hdesk : desks[k]? with
  | none =>
    rw [hdesk] at h
    obtain ⟨rfl, rfl⟩ := Prod.mk.inj (Option.some.inj h)
    refine ⟨?_, fun _ _ => rfl⟩
    rw [only, hdesk]
    rfl
  | some desk =>
    rw [hdesk] at h
    obtain ⟨⟨reply', desk'⟩, hact, h⟩ := Option.bind_eq_some_iff.mp h
    obtain ⟨rfl, rfl⟩ := Prod.mk.inj (Option.some.inj h)
    have hk : k < desks.length := (List.getElem?_eq_some_iff.mp hdesk).1
    refine ⟨?_, fun j hj => ?_⟩
    · rw [only, only, hdesk, List.getElem?_set_self hk]
      exact Option.bind_eq_some_iff.mpr ⟨_, hact, rfl⟩
    · rw [only, only, List.getElem?_set_ne hj]

theorem actAt_of_only {r : Showing × List Lone.Desk}
    (h : actAt (Drive.alone n) (fun s _ => s) 0 a (only k desks) = some r) :
    ∃ r', actAt (Drive.alone n) (fun s _ => s) k a desks = some r' := by
  unfold actAt at h ⊢
  cases hdesk : desks[k]? with
  | none => exact ⟨_, rfl⟩
  | some desk =>
    rw [only, hdesk] at h
    obtain ⟨⟨reply, desk'⟩, hact, -⟩ := Option.bind_eq_some_iff.mp h
    exact ⟨_, Option.bind_eq_some_iff.mpr ⟨_, hact, rfl⟩⟩

theorem runAlone_cons :
    runAlone n ((k, a) :: acts) desks = some (replies, desks') ↔
      ∃ reply desks₁ replies', actAt (Drive.alone n) (fun s _ => s) k a desks = some (reply, desks₁) ∧
        runAlone n acts desks₁ = some (replies', desks') ∧ replies = (k, reply) :: replies' := by
  constructor
  · intro h
    obtain ⟨⟨reply, desks₁⟩, hact, h⟩ := Option.bind_eq_some_iff.mp h
    obtain ⟨⟨replies', desks₂⟩, hrun, h⟩ := Option.bind_eq_some_iff.mp h
    obtain ⟨rfl, rfl⟩ := Prod.mk.inj (Option.some.inj h)
    exact ⟨reply, desks₁, replies', hact, hrun, rfl⟩
  · rintro ⟨reply, desks₁, replies', hact, hrun, rfl⟩
    exact Option.bind_eq_some_iff.mpr ⟨_, hact, Option.bind_eq_some_iff.mpr ⟨_, hrun, rfl⟩⟩

theorem actAt_single {tool : Tool} {numbers : List Nat} {desk : Lone.Desk} {X : Option Lone.Item}
    (h : tool.work (Drive.alone n) (take numbers desk).1 = Tool.single X) :
    actAt (Drive.alone n) (fun s _ => s) 0 (.use tool numbers) [desk] =
      X.map fun x => (showing [x], [put [x] (take numbers desk).2]) := by
  change Option.bind (Option.bind (tool.work (Drive.alone n) (take numbers desk).1) _) _ = _
  rw [h]
  cases X <;> rfl

/-- In a run each desk sees its own acts, and gives what it gives by itself. -/
theorem runAlone_own (h : runAlone n acts desks = some (replies, desks')) :
    replies.map Prod.fst = acts.map Prod.fst ∧
      ∀ k, runAlone n (own k acts) (only k desks) = some (own k replies, only k desks') := by
  induction acts generalizing desks replies with
  | nil =>
    obtain ⟨rfl, rfl⟩ := Prod.mk.inj (Option.some.inj h)
    exact ⟨rfl, fun k => rfl⟩
  | cons a acts ih =>
    obtain ⟨k, a⟩ := a
    obtain ⟨reply, desks₁, replies', hact, hrun, rfl⟩ := runAlone_cons.mp h
    obtain ⟨hself, hothers⟩ := actAt_only hact
    obtain ⟨htags, hown⟩ := ih hrun
    refine ⟨congrArg (k :: ·) htags, fun j => ?_⟩
    by_cases hj : k = j
    · subst hj
      rw [own_cons_self, own_cons_self]
      exact runAlone_cons.mpr ⟨reply, _, _, hself, hown k, rfl⟩
    · rw [own_cons_of_ne hj, own_cons_of_ne hj, ← hothers j hj]
      exact hown j

theorem runAlone_of_own (h : ∀ k, ∃ r, runAlone n (own k acts) (only k desks) = some r) :
    ∃ r, runAlone n acts desks = some r := by
  induction acts generalizing desks with
  | nil => exact ⟨_, rfl⟩
  | cons a acts ih =>
    obtain ⟨k, a⟩ := a
    obtain ⟨r, hr⟩ := h k
    rw [own_cons_self] at hr
    obtain ⟨reply, desks₀, replies, hact₀, hrun₀, -⟩ := runAlone_cons.mp hr
    obtain ⟨⟨reply', desks₁⟩, hact⟩ := actAt_of_only hact₀
    obtain ⟨hself, hothers⟩ := actAt_only hact
    have hrest : ∀ j, ∃ r, runAlone n (own j acts) (only j desks₁) = some r := fun j => by
      by_cases hj : k = j
      · subst hj
        rw [hself] at hact₀
        obtain ⟨-, rfl⟩ := Prod.mk.inj (Option.some.inj hact₀)
        exact ⟨_, hrun₀⟩
      · obtain ⟨r', hr'⟩ := h j
        rw [own_cons_of_ne hj, ← hothers j hj] at hr'
        exact ⟨r', hr'⟩
    obtain ⟨r', hr'⟩ := ih hrest
    exact ⟨_, runAlone_cons.mpr ⟨reply', desks₁, _, hact, hr', rfl⟩⟩

def Replies (acts : List (Nat × Act)) (desks : List Lone.Desk) (replies : List (Nat × Showing)) :
    Prop :=
  Settles (fun n => (runAlone n acts desks).map Prod.fst) replies

/-- The replies of an interleaving are those of the desks by themselves. -/
theorem replies_iff_own : Replies acts desks replies ↔ replies.map Prod.fst = acts.map Prod.fst ∧
    ∀ k, Replies (own k acts) (only k desks) (own k replies) := by
  constructor
  · intro h
    have hown : ∀ᶠ n in atTop, replies.map Prod.fst = acts.map Prod.fst ∧
        ∀ k, (runAlone n (own k acts) (only k desks)).map Prod.fst = some (own k replies) := by
      filter_upwards [h] with n hn
      obtain ⟨⟨replies, desks'⟩, hrun, rfl⟩ := Option.map_eq_some_iff.mp hn
      obtain ⟨htags, hown⟩ := runAlone_own hrun
      exact ⟨htags, fun k => by rw [hown k]; rfl⟩
    refine ⟨hown.exists.choose_spec.1, fun k => ?_⟩
    filter_upwards [hown] with n hn
    exact hn.2 k
  · rintro ⟨htags, h⟩
    -- only desks that are acted on need fuel, and there are finitely many of them
    have hall : ∀ᶠ n in atTop, ∀ k ∈ (acts.map Prod.fst).toFinset,
        (runAlone n (own k acts) (only k desks)).map Prod.fst = some (own k replies) :=
      (eventually_all_finset _).mpr fun k _ => h k
    filter_upwards [hall] with n hn
    have hn' (k : Nat) : (runAlone n (own k acts) (only k desks)).map Prod.fst =
        some (own k replies) := by
      by_cases hk : k ∈ acts.map Prod.fst
      · exact hn k (List.mem_toFinset.mpr hk)
      · rw [own_eq_nil hk, own_eq_nil (htags ▸ hk)]
        rfl
    obtain ⟨⟨replies', desks'⟩, hrun⟩ := runAlone_of_own fun k => by
      obtain ⟨r, hr, -⟩ := Option.map_eq_some_iff.mp (hn' k)
      exact ⟨r, hr⟩
    obtain ⟨htags', hown⟩ := runAlone_own hrun
    rw [hrun]
    refine congrArg some (own_ext (htags'.trans htags.symm) fun k => ?_)
    have := hn' k
    rw [hown k] at this
    exact Option.some.inj this

end Desk

end LazyCalc
