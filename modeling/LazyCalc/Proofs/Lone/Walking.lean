import LazyCalc.Proofs.Lone.Stable
/-!
Pulls and walks of lone sequences that tell: what comes of a walk, and what is told on the way, from
what comes of each pull and of each visit.
-/

namespace LazyCalc

open Filter

namespace Lone

theorem tells_finished (origin : LazyCalc.Origin Sequence Empty Snapshot) (hint : Hint)
    (hooks : List String) :
    Tells (fun n => (Drive.told n).pull ⟨origin, hint, true, hooks⟩)
      (none, ⟨origin, hint, true, hooks⟩) [] :=
  .succ (.pure _)

theorem tells_items (items : List Item) (hint : Hint) :
    Tells (fun n => (Drive.told n).pull ⟨.direct (.items items), hint, false, []⟩)
      (items.head?, ⟨.direct (.items items.tail), hint,
        LazyCalc.Sequence.closes items.head?, []⟩) [] := by
  cases items <;> exact .succ (.pure _)

theorem pulled {s : Sequence} {a : Option Item × Sequence} {texts : List String}
    (h : Tells (fun n => (Drive.told n).pull s) a texts) :
    a.2.hint = s.hint ∧ (LazyCalc.Sequence.closes a.1 = true → a.2.finished = true) := by
  obtain ⟨n, hn, hle⟩ := (h.and (eventually_ge_atTop 1)).exists
  obtain ⟨k, rfl⟩ := Nat.exists_eq_succ_of_ne_zero (by omega : n ≠ 0)
  have hpull := hn []
  obtain ⟨origin, hint, finished, hooks⟩ := s
  cases finished with
  | true =>
    obtain ⟨rfl, -⟩ := Prod.mk.inj (Option.some.inj hpull)
    exact ⟨rfl, fun _ => rfl⟩
  | false =>
    cases origin with
    | branch place => exact place.elim
    | direct source =>
      obtain ⟨⟨c, told⟩, -, hc⟩ := Option.bind_eq_some_iff.mp hpull
      obtain ⟨rfl, -⟩ := Prod.mk.inj (Option.some.inj hc)
      exact ⟨rfl, id⟩

theorem settles_pull_iff {s : Sequence} {a : Option Item × Sequence} :
    Settles (fun n => (Drive.alone n).pull s) a ↔
      ∃ texts, Tells (fun n => (Drive.told n).pull s) a texts :=
  settles_iff (fun n => pullsStably n s) (fun n => pullsSilently n s)

def settled (g : Gathered Sequence) : Item :=
  match g.failure with
  | none => .ok (.list g.items)
  | some e => .error e

theorem tells_settle (g : Gathered Sequence) :
    Tells (fun n => (Drive.told n).settle g) (settled g) [] := by
  obtain ⟨items, failure⟩ := g
  cases failure with
  | none => exact .pure _
  | some e => exact (Tells.pure ()).bind (.pure _)

section

variable {c : Collection} {kernel : Extent → Except Failure Plan} {x : Item} {texts : List String}

theorem tells_readWith {reading : Reading} (hplan : kernel c.extent = .ok (.read reading))
    (h : Tells (fun n => c.perform (Drive.told n) reading) x texts) :
    Tells (fun n => c.readWith (Drive.told n) kernel) x texts := by
  have hnote : Tells (fun n => (Drive.told n).note []) () [] := .of_forall fun _ _ => rfl
  have hread : Tells (fun n => c.readWith (Drive.told n) kernel) x (texts ++ []) := by
    simp only [Collection.readWith, hplan]
    cases x with
    | error e => exact hnote.bind (h.bind (.pure _))
    | ok v => exact hnote.bind (h.bind (hnote.bind (.pure _)))
  rwa [List.append_nil] at hread

theorem tells_readWith_refused {e : Failure} (hplan : kernel c.extent = .error e) :
    Tells (fun n => c.readWith (Drive.told n) kernel) (.error e) [] := by
  simp only [Collection.readWith, hplan]
  exact (Tells.pure ()).bind (.pure _)

end

section

variable {β γ : Type}

/-- What comes of a walk, and what is told, however much of the fuel is spent before it starts. -/
def Walks (visit : Nat → β → Item → Told (Flow β γ)) (state : β) (s : Sequence)
    (result : Flow β γ × Sequence) (texts : List String) : Prop :=
  ∀ spent, Tells (fun n => (Drive.told n).walkFor (visit n) (n - spent) state s) result texts

namespace Walks

variable {visit : Nat → β → Item → Told (Flow β γ)} {state state' : β} {s s' : Sequence}
  {item : Item} {result : Flow β γ × Sequence} {texts texts' texts'' : List String}

theorem tells (h : Walks visit state s result texts) :
    Tells (fun n => (Drive.told n).walk (visit n) state s) result texts := h 0

theorem of_turn (h : ∀ spent, Tells (fun n => (Drive.told n).walkTurn (visit n)
      (fun i => (Drive.told n).walkFor (visit n) (n - spent) i.1 i.2) (state, s)) result texts) :
    Walks visit state s result texts := by
  intro spent
  refine (h (spent + 1)).congr ?_
  filter_upwards [eventually_gt_atTop spent] with n hn
  rw [show n - spent = n - (spent + 1) + 1 by omega]
  rfl

theorem ended (hpull : Tells (fun n => (Drive.told n).pull s) (none, s') texts) :
    Walks visit state s (.onward state, s') texts := by
  refine of_turn fun spent => ?_
  rw [← List.append_nil texts]
  exact hpull.bind (.pure _)

theorem halted {outcome : γ} (hpull : Tells (fun n => (Drive.told n).pull s) (some item, s') texts)
    (hvisit : Tells (fun n => visit n state item) (.halt outcome) texts') :
    Walks visit state s (.halt outcome, s') (texts ++ texts') := by
  refine of_turn fun spent => ?_
  rw [← List.append_nil texts']
  exact hpull.bind (hvisit.bind (.pure _))

theorem onward (hpull : Tells (fun n => (Drive.told n).pull s) (some item, s') texts)
    (hvisit : Tells (fun n => visit n state item) (.onward state') texts')
    (hrest : Walks visit state' s' result texts'') :
    Walks visit state s result (texts ++ (texts' ++ texts'')) :=
  of_turn fun spent => hpull.bind (hvisit.bind (hrest spent))

end Walks

end

end Lone

end LazyCalc
