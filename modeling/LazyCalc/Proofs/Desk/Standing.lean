import LazyCalc.Proofs.Desk.Moments
/-!
Values of a moment taken by themselves, and lone values that stand for them: those that give the
same, whatever is done with them.
-/

namespace LazyCalc

open Filter

namespace Desk

/-- A run of lone sequences that tells what is noted. -/
def runTold (n : Nat) (acts : List (Nat × Act)) (desks : List Lone.Desk) :
    Told (List (Nat × Showing) × List Lone.Desk) :=
  run (Drive.told n) (fun s _ => s) acts desks

section

variable (acts : List (Nat × Act)) (desks : List Lone.Desk)

theorem left_lone (desks : List Lone.Desk) : (left desks : List Lone.Desk) = desks := by
  have hvalue : Tree.map (id : Lone.Sequence → Lone.Sequence) = id := funext Tree.map_id
  change desks.map (List.map (Option.map (Tree.map id))) = desks
  rw [hvalue, Option.map_id, List.map_id_fun, List.map_id]

theorem leads_run (n : Nat) :
    Told.Leads n (fun m => runTold m acts desks) (fun m => runTold m acts desks) Eq := by
  have hrun := (Lone.steady n (Lone.pullsStably n)).runDesks acts desks
  rw [left_lone, show (right desks : List Lone.Desk) = desks from left_lone desks] at hrun
  exact Told.Leads.mono hrun fun a b => Lone.Sides.eq fun _ => rfl

theorem silently_run (n : Nat) :
    (Lone.silently n).Holds (fun m => runTold m acts desks) (fun m => runAlone m acts desks) Eq := by
  have hrun := (Lone.silent n (Lone.pullsSilently n)).runDesks acts desks
  rw [left_lone, show (right desks : List Lone.Desk) = desks from left_lone desks] at hrun
  exact (Lone.silently n).mono hrun fun a b => Lone.Sides.eq fun _ => rfl

variable {acts desks}

theorem settles_run {n : Nat} {r : List (Nat × Showing) × List Lone.Desk}
    (h : runAlone n acts desks = some r) : Settles (fun n => runAlone n acts desks) r :=
  Lone.settles_of_some (leads_run acts desks) (silently_run acts desks) h

theorem replies_of_run {n : Nat} {r : List (Nat × Showing) × List Lone.Desk}
    (h : runAlone n acts desks = some r) : Replies acts desks r.1 := by
  filter_upwards [settles_run h] with n hn
  rw [hn]
  rfl

theorem replies_iff_tells {rs : List (Nat × Showing)} :
    Replies acts desks rs ↔
      ∃ desks' texts, Tells (fun n => runTold n acts desks) (rs, desks') texts := by
  constructor
  · intro h
    obtain ⟨n, hn⟩ := h.exists
    obtain ⟨⟨rs', desks'⟩, hrun, rfl⟩ := Option.map_eq_some_iff.mp hn
    exact ⟨desks', (Lone.settles_iff (leads_run acts desks) (silently_run acts desks)).mp
      (settles_run hrun)⟩
  · rintro ⟨desks', htells⟩
    have hrun := (Lone.settles_iff (leads_run acts desks) (silently_run acts desks)).mpr htells
    obtain ⟨n, hn⟩ := hrun.exists
    exact replies_of_run hn

theorem replies_congr {acts' : List (Nat × Act)} {desks' : List Lone.Desk}
    (h : TellAlike (fun n => runTold n acts desks) (fun n => runTold n acts' desks')
      fun a b => a.1 = b.1) (rs : List (Nat × Showing)) :
    Replies acts desks rs ↔ Replies acts' desks' rs := by
  rw [replies_iff_tells, replies_iff_tells]
  constructor
  · rintro ⟨rest, texts, ha⟩
    obtain ⟨⟨_, rest'⟩, hb, rfl⟩ := h.forth _ _ ha
    exact ⟨rest', texts, hb⟩
  · rintro ⟨rest, texts, hb⟩
    obtain ⟨⟨_, rest'⟩, ha, rfl⟩ := h.back _ _ hb
    exact ⟨rest', texts, ha⟩

end

theorem take_range {α : Type} (as : List α) :
    take (List.range as.length) (as.map some) = (as, List.replicate as.length none) := by
  have hfrom (as : List α) (k : Nat) : take (List.range' k as.length)
      (List.replicate k none ++ as.map some) = (as, List.replicate (k + as.length) none) := by
    induction as generalizing k with
    | nil => simp [take]
    | cons a as ih =>
      have hset : (List.replicate k none ++ (a :: as).map some).set k none =
          List.replicate (k + 1) none ++ as.map some := by
        rw [List.set_append_right _ _ (by simp), List.length_replicate, Nat.sub_self,
          List.replicate_succ', List.append_assoc]
        rfl
      have hat : Readers.at? (List.replicate k none ++ (a :: as).map some) k = some a := by
        simp [Readers.at?]
      rw [List.length_cons, List.range'_succ, take, hset, ih (k + 1), hat]
      simp [Nat.add_assoc, Nat.add_comm 1]
  have := hfrom as 0
  rwa [← List.range_eq_range', List.replicate_zero, List.nil_append, Nat.zero_add] at this

end Desk

namespace Rests

variable {G : Ledger} {st : Store} {desk : Twins.Desk}

theorem exists_picked (h : Rests G st (parts desk)) (numbers : List Nat) :
    ∃ (picked : Twins.Desk) (B : Twins.Parts),
      left picked = (Desk.take numbers (left desk)).1.map some ∧
      right picked = (Desk.take numbers (right desk)).1.map some ∧ Rests G st (parts picked + B) := by
  refine ⟨(Desk.take numbers desk).1.map some, parts (Desk.take numbers desk).2, ?_, ?_, ?_⟩
  · change List.map (Option.map left) (List.map some (Desk.take numbers desk).1) = _
    rw [show (Desk.take numbers (left desk)).1 = (Desk.take numbers desk).1.map left from
      congrArg Prod.fst (Desk.take_map left numbers desk), List.map_map, List.map_map]
    rfl
  · change List.map (Option.map right) (List.map some (Desk.take numbers desk).1) = _
    rw [show (Desk.take numbers (right desk)).1 = (Desk.take numbers desk).1.map right from
      congrArg Prod.fst (Desk.take_map right numbers desk), List.map_map, List.map_map]
    rfl
  · have hpicked := parts_desk_items (κ := Twins.Cell) ((Desk.take numbers desk).1.map Except.ok)
    rw [List.map_map] at hpicked
    refine h.congr ?_
    rw [show (parts ((Desk.take numbers desk).1.map some) : Twins.Parts) =
      parts (Desk.take numbers desk).1 from hpicked.trans (parts_items_ok _), Desk.parts_take]

theorem yields_picked_iff (h : Rests G st (parts desk)) (numbers : List Nat)
    (acts : List (Nat × Act)) (rs : List (Nat × Showing)) :
    Yields (fun n => Desk.replies n acts [(Desk.take numbers (left desk)).1.map some]) st rs ↔
      Desk.Replies acts [(Desk.take numbers (right desk)).1.map some] rs := by
  obtain ⟨picked, B, hl, hr, hrest⟩ := h.exists_picked numbers
  rw [← hl, ← hr]
  have hdesks : Rests G st (parts [picked] + B) :=
    hrest.congr (by rw [parts_desks_cons, parts_desks_nil, add_zero])
  exact Desk.yields_replies_iff hdesks acts rs

end Rests

namespace Moment

/-- The values with these numbers, on a desk of their own. -/
def picked (M : Moment) (numbers : List Nat) : Linked.Desk :=
  (Desk.take numbers M.desk).1.map some

/-- Lone values that give what the values with these numbers give, whatever is done with them. -/
def Stands (M : Moment) (numbers : List Nat) (vs : List Lone.Value) : Prop :=
  ∀ (acts : List (Nat × Act)) (rs : List (Nat × Showing)),
    Yields (fun n => Desk.replies n acts [M.picked numbers]) M.store rs ↔
      Desk.Replies acts [vs.map some] rs

theorem stands_run {n : Nat} {acts : List (Nat × Act)} {replies replies' : List (Nat × Showing)}
    {desk : Linked.Desk} {desk' : Lone.Desk} {st : Store}
    (hrun : Desk.runLinked n acts [[]] .empty = .ok ((replies, [desk]), st))
    (halone : Settles (fun m => Desk.runAlone m acts [[]]) (replies', [desk']))
    (numbers : List Nat) :
    Stands ⟨_, desk, st, .run n acts .start hrun⟩ numbers (Desk.take numbers desk').1 := by
  have hstart : Rests (.empty false) .empty (parts ([[]] : List Twins.Desk) + 0) := .empty
  obtain ⟨hx, -⟩ | ⟨⟨rs, desks⟩, G, st', hx, hY, -, h, -⟩ := Rests.run n acts hstart
  · cases hx.symm.trans hrun
  obtain ⟨hc, rfl⟩ := Prod.mk.inj (Except.ok.inj (hx.symm.trans hrun))
  obtain ⟨-, hleft⟩ := Prod.mk.inj hc
  obtain ⟨-, hright⟩ := Prod.mk.inj (hY.unique halone)
  match desks, hleft, hright with
  | [Vs], hleft, hright =>
    obtain rfl : left Vs = desk := (List.cons.inj hleft).1
    obtain rfl : right Vs = desk' := (List.cons.inj hright).1
    have hrests : Rests G st' (parts Vs) :=
      h.congr (by simp [parts_replies, parts_desks_cons, parts_desks_nil])
    exact hrests.yields_picked_iff numbers
  | [], hleft, _ => cases hleft
  | _ :: _ :: _, hleft, _ => cases hleft

theorem exists_stands (M : Moment) (numbers : List Nat) : ∃ vs, M.Stands numbers vs := by
  obtain ⟨desk, G, hdesk, h, -⟩ := M.rests
  refine ⟨(Desk.take numbers (right desk)).1, fun acts rs => ?_⟩
  rw [picked, ← hdesk]
  exact h.yields_picked_iff numbers acts rs

end Moment

end LazyCalc
