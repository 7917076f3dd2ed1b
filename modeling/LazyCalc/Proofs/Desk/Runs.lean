import LazyCalc.Proofs.Desk.Coupled
import LazyCalc.Proofs.Sharing.Contents
namespace LazyCalc

open Readers (at?)

section

variable {γ α β : Type} [Paired γ α β]

instance : Paired (List (List (Option (Tree γ)))) (List (List (Option (Tree α))))
    (List (List (Option (Tree β)))) :=
  ⟨List.map left, List.map right⟩

instance {σ κ : Type} : Parted σ κ (List (List (Option (Tree σ)))) :=
  ⟨fun desks => (desks.map parts).sum⟩

instance : Paired (List (Nat × Showing)) (List (Nat × Showing)) (List (Nat × Showing)) := ⟨id, id⟩

instance {σ κ : Type} : Parted σ κ (List (Nat × Showing)) := ⟨fun _ => 0⟩

theorem parts_reply {σ κ : Type} (reply : Showing) : (parts reply : Parts σ κ) = 0 := rfl

theorem parts_replies {σ κ : Type} (replies : List (Nat × Showing)) :
    (parts replies : Parts σ κ) = 0 := rfl

theorem parts_desks_cons {σ κ : Type} (desk : List (Option (Tree σ)))
    (desks : List (List (Option (Tree σ)))) :
    (parts (desk :: desks) : Parts σ κ) = parts desk + parts desks := List.sum_cons

theorem parts_desks_nil {σ κ : Type} :
    (parts ([] : List (List (Option (Tree σ)))) : Parts σ κ) = 0 := rfl

theorem parts_desk_singleton {σ κ : Type} (t : Tree σ) :
    (parts [some t] : Parts σ κ) = parts t := add_zero _

theorem parts_desks_set {σ κ : Type} {desks : List (List (Option (Tree σ)))} {k : Nat}
    {desk : List (Option (Tree σ))} (h : desks[k]? = some desk) (desk' : List (Option (Tree σ))) :
    (parts (desks.set k desk') + parts desk : Parts σ κ) = parts desks + parts desk' :=
  sum_map_set parts desks h

end

namespace Coupling

variable {m₁ m₂ : Type → Type} [Monad m₁] [Monad m₂] {ρ₁ κ₁ ρ₂ κ₂ σ κ : Type}
  [Paired σ (Sequence ρ₁ κ₁) (Sequence ρ₂ κ₂)] [Paired κ κ₁ κ₂]
  (C : Coupling m₁ m₂ ρ₁ κ₁ ρ₂ κ₂ σ κ)

theorem act (a : Act) (desk : List (Option (Tree σ))) :
    C.Triple (Showing × List (Option (Tree σ))) (parts desk)
      (fun n => Desk.act (C.first n) (fun s _ => s) a (left desk))
      (fun n => Desk.act (C.second n) (fun s _ => s) a (right desk)) 0 := by
  cases a with
  | use tool numbers => exact C.use (fun s _ => s) (fun s _ => s) tool numbers desk
  | onClose number label =>
    have hl : at? (left desk) number = (at? desk number).map left := Desk.at?_map left desk number
    have hr : at? (right desk) number = (at? desk number).map right :=
      Desk.at?_map right desk number
    simp only [Desk.act, hl, hr]
    cases hv : at? desk number with
    | none => exact C.pure (([], desk) : Showing × List (Option (Tree σ))) (by simp [parts_reply])
    | some v =>
      refine C.of_eq (C.wrapped (A := parts (desk.set number none)) v fun s hsl hsr => ?_)
        (parts_desk_at hv) rfl
      refine C.hinted (A := parts (desk.set number none)) s fun hs => ?_
      -- the desk with the sequence in the place of the value
      set marked : List (Option (Tree σ)) := desk.set number (some (.sequence s))
      have hleft : (left desk).set number (some (.sequence (Sequence.wrap (left v)))) =
          left marked := by
        rw [← hsl]
        exact (left_desk_set desk number (.sequence s)).symm
      have hright : (right desk).set number (some (.sequence (Sequence.wrap (right v)))) =
          right marked := by
        rw [← hsr]
        exact (right_desk_set desk number (.sequence s)).symm
      simp only [Option.map_some, hleft, hright]
      rw [← hsl, ← hsr, hs]
      refine C.pure (([.ok (.sequence (right s).hint)], marked) :
        Showing × List (Option (Tree σ))) ?_
      rw [parts_pair, parts_reply, parts_desk_replace hv, zero_add, add_zero]
      rfl

theorem actAt (k : Nat) (a : Act) (desks : List (List (Option (Tree σ)))) :
    C.Triple (Showing × List (List (Option (Tree σ)))) (parts desks)
      (fun n => Desk.actAt (C.first n) (fun s _ => s) k a (left desks))
      (fun n => Desk.actAt (C.second n) (fun s _ => s) k a (right desks)) 0 := by
  have hl : (left desks)[k]? = desks[k]?.map left := List.getElem?_map
  have hr : (right desks)[k]? = desks[k]?.map right := List.getElem?_map
  simp only [Desk.actAt, hl, hr]
  cases hdesk : desks[k]? with
  | none => exact C.pure (([], desks) : Showing × List (List (Option (Tree σ)))) (by simp [parts_reply])
  | some desk =>
    have hset := parts_desks_set (σ := σ) (κ := κ) hdesk
    have hothers := hset []
    rw [show (parts ([] : List (Option (Tree σ))) : Parts σ κ) = 0 from rfl, add_zero] at hothers
    refine C.bind (parts (desks.set k [])) (C.act a desk) (by rw [← hothers, add_comm]) ?_
    rintro ⟨reply, desk'⟩
    have hleft : (left desks).set k (left desk') = left (desks.set k desk') := List.map_set.symm
    have hright : (right desks).set k (right desk') = right (desks.set k desk') :=
      List.map_set.symm
    have hdesks := hset desk'
    rw [← hothers, add_right_comm] at hdesks
    have hsame := C.pure (A := parts (reply, desk') + (0 + parts (desks.set k []))) (B := 0)
      ((reply, desks.set k desk') : Showing × List (List (Option (Tree σ)))) (by
        rw [parts_pair, parts_reply, parts_pair, parts_reply, add_right_cancel hdesks]
        abel)
    simp only [left, right] at hleft hright hsame ⊢
    rw [hleft, hright]
    exact hsame

theorem runDesks (acts : List (Nat × Act)) (desks : List (List (Option (Tree σ)))) :
    C.Triple (List (Nat × Showing) × List (List (Option (Tree σ)))) (parts desks)
      (fun n => Desk.run (C.first n) (fun s _ => s) acts (left desks))
      (fun n => Desk.run (C.second n) (fun s _ => s) acts (right desks)) 0 := by
  induction acts generalizing desks with
  | nil =>
    refine C.pure (([], desks) : List (Nat × Showing) × List (List (Option (Tree σ)))) ?_
    rw [parts_pair, parts_replies, zero_add, add_zero]
  | cons a acts ih =>
    obtain ⟨k, a⟩ := a
    refine C.bind 0 (C.actAt k a desks) (add_zero _).symm ?_
    rintro ⟨reply, desks₁⟩
    refine C.bind 0 (ih desks₁) (by simp [parts_reply]) ?_
    rintro ⟨replies, desks₂⟩
    exact C.pure (((k, reply) :: replies, desks₂) :
      List (Nat × Showing) × List (List (Option (Tree σ)))) (by simp [parts_replies])

end Coupling

end LazyCalc
