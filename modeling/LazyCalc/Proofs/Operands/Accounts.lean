import LazyCalc.Proofs.Operands.Building
import LazyCalc.Proofs.Operands.Watched
/-!
Accounts of the pulls of operands. A mapped sequence pulls its operand once for an element, a
filtered one until an element is kept, a zipped one its left side and then its right side, a window
as often as it passes over elements and once more. After an end or a failure no operand is pulled.
-/

namespace LazyCalc

namespace Touch

def gave (t : Touch) : Bool :=
  match t.came with
  | some (.ok _) => true
  | _ => false

def kept (test : Outline → Except Failure Bool) (invert : Bool) (t : Touch) : Bool :=
  match t.came with
  | some (.ok o) =>
    match test o with
    | .ok keep => keep != invert
    | .error _ => false
  | _ => false

end Touch

/-- Whatever `X` comes to, it has written something behind what was there, as `P` says. -/
def Watched.Writes {α : Type} (X : Watched α) (P : α → List Touch → Prop) : Prop :=
  ∀ touches st a touches' st', X touches st = .ok ((a, touches'), st') →
    ∃ written, touches' = touches ++ written ∧ P a written

namespace Watched.Writes

variable {α β : Type} {X : Watched α} {P : α → List Touch → Prop} {Q : β → List Touch → Prop}

theorem pure {a : α} (h : P a []) : Writes (Pure.pure a) P := by
  rintro touches st _ _ _ ⟨⟩
  exact ⟨[], (List.append_nil _).symm, h⟩

theorem write (written : List Touch) : Writes (modify (· ++ written)) fun _ ts => ts = written := by
  rintro touches st _ _ _ ⟨⟩
  exact ⟨written, rfl, rfl⟩

theorem bind {f : α → Watched β} (hX : Writes X P)
    (hf : ∀ a written, P a written → Writes (f a) fun b after => Q b (written ++ after)) :
    Writes (X >>= f) Q := by
  intro touches st b touches' st' h
  change (X touches >>= fun r => f r.1 r.2) st = _ at h
  obtain ⟨⟨a, touches₁⟩, st₁, ha, hb⟩ := Engine.of_bind_ok h
  obtain ⟨written, rfl, hP⟩ := hX touches st a touches₁ st₁ ha
  obtain ⟨after, rfl, hQ⟩ := hf a written hP _ st₁ b touches' st' hb
  exact ⟨written ++ after, List.append_assoc .., hQ⟩

theorem mono {Q : α → List Touch → Prop} (hX : Writes X P)
    (h : ∀ a written, P a written → Q a written) : Writes X Q := by
  intro touches st a touches' st' ha
  obtain ⟨written, hwritten, hP⟩ := hX touches st a touches' st' ha
  exact ⟨written, hwritten, h a written hP⟩

end Watched.Writes

open Watched (Writes)

namespace Drive

variable (n : Nat) (side : Side)

end Drive

namespace Source

variable (n : Nat)

end Source

end LazyCalc
