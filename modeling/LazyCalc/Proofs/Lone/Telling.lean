import LazyCalc.Proofs.Lone.Basic
/-!
Lone sequences that tell: what is noted in a calculation is written down in order. Two calculations
are alike when each comes to something if the other one does, to what a relation says, and both have
told the same.
-/

namespace LazyCalc

open Filter

abbrev Told := StateT (List String) Option

def Drive.telling (fuel : Nat)
    (pull : Lone.Sequence → Told (Option Lone.Item × Lone.Sequence)) : Drive Told Empty Snapshot :=
  .unshared (fun _ => none) (fun texts => modify (· ++ texts)) fuel pull

def Sequence.pullTelling : (fuel : Nat) → Lone.Sequence → Told (Option Lone.Item × Lone.Sequence)
  | 0, _ => fun _ => none
  | fuel + 1, s => s.step (Drive.telling fuel (pullTelling fuel)) Empty.elim

def Drive.told (fuel : Nat) : Drive Told Empty Snapshot :=
  .telling fuel (Sequence.pullTelling fuel)

section

variable {α β γ δ : Type} {n : Nat} {X X' : Nat → Told α} {Y Y' : Nat → Told β}
  {f : Nat → α → Told γ} {g : Nat → β → Told δ} {P : α → β → Prop} {Q : γ → δ → Prop}

/-- With enough fuel it is `a` that comes out, and `texts` are told on the way. -/
def Tells (X : Nat → Told α) (a : α) (texts : List String) : Prop :=
  ∀ᶠ n in atTop, ∀ told, X n told = some (a, told ++ texts)

namespace Tells

variable {a : α} {b : γ} {texts texts' : List String}

theorem pure (a : α) : Tells (fun _ => Pure.pure a) a [] :=
  .of_forall fun _ told => by rw [List.append_nil]; rfl

theorem bind (hX : Tells X a texts) (hf : Tells (fun n => f n a) b texts') :
    Tells (fun n => X n >>= f n) b (texts ++ texts') := by
  filter_upwards [hX, hf] with n hn hfn told
  rw [← List.append_assoc, ← hfn]
  change (X n told).bind _ = _
  rw [hn]
  rfl

theorem congr (h : Tells X a texts) (he : ∀ᶠ n in atTop, X n = X' n) : Tells X' a texts := by
  filter_upwards [h, he] with n hn hen
  rwa [← hen]

theorem succ (h : Tells (fun n => X (n + 1)) a texts) : Tells X a texts := by
  have hshift := (tendsto_sub_atTop_nat 1).eventually h
  filter_upwards [hshift, eventually_ge_atTop 1] with n hn hle
  rwa [Nat.sub_add_cancel hle] at hn

theorem unique {a' : α} (h : Tells X a texts) (h' : Tells X a' texts') : a = a' ∧ texts = texts' := by
  obtain ⟨n, hn, hn'⟩ := (Eventually.and h h').exists
  exact Prod.mk.inj (Option.some.inj ((hn []).symm.trans (hn' [])))

end Tells

/-- If the one gives something with fuel `n`, the other gives with enough fuel what `P` says, and
tells the same. -/
def Told.Leads (n : Nat) (X : Nat → Told α) (Y : Nat → Told β) (P : α → β → Prop) : Prop :=
  ∀ told a told', X n told = some (a, told') →
    ∃ b texts, told' = told ++ texts ∧ Tells Y b texts ∧ P a b

namespace Told.Leads

theorem pure {a : α} {b : β} (h : P a b) :
    Leads n (fun _ => Pure.pure a) (fun _ => Pure.pure b) P := by
  rintro told a told' ⟨⟩
  exact ⟨b, [], (List.append_nil told).symm, .pure b, h⟩

theorem bind (hX : Leads n X Y P)
    (hf : ∀ a b, P a b → Leads n (fun n => f n a) (fun n => g n b) Q) :
    Leads n (fun n => X n >>= f n) (fun n => Y n >>= g n) Q := by
  intro told c told' hc
  obtain ⟨⟨a, told₁⟩, hx, hc⟩ := Option.bind_eq_some_iff.mp hc
  obtain ⟨b, texts, rfl, hY, hP⟩ := hX told a told₁ hx
  obtain ⟨d, texts', rfl, hg, hQ⟩ := hf a b hP _ c told' hc
  exact ⟨d, texts ++ texts', List.append_assoc .., hY.bind hg, hQ⟩

theorem congr (h : Leads n X Y P) (hX : X n = X' n) (hY : ∀ᶠ m in atTop, Y m = Y' m) :
    Leads n X' Y' P := by
  intro told a told' ha
  obtain ⟨b, texts, htold, hb, hP⟩ := h told a told' (hX ▸ ha)
  exact ⟨b, texts, htold, hb.congr hY, hP⟩

theorem mono {P' : α → β → Prop} (h : Leads n X Y P) (hP : ∀ a b, P a b → P' a b) :
    Leads n X Y P' := fun told a told' ha =>
  let ⟨b, texts, htold, hb, hab⟩ := h told a told' ha
  ⟨b, texts, htold, hb, hP a b hab⟩

theorem succ (h : Leads n X Y P) (hX : ∀ m, X' (m + 1) = X m) (hY : ∀ m, Y' (m + 1) = Y m) :
    Leads (n + 1) X' Y' P := by
  intro told a told' ha
  obtain ⟨b, texts, htold, hb, hP⟩ := h told a told' (hX n ▸ ha)
  refine ⟨b, texts, htold, Tells.succ ?_, hP⟩
  simp only [hY]
  exact hb

end Told.Leads

/-- Each leads to the other. -/
structure Told.Abreast (n : Nat) (X : Nat → Told α) (Y : Nat → Told β) (P : α → β → Prop) : Prop where
  forth : Leads n X Y P
  back : Leads n Y X fun b a => P a b

namespace Told.Abreast

theorem pure {a : α} {b : β} (h : P a b) :
    Abreast n (fun _ => Pure.pure a) (fun _ => Pure.pure b) P :=
  ⟨.pure h, .pure h⟩

theorem bind (hX : Abreast n X Y P)
    (hf : ∀ a b, P a b → Abreast n (fun n => f n a) (fun n => g n b) Q) :
    Abreast n (fun n => X n >>= f n) (fun n => Y n >>= g n) Q :=
  ⟨hX.forth.bind fun a b h => (hf a b h).forth, hX.back.bind fun b a h => (hf a b h).back⟩

theorem congr (h : Abreast n X Y P) (he : ∀ᶠ m in atTop, X m = X' m ∧ Y m = Y' m)
    (hX : X n = X' n) (hY : Y n = Y' n) : Abreast n X' Y' P :=
  ⟨h.forth.congr hX (he.mono fun _ he => he.2), h.back.congr hY (he.mono fun _ he => he.1)⟩

theorem mono {P' : α → β → Prop} (h : Abreast n X Y P) (hP : ∀ a b, P a b → P' a b) :
    Abreast n X Y P' :=
  ⟨h.forth.mono hP, h.back.mono fun b a => hP a b⟩

theorem succ (h : Abreast n X Y P) (hX : ∀ m, X' (m + 1) = X m) (hY : ∀ m, Y' (m + 1) = Y m) :
    Abreast (n + 1) X' Y' P :=
  ⟨h.forth.succ hX hY, h.back.succ hY hX⟩

theorem stuck (hX : X n = fun _ => none) (hY : Y n = fun _ => none) : Abreast n X Y P := by
  refine ⟨fun told a told' ha => ?_, fun told b told' hb => ?_⟩
  · rw [hX] at ha
    cases ha
  · rw [hY] at hb
    cases hb

end Told.Abreast

/-- Each comes to something if the other one does, and then both have told the same. -/
structure TellAlike (X : Nat → Told α) (Y : Nat → Told β) (P : α → β → Prop) : Prop where
  forth : ∀ a texts, Tells X a texts → ∃ b, Tells Y b texts ∧ P a b
  back : ∀ b texts, Tells Y b texts → ∃ a, Tells X a texts ∧ P a b

namespace TellAlike

theorem mono {P' : α → β → Prop} (h : TellAlike X Y P) (hP : ∀ a b, P a b → P' a b) :
    TellAlike X Y P' where
  forth a texts ha :=
    let ⟨b, hb, hab⟩ := h.forth a texts ha
    ⟨b, hb, hP a b hab⟩
  back b texts hb :=
    let ⟨a, ha, hab⟩ := h.back b texts hb
    ⟨a, ha, hP a b hab⟩

theorem of_abreast (h : ∀ n, Told.Abreast n X Y P) : TellAlike X Y P where
  forth a texts ha := by
    obtain ⟨n, hn⟩ := ha.exists
    obtain ⟨b, texts', htold, hb, hP⟩ := (h n).forth [] a _ (hn [])
    obtain rfl : texts = texts' := htold
    exact ⟨b, hb, hP⟩
  back b texts hb := by
    obtain ⟨n, hn⟩ := hb.exists
    obtain ⟨a, texts', htold, ha, hP⟩ := (h n).back [] b _ (hn [])
    obtain rfl : texts = texts' := htold
    exact ⟨a, ha, hP⟩

theorem abreast (h : TellAlike X Y P) (hX : ∀ n, Told.Leads n X X Eq)
    (hY : ∀ n, Told.Leads n Y Y Eq) (n : Nat) : Told.Abreast n X Y P := by
  constructor
  · intro told a told' ha
    obtain ⟨_, texts, rfl, ha, rfl⟩ := hX n told a told' ha
    obtain ⟨b, hb, hP⟩ := h.forth a texts ha
    exact ⟨b, texts, rfl, hb, hP⟩
  · intro told b told' hb
    obtain ⟨_, texts, rfl, hb, rfl⟩ := hY n told b told' hb
    obtain ⟨a, ha, hP⟩ := h.back b texts hb
    exact ⟨a, texts, rfl, ha, hP⟩

theorem of_tells {a : α} {b : β} {texts : List String} (hX : Tells X a texts) (hY : Tells Y b texts)
    (h : P a b) : TellAlike X Y P where
  forth a' texts' ha := by
    obtain ⟨rfl, rfl⟩ := ha.unique hX
    exact ⟨b, hY, h⟩
  back b' texts' hb := by
    obtain ⟨rfl, rfl⟩ := hb.unique hY
    exact ⟨a, hX, h⟩

end TellAlike

end

end LazyCalc
