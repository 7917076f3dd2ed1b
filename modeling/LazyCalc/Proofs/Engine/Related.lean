import LazyCalc.Tree
namespace LazyCalc

namespace Tree

variable {σ τ : Type}

mutual

def Rel (R : σ → τ → Prop) : Tree σ → Tree τ → Prop
  | .scalar x, .scalar y => x = y
  | .list ts, .list us => RelList R ts us
  | .sequence s, .sequence t => R s t
  | _, _ => False

def RelList (R : σ → τ → Prop) : List (Tree σ) → List (Tree τ) → Prop
  | [], [] => True
  | t :: ts, u :: us => Rel R t u ∧ RelList R ts us
  | _, _ => False

end

mutual

theorem Rel.mono {R R' : σ → τ → Prop} (hR : ∀ s t, R s t → R' s t) {t : Tree σ} {u : Tree τ}
    (h : Rel R t u) : Rel R' t u := by
  cases t with
  | scalar x => cases u <;> exact h
  | list ts =>
    cases u with
    | list us => exact RelList.mono hR h
    | scalar y => exact h
    | sequence s => exact h
  | sequence s =>
    cases u with
    | sequence s' => exact hR s s' h
    | scalar y => exact h
    | list us => exact h

theorem RelList.mono {R R' : σ → τ → Prop} (hR : ∀ s t, R s t → R' s t) {ts : List (Tree σ)}
    {us : List (Tree τ)} (h : RelList R ts us) : RelList R' ts us := by
  cases ts with
  | nil => cases us <;> exact h
  | cons t ts =>
    cases us with
    | nil => exact h
    | cons u us => exact ⟨Rel.mono hR h.1, RelList.mono hR h.2⟩

end

theorem RelList.length_eq {R : σ → τ → Prop} {ts : List (Tree σ)} {us : List (Tree τ)}
    (h : RelList R ts us) : ts.length = us.length := by
  induction ts generalizing us with
  | nil =>
    cases us with
    | nil => rfl
    | cons u us => exact h.elim
  | cons t ts ih =>
    cases us with
    | nil => exact h.elim
    | cons u us => exact congrArg (· + 1) (ih h.2)

mutual

theorem Rel.trans {R : σ → σ → Prop} (hR : ∀ s t u, R s t → R t u → R s u) {t u v : Tree σ}
    (h : Rel R t u) (h' : Rel R u v) : Rel R t v := by
  cases t <;> cases u <;> simp only [Rel] at h <;> cases v <;> simp only [Rel] at h' ⊢
  case scalar.scalar.scalar => exact h.trans h'
  case list.list.list => exact RelList.trans hR h h'
  case sequence.sequence.sequence => exact hR _ _ _ h h'

theorem RelList.trans {R : σ → σ → Prop} (hR : ∀ s t u, R s t → R t u → R s u)
    {ts us vs : List (Tree σ)} (h : RelList R ts us) (h' : RelList R us vs) : RelList R ts vs := by
  cases ts <;> cases us <;> simp only [RelList] at h <;> cases vs <;> simp only [RelList] at h' ⊢
  case cons.cons.cons => exact ⟨Rel.trans hR h.1 h'.1, RelList.trans hR h.2 h'.2⟩

end

mutual

theorem rel_refl {R : σ → σ → Prop} (hR : ∀ s, R s s) (t : Tree σ) : Rel R t t := by
  cases t with
  | scalar x => rfl
  | list ts => exact relList_refl hR ts
  | sequence s => exact hR s

theorem relList_refl {R : σ → σ → Prop} (hR : ∀ s, R s s) (ts : List (Tree σ)) :
    RelList R ts ts := by
  cases ts with
  | nil => trivial
  | cons t ts => exact ⟨rel_refl hR t, relList_refl hR ts⟩

end

end Tree

end LazyCalc
