import LazyCalc.Proofs.Ordering.Exact
import LazyCalc.Proofs.Ordering.Rounding
/-!
The order of real numbers of all kinds. Exact numbers are compared as they are, and by the doubles
nearest to them as soon as one of the two is a double.
-/

namespace LazyCalc.Scalar

open Binary64 (place nearest)

/-- The real numbers, NaN apart. -/
inductive IsReal : Scalar → Prop
  | integer (i : Int) : IsReal (.integer i)
  | rational (r : ℚ) : IsReal (.rational r)
  | number {x : Float} (h : x.isNaN = false) : IsReal (.number x)

def spot (a : Scalar) : Int := place (a.toFloat?.getD Binary64.nan)

/-- Two exact numbers are told apart, but both are the same double, which is the third. -/
def Blurred (a b c : Scalar) : Prop :=
  ∃ p q x, a.Exact p ∧ b.Exact q ∧ c = .number x ∧ p < q ∧
    (nearest p == x) = true ∧ (nearest q == x) = true

/-- Being at most equal carries over, and being less as soon as one of the two is less. -/
def Follows (a b c : Scalar) : Prop :=
  ∀ o o', a.order b = .ok o → b.order c = .ok o' → o ≠ .gt → o' ≠ .gt →
    ∃ o'', a.order c = .ok o'' ∧ o'' ≠ .gt ∧ (o = .lt ∨ o' = .lt → o'' = .lt)

def orderReals (a b : Scalar) : Ordering :=
  match a.rat?, b.rat? with
  | some p, some q => compare p q
  | _, _ => compare a.spot b.spot

variable {a b c : Scalar} {p q : ℚ}

theorem spot_exact (h : a.Exact p) : a.spot = place (nearest p) := by
  cases a <;> cases h <;> rfl

theorem spot_mono (ha : a.Exact p) (hb : b.Exact q) (h : p ≤ q) : a.spot ≤ b.spot := by
  rw [spot_exact ha, spot_exact hb]
  exact Binary64.place_nearest_mono h

theorem orderReals_exact (ha : a.Exact p) (hb : b.Exact q) : orderReals a b = compare p q := by
  unfold orderReals
  rw [ha, hb]

theorem orderReals_inexact (h : a.rat? = none ∨ b.rat? = none) :
    orderReals a b = compare a.spot b.spot := by
  unfold orderReals
  rcases h with h | h
  · rw [h]
  · rw [h]
    cases a.rat? <;> rfl

theorem order_eq_orderReals (ha : a.IsReal) (hb : b.IsReal) : a.order b = .ok (orderReals a b) := by
  have hdoubles {x y : Float} (hx : x.isNaN = false) (hy : y.isNaN = false) :
      compareNumbers (.number x) (.number y) = .ok (compare (place x) (place y)) := by
    have hpair : promotePair (.number x) (.number y) = (.number x, .number y) := rfl
    rw [compareNumbers, hpair]
    dsimp only
    rw [Binary64.compareFloats?_eq hx hy]
  have hnearest := Binary64.isNaN_nearest
  cases ha with
  | integer i =>
    cases hb with
    | integer j => exact order_exact rfl rfl
    | rational q => exact order_exact rfl rfl
    | number hy => exact hdoubles (hnearest i) hy
  | rational r =>
    cases hb with
    | integer j => exact order_exact rfl rfl
    | rational q => exact order_exact rfl rfl
    | number hy => exact hdoubles (hnearest r) hy
  | number hx =>
    cases hb with
    | integer j => exact hdoubles hx (hnearest j)
    | rational q => exact hdoubles hx (hnearest q)
    | number hy => exact hdoubles hx hy

theorem orderReals_swap (a b : Scalar) : (orderReals a b).swap = orderReals b a := by
  unfold orderReals
  cases a.rat? <;> cases b.rat? <;> exact Binary64.swap_compare _ _

theorem follows_iff_orderReals (ha : a.IsReal) (hb : b.IsReal) (hc : c.IsReal) :
    Follows a b c ↔ (orderReals a b ≠ .gt → orderReals b c ≠ .gt → orderReals a c ≠ .gt ∧
      (orderReals a b = .lt ∨ orderReals b c = .lt → orderReals a c = .lt)) := by
  unfold Follows
  rw [order_eq_orderReals ha hb, order_eq_orderReals hb hc, order_eq_orderReals ha hc]
  constructor
  · intro h hab hbc
    obtain ⟨o, ho, h⟩ := h _ _ rfl rfl hab hbc
    rwa [Except.ok.inj ho]
  · rintro h o o' ⟨⟩ ⟨⟩ hab hbc
    exact ⟨_, rfl, h hab hbc⟩

theorem blurred_iff (hc : c.IsReal) :
    Blurred a b c ↔ c.rat? = none ∧ (∃ p q, a.Exact p ∧ b.Exact q ∧ p < q) ∧
      a.spot = c.spot ∧ b.spot = c.spot := by
  constructor
  · rintro ⟨p, q, x, ha, hb, rfl, hlt, hp, hq⟩
    cases hc with
    | number hx =>
      rw [Binary64.beq_iff_place_eq (Binary64.isNaN_nearest _) hx] at hp hq
      exact ⟨rfl, ⟨p, q, ha, hb, hlt⟩, (spot_exact ha).trans hp, (spot_exact hb).trans hq⟩
  · rintro ⟨hnone, ⟨p, q, ha, hb, hlt⟩, hp, hq⟩
    cases hc with
    | integer | rational => cases hnone
    | number hx =>
      refine ⟨p, q, _, ha, hb, rfl, hlt, ?_, ?_⟩
      · rw [Binary64.beq_iff_place_eq (Binary64.isNaN_nearest _) hx, ← spot_exact ha]
        exact hp
      · rw [Binary64.beq_iff_place_eq (Binary64.isNaN_nearest _) hx, ← spot_exact hb]
        exact hq

theorem inexact_or_exact (a b : Scalar) :
    (a.rat? = none ∨ b.rat? = none) ∨ ∃ p q, a.Exact p ∧ b.Exact q := by
  cases ha : a.rat? with
  | none => exact .inl (.inl rfl)
  | some p =>
    cases hb : b.rat? with
    | none => exact .inl (.inr rfl)
    | some q => exact .inr ⟨p, q, ha, hb⟩

theorem spot_le (h : orderReals a b ≠ .gt) : a.spot ≤ b.spot := by
  rcases inexact_or_exact a b with hnone | ⟨p, q, ha, hb⟩
  · rw [orderReals_inexact hnone] at h
    exact compare_le_iff_le.mp h
  · rw [orderReals_exact ha hb] at h
    exact spot_mono ha hb (compare_le_iff_le.mp h)

theorem exact_of_lt (h : orderReals a b = .lt) (hspot : a.spot = b.spot) :
    ∃ p q, a.Exact p ∧ b.Exact q ∧ p < q := by
  rcases inexact_or_exact a b with hnone | ⟨p, q, ha, hb⟩
  · rw [orderReals_inexact hnone] at h
    exact absurd hspot (compare_lt_iff_lt.mp h).ne
  · rw [orderReals_exact ha hb] at h
    exact ⟨p, q, ha, hb, compare_lt_iff_lt.mp h⟩

section

variable (ha : a.IsReal) (hb : b.IsReal) (hc : c.IsReal)

include ha hb hc

theorem follows_of_not_blurred (habc : ¬ Blurred a b c) (hbca : ¬ Blurred b c a)
    (hcab : ¬ Blurred c a b) : Follows a b c := by
  rw [follows_iff_orderReals ha hb hc]
  intro hab hbc
  have hle := spot_le hab
  have hle' := spot_le hbc
  -- an order of exact numbers may be lost among the doubles, which is where something is blurred
  rcases inexact_or_exact a c with hnone | ⟨p, r, hp, hr⟩
  · rw [orderReals_inexact hnone, compare_le_iff_le, compare_lt_iff_lt]
    refine ⟨hle.trans hle', fun hlt => lt_of_le_of_ne (hle.trans hle') fun heq => ?_⟩
    rcases hlt with hlt | hlt
    · obtain ⟨p, q, hp, hq, hpq⟩ := exact_of_lt hlt (by omega)
      have hc' : c.rat? = none := hnone.resolve_left fun h => nomatch h.symm.trans hp
      exact habc ((blurred_iff hc).mpr ⟨hc', ⟨p, q, hp, hq, hpq⟩, heq, by omega⟩)
    · obtain ⟨q, r, hq, hr, hqr⟩ := exact_of_lt hlt (by omega)
      have ha' : a.rat? = none := hnone.resolve_right fun h => nomatch h.symm.trans hr
      exact hbca ((blurred_iff ha).mpr ⟨ha', ⟨q, r, hq, hr, hqr⟩, by omega, heq.symm⟩)
  · rw [orderReals_exact hp hr, compare_le_iff_le, compare_lt_iff_lt]
    cases hb' : b.rat? with
    | some q =>
      rw [orderReals_exact hp hb'] at hab ⊢
      rw [orderReals_exact hb' hr] at hbc ⊢
      rw [compare_le_iff_le] at hab hbc
      rw [compare_lt_iff_lt, compare_lt_iff_lt]
      exact ⟨hab.trans hbc, fun h => h.elim (·.trans_le hbc) hab.trans_lt⟩
    | none =>
      constructor
      · by_contra hlt
        have hback := spot_mono hr hp (not_le.mp hlt).le
        exact hcab ((blurred_iff hb).mpr ⟨hb', ⟨r, p, hr, hp, not_le.mp hlt⟩, by omega, by omega⟩)
      · rw [orderReals_inexact (.inr hb'), orderReals_inexact (.inl hb'), compare_lt_iff_lt,
          compare_lt_iff_lt]
        intro hlt
        by_contra hge
        have hback := spot_mono hr hp (not_lt.mp hge)
        omega

theorem not_blurred_of_follows (h : Follows a b c) :
    ¬ Blurred a b c ∧ ¬ Blurred b c a ∧ ¬ Blurred c a b := by
  rw [follows_iff_orderReals ha hb hc] at h
  refine ⟨fun hblurred => ?_, fun hblurred => ?_, fun hblurred => ?_⟩
  · obtain ⟨hnone, ⟨p, q, hp, hq, hlt⟩, hac, hbc⟩ := (blurred_iff hc).mp hblurred
    rw [orderReals_exact hp hq, orderReals_inexact (.inr hnone), orderReals_inexact (.inr hnone),
      compare_lt_iff_lt.mpr hlt, compare_eq_iff_eq.mpr hac, compare_eq_iff_eq.mpr hbc] at h
    exact nomatch (h nofun nofun).2 (.inl rfl)
  · obtain ⟨hnone, ⟨q, r, hq, hr, hlt⟩, hba, hca⟩ := (blurred_iff ha).mp hblurred
    rw [orderReals_exact hq hr, orderReals_inexact (.inl hnone), orderReals_inexact (.inl hnone),
      compare_lt_iff_lt.mpr hlt, compare_eq_iff_eq.mpr hba.symm,
      compare_eq_iff_eq.mpr hca.symm] at h
    exact nomatch (h nofun nofun).2 (.inr rfl)
  · obtain ⟨hnone, ⟨r, p, hr, hp, hlt⟩, hcb, hab⟩ := (blurred_iff hb).mp hblurred
    rw [orderReals_exact hp hr, orderReals_inexact (.inr hnone), orderReals_inexact (.inl hnone),
      compare_gt_iff_gt.mpr hlt, compare_eq_iff_eq.mpr hab, compare_eq_iff_eq.mpr hcb.symm] at h
    exact (h nofun nofun).1 rfl

/-- Real numbers of all kinds can be ordered, and turned round the order is the reverse. It carries
over from one number to the next, unless a double is among the three that the two others, exact
numbers told apart, are both rounded to. -/
theorem order_reals :
    (∃ o, a.order b = .ok o ∧ b.order a = .ok o.swap) ∧
      (Follows a b c ↔ ¬ Blurred a b c ∧ ¬ Blurred b c a ∧ ¬ Blurred c a b) := by
  constructor
  · rw [order_eq_orderReals ha hb, order_eq_orderReals hb ha, ← orderReals_swap a b]
    exact ⟨_, rfl, rfl⟩
  · exact ⟨not_blurred_of_follows ha hb hc,
      fun h => follows_of_not_blurred ha hb hc h.1 h.2.1 h.2.2⟩

end

theorem order_reals_mixed :
    IsReal (.integer 3) ∧ IsReal (.rational (7 / 2)) ∧
      IsReal (.number (Float.ofBits 0x4010000000000000)) ∧
      Follows (.integer 3) (.rational (7 / 2)) (.number (Float.ofBits 0x4010000000000000)) := by
  have ha : IsReal (.integer 3) := .integer 3
  have hb : IsReal (.rational (7 / 2)) := .rational (7 / 2)
  have hc : IsReal (.number (Float.ofBits 0x4010000000000000)) := .number rfl
  refine ⟨ha, hb, hc, (order_reals ha hb hc).2.mpr ⟨?_, ?_, ?_⟩⟩
  · rintro ⟨p, q, x, hp, -, hx, -, hdouble, -⟩
    cases hp
    cases hx
    exact absurd hdouble (by decide)
  · rintro ⟨p, q, x, -, hq, -⟩
    cases hq
  · rintro ⟨p, q, x, hp, -⟩
    cases hp

/-- Two integers whose nearest double is the smaller of them. -/
theorem order_reals_blurred :
    ¬ Follows (.integer (2 ^ 53)) (.integer (2 ^ 53 + 1))
      (.number (Float.ofBits 0x4340000000000000)) := by
  intro h
  have hless : order (.integer (2 ^ 53)) (.integer (2 ^ 53 + 1)) = .ok .lt := rfl
  have heven : order (.integer (2 ^ 53 + 1)) (.number (Float.ofBits 0x4340000000000000)) =
      .ok .eq := rfl
  have heven' : order (.integer (2 ^ 53)) (.number (Float.ofBits 0x4340000000000000)) =
      .ok .eq := rfl
  obtain ⟨o, ho, -, hstrict⟩ := h _ _ hless heven nofun nofun
  obtain rfl := Except.ok.inj (heven'.symm.trans ho)
  exact nomatch hstrict (.inl rfl)

end LazyCalc.Scalar
