import LazyCalc.Proofs.Counts.Tuples
import LazyCalc.Proofs.Listing.Giving
namespace LazyCalc

namespace Odometer

variable {length : Nat} {lengths is js : List Nat}

theorem after_lt (h : Within lengths is) : after lengths is < lengths.prod := by
  induction h with
  | nil => exact Nat.one_pos
  | @cons length i lengths is hi h ih =>
    rw [after, List.prod_cons]
    calc (length - 1 - i) * lengths.prod + after lengths is
      _ < (length - 1 - i + 1) * lengths.prod := by rw [Nat.succ_mul]; omega
      _ ≤ length * lengths.prod := Nat.mul_le_mul_right _ (by omega)

theorem after_cons_lt {i j : Nat} (hij : i < j) (hj : j < length) (h : Within lengths js) :
    after (length :: lengths) (j :: js) < after (length :: lengths) (i :: is) := by
  have hlt := after_lt h
  rw [after, after]
  calc (length - 1 - j) * lengths.prod + after lengths js
    _ < (length - 1 - j + 1) * lengths.prod := by rw [Nat.succ_mul]; omega
    _ ≤ (length - 1 - i) * lengths.prod := Nat.mul_le_mul_right _ (by omega)
    _ ≤ (length - 1 - i) * lengths.prod + after lengths is := Nat.le_add_right _ _

theorem trichotomy (h : Within lengths is) (h' : Within lengths js) :
    after lengths js < after lengths is ∧ is < js ∨ after lengths is = after lengths js ∧ is = js ∨
      after lengths is < after lengths js ∧ js < is := by
  induction h generalizing js with
  | nil =>
    cases h'
    exact .inr (.inl ⟨rfl, rfl⟩)
  | @cons length i lengths is hi h ih =>
    cases h' with
    | @cons _ j _ js hj h' =>
      rcases Nat.lt_trichotomy i j with hij | rfl | hji
      · exact .inl ⟨after_cons_lt hij hj h', List.cons_lt_cons_iff.mpr (.inl hij)⟩
      · rw [after, after, List.cons_lt_cons_iff, List.cons_lt_cons_iff]
        rcases ih h' with ⟨hlt, his⟩ | ⟨heq, rfl⟩ | ⟨hgt, hjs⟩
        · exact .inl ⟨Nat.add_lt_add_left hlt _, .inr ⟨rfl, his⟩⟩
        · exact .inr (.inl ⟨rfl, rfl⟩)
        · exact .inr (.inr ⟨Nat.add_lt_add_left hgt _, .inr ⟨rfl, hjs⟩⟩)
      · exact .inr (.inr ⟨after_cons_lt hji hi h, List.cons_lt_cons_iff.mpr (.inl hji)⟩)

theorem exists_next {o : Odometer} {r : Nat} (h : o.Valid) (hleft : o.left = r + 1) :
    ∃ is o', o.next = (some is, o') ∧ (Within o.lengths is ∧ after o.lengths is = r) ∧
      o'.lengths = o.lengths ∧ o'.Valid ∧ o'.left = r := by
  obtain ⟨lengths, upcoming⟩ := o
  cases upcoming with
  | none => cases hleft
  | some is =>
    have hnext := left_next h
    dsimp only [next] at hnext
    rw [hleft] at hnext
    exact ⟨is, _, rfl, ⟨h is rfl, Nat.succ.inj hleft⟩, rfl, hnext.1, Nat.succ.inj hnext.2⟩

theorem next_of_left_eq_zero {o : Odometer} (h : o.left = 0) : o.next = (none, o) := by
  obtain ⟨lengths, upcoming⟩ := o
  cases upcoming with
  | none => rfl
  | some is => cases h

theorem exists_tuples (lengths : List Nat) :
    ∃ tuples, Lists next (ofLengths lengths) tuples ∧ tuples.length = lengths.prod ∧
      tuples.Pairwise (· < ·) ∧ ∀ is, is ∈ tuples ↔ Within lengths is := by
  let State (r : Nat) (o : Odometer) : Prop := o.lengths = lengths ∧ o.Valid ∧ o.left = r
  let FromEnd (r : Nat) (is : List Nat) : Prop := Within lengths is ∧ after lengths is = r
  have hend (o : Odometer) (h : State 0 o) : o.next = (none, o) := next_of_left_eq_zero h.2.2
  have hstep (r : Nat) (o : Odometer) (h : State (r + 1) o) :
      ∃ is o', o.next = (some is, o') ∧ FromEnd r is ∧ State r o' := by
    rcases h with ⟨rfl, hvalid, hleft⟩
    exact exists_next hvalid hleft
  have horder (r r' : Nat) (is js : List Nat) (h : FromEnd r is) (h' : FromEnd r' js) :
      r' < r ∧ is < js ∨ r = r' ∧ is = js ∨ r < r' ∧ js < is := by
    rcases h with ⟨h, rfl⟩
    rcases h' with ⟨h', rfl⟩
    exact trichotomy h h'
  rcases exists_listing State FromEnd hend hstep horder
    ⟨rfl, valid_ofLengths lengths, left_ofLengths lengths⟩ with
    ⟨tuples, hlists, hlength, hpairwise, hmem⟩
  refine ⟨tuples, hlists, hlength, hpairwise, fun is => (hmem is).trans ?_⟩
  constructor
  · rintro ⟨r, -, h, -⟩
    exact h
  · intro h
    exact ⟨after lengths is, after_lt h, h, rfl⟩

theorem chooseEach_within {sources : List (List Scalar)} (h : Within (sources.map List.length) is) :
    (sources.zip is).map (fun p => p.1[p.2]?) = (Generator.chooseEach sources is).map some := by
  induction sources generalizing is with
  | nil => cases h; rfl
  | cons source sources ih =>
    cases h with
    | @cons _ i _ is hi h =>
      rw [List.zip_cons_cons, List.map_cons, ih h, Generator.chooseEach,
        List.getElem?_eq_getElem hi]
      rfl

/-- For any lengths the odometer gives the tuples within them, each once, in strictly increasing
lexicographic order, and then nothing; a product makes something of each of them with the elements
at its places, up to the first failure. -/
theorem product_gives_tuples :
    ∃ tuples : List Nat → List (List Nat),
      (∀ lengths : List Nat, (∀ is, is ∈ tuples lengths ↔ Within lengths is) ∧
        (tuples lengths).Pairwise (· < ·) ∧ (tuples lengths).length = lengths.prod ∧
        ∀ n, nexts next n (ofLengths lengths) = (List.range n).map ((tuples lengths)[·]?)) ∧
      ∀ (sources : List (List Scalar)) (assemble : Assembly),
        (Draft.product sources assemble).Gives (untilFailure ((tuples (sources.map List.length)).map
          fun is => assemble (Generator.chooseEach sources is))) ∧
        ∀ is ∈ tuples (sources.map List.length), (sources.zip is).map (fun p => p.1[p.2]?) =
          (Generator.chooseEach sources is).map some := by
  choose tuples hlists hlength hpairwise hmem using exists_tuples
  refine ⟨tuples, fun lengths => ?_, fun sources assemble => ?_⟩
  · exact ⟨hmem lengths, hpairwise lengths, hlength lengths, (hlists lengths).nexts_eq⟩
  · constructor
    · apply Draft.gives_of_generator
      exact Generator.gives_of_lists (.product · sources assemble) _ (fun _ => rfl) (hlists _)
    · intro is his
      exact chooseEach_within ((hmem _ is).mp his)

end Odometer

end LazyCalc
