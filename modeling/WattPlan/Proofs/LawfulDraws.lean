import WattPlan.Proofs.Exact

/-!
# Quantities to draw from

What is drawn between two amounts is an amount between them, and rounding keeps the order of amounts.
That is all that random workflows ask of their quantities, and it holds of exact quantities.
-/

namespace WattPlan

/-- Quantities with which draws keep to their bounds. -/
class Scalar.LawfulDraws (α : Type) [Scalar α] : Prop where
  le_of_lt : ∀ {a b : α}, a < b → a ≤ b
  zero : Scalar.isAmount (0 : α) = true
  isAmount_of_le : ∀ {a b : α}, Scalar.isAmount a = true → Scalar.isFinite b = true → a ≤ b →
    Scalar.isAmount b = true
  zero_le : ∀ {a : α}, Scalar.isAmount a = true → 0 ≤ a
  le_refl : ∀ {a : α}, Scalar.isAmount a = true → a ≤ a
  share : ∀ {low high : α} {n : Nat}, Scalar.isAmount low = true → Scalar.isAmount high = true →
    low < high → n < Nat.pow 2 52 →
      Scalar.isAmount (Scalar.ofNat n / Scalar.ofNat (Nat.pow 2 52) * (high - low) + low) = true ∧
        low ≤ Scalar.ofNat n / Scalar.ofNat (Nat.pow 2 52) * (high - low) + low ∧
        Scalar.ofNat n / Scalar.ofNat (Nat.pow 2 52) * (high - low) + low ≤ high
  round_zero : Scalar.round (0 : α) = 0
  round_le : ∀ {a b : α}, Scalar.isAmount a = true → Scalar.isAmount b = true → a ≤ b →
    Scalar.isAmount (Scalar.round a) = true ∧ Scalar.round a ≤ Scalar.round b
  neg_zero_add : ∀ {a : α}, Scalar.isAmount a = true → -0 + a = a

namespace Exact

variable {K : Type} [Field K] [LinearOrder K] [IsStrictOrderedRing K] [FloorRing K] [Exponentials K]

omit [Exponentials K] in
/-- A number that is not negative is rounded to a whole number that is not negative. -/
theorem roundHalf_nonneg {x : K} (hx : 0 ≤ x) : 0 ≤ roundHalf x := by
  rw [roundHalf, if_pos hx]
  exact Int.floor_nonneg.2 (by positivity)

/-- Draws of exact quantities keep to their bounds. -/
instance lawfulDraws : Scalar.LawfulDraws (Exact K) where
  le_of_lt := Exact.le_of_lt
  zero := by
    rw [zero_eq, isAmount_iff]
    exact ⟨0, rfl, le_rfl⟩
  isAmount_of_le := by
    intro a b ha hb hab
    obtain ⟨x, rfl, hx⟩ := isAmount_iff.1 ha
    cases b with
    | finite y => exact isAmount_iff.2 ⟨y, rfl, hx.trans (le_finite.1 hab)⟩
    | undefined => cases hb
    | infinity => cases hb
    | negInfinity => cases hb
  zero_le := by
    intro a ha
    obtain ⟨x, rfl, hx⟩ := isAmount_iff.1 ha
    rw [zero_eq]
    exact le_finite.2 hx
  le_refl := by
    intro a ha
    obtain ⟨x, rfl, -⟩ := isAmount_iff.1 ha
    exact le_finite.2 le_rfl
  share := by
    intro low high n hlow hhigh hlt hn
    obtain ⟨x, rfl, hx⟩ := isAmount_iff.1 hlow
    obtain ⟨y, rfl, -⟩ := isAmount_iff.1 hhigh
    have hxy : x < y := lt_finite.1 hlt
    have hpos : (0 : K) < (Nat.pow 2 52 : Nat) := Nat.cast_pos.2 (by decide)
    have hshare : (Scalar.ofNat n / Scalar.ofNat (Nat.pow 2 52) : Exact K) =
        finite ((n : K) / (Nat.pow 2 52 : Nat)) := by
      rw [ofNat_eq, ofNat_eq]
      exact if_neg hpos.ne'
    have hnonneg : 0 ≤ (n : K) / (Nat.pow 2 52 : Nat) * (y - x) :=
      mul_nonneg (div_nonneg (Nat.cast_nonneg n) hpos.le) (sub_nonneg.2 hxy.le)
    have hle : (n : K) / (Nat.pow 2 52 : Nat) * (y - x) ≤ y - x :=
      mul_le_of_le_one_left (sub_nonneg.2 hxy.le)
        ((div_le_one hpos).2 (Nat.cast_le.2 hn.le))
    rw [hshare, sub_finite, mul_finite, add_finite, isAmount_iff, le_finite, le_finite]
    exact ⟨⟨_, rfl, by linarith⟩, by linarith, by linarith⟩
  round_zero := by
    have hround : roundHalf (0 : K) = 0 := by
      rw [roundHalf, if_pos le_rfl, Int.floor_eq_zero_iff]
      constructor <;> norm_num
    rw [zero_eq]
    show finite ((roundHalf (0 : K) : Int) : K) = finite 0
    rw [hround, Int.cast_zero]
  round_le := by
    intro a b ha hb hab
    obtain ⟨x, rfl, hx⟩ := isAmount_iff.1 ha
    obtain ⟨y, rfl, hy⟩ := isAmount_iff.1 hb
    have hle : roundHalf x ≤ roundHalf y := by
      rw [roundHalf, roundHalf, if_pos hx, if_pos hy]
      exact Int.floor_le_floor (add_le_add_left (le_finite.1 hab) _)
    exact ⟨isAmount_iff.2 ⟨_, rfl, Int.cast_nonneg (roundHalf_nonneg hx)⟩,
      le_finite.2 (Int.cast_le.2 hle)⟩
  neg_zero_add := by
    intro a ha
    obtain ⟨x, rfl, -⟩ := isAmount_iff.1 ha
    rw [neg_zero_eq, add_finite, zero_add]

end Exact

end WattPlan
