import Mathlib
import WattPlan.Proofs.Exact
import WattPlan.Scalar.Binary64

/-!
# Weakly ordered quantities

Where no quantity is undefined, `<` is a strict weak order: it is asymmetric, and whatever lies
between two quantities is compared with one of them. That is all a search for the cheapest solution
needs. It holds of exact quantities and of floats, which are compared by kind, exponent and mantissa
(`Binary64.lt_iff`).
-/

namespace WattPlan

/-- The order of defined quantities is a strict weak one. -/
class Scalar.WeaklyOrdered (α : Type) [Scalar α] : Prop where
  lt_asymm : ∀ {a b : α}, a < b → ¬ b < a
  lt_or_lt : ∀ {a b c : α}, Scalar.isNaN b = false → a < c → a < b ∨ b < c

/-- No quantity is less than itself. -/
theorem Scalar.WeaklyOrdered.lt_irrefl {α : Type} [Scalar α] [WeaklyOrdered α] (a : α) :
    ¬ a < a :=
  fun h => lt_asymm h h

/-- Exact quantities are weakly ordered. -/
instance Exact.weaklyOrdered {K : Type} [Field K] [LinearOrder K] [FloorRing K] [Exponentials K] :
    Scalar.WeaklyOrdered (Exact K) where
  lt_asymm := by
    intro a b hab hba
    cases a <;> cases b <;> first
      | exact hab.elim
      | exact hba.elim
      | exact (lt_finite.1 hab).asymm (lt_finite.1 hba)
  lt_or_lt := by
    intro a b c hb hac
    cases b with
    | undefined => cases hb
    | negInfinity => cases c <;> first | exact .inr trivial | cases a <;> exact hac.elim
    | infinity => cases a <;> first | exact .inl trivial | cases c <;> exact hac.elim
    | finite y =>
        -- Only between two numbers does it matter which one is in the middle.
        cases a <;> cases c <;> first
          | exact hac.elim
          | exact .inl trivial
          | exact .inr trivial
          | exact (lt_or_ge _ y).imp_right fun hle => lt_of_le_of_lt hle (lt_finite.1 hac)

namespace Binary64

open Float.Model (UnpackedFloat)

/-- What floats are compared by: the kind, and within a kind the exponent and the mantissa, both
with the sign of the float. -/
def key : UnpackedFloat → Int × Int × Int
  | .infinity .negative => (-2, 0, 0)
  | .finite .negative mantissa exponent _ => (-1, -exponent, -mantissa)
  | .zero _ | .notANumber => (0, 0, 0)
  | .finite .positive mantissa exponent _ => (1, exponent, mantissa)
  | .infinity .positive => (2, 0, 0)

/-- One key is before another one. -/
def Before (a b : Int × Int × Int) : Prop :=
  a.1 < b.1 ∨ a.1 = b.1 ∧ (a.2.1 < b.2.1 ∨ a.2.1 = b.2.1 ∧ a.2.2 < b.2.2)

/-- One float is less than another one just when both are defined and its key is before. -/
theorem lt_iff {a b : Float} : a < b ↔ Scalar.isNaN a = false ∧ Scalar.isNaN b = false ∧
    Before (key a.toModel.unpack) (key b.toModel.unpack) := by
  show decide (a.toModel.unpack.lt b.toModel.unpack = true) = true ↔
    a.toModel.unpack.isNaN = false ∧ b.toModel.unpack.isNaN = false ∧ _
  rw [decide_eq_true_iff]
  generalize a.toModel.unpack = x
  generalize b.toModel.unpack = y
  unfold Before UnpackedFloat.lt UnpackedFloat.isNaN
  -- Only two finite floats of one sign have their exponents and mantissas compared.
  rcases x with (_ | _) | _ | _ | ⟨_ | _, m, e, _⟩ <;>
    rcases y with (_ | _) | _ | _ | ⟨_ | _, m', e', _⟩ <;>
    first
      | (simp [UnpackedFloat.compare, key, Ordering.then_eq_lt, compare_lt_iff_lt]; done)
      | (simp [UnpackedFloat.compare, key, Ordering.then_eq_gt, compare_gt_iff_gt]; done)
      | decide

/-- Floats are weakly ordered. -/
instance weaklyOrdered : Scalar.WeaklyOrdered Float where
  lt_asymm := by
    intro a b hab hba
    obtain ⟨-, -, hbefore⟩ := lt_iff.1 hab
    obtain ⟨-, -, hafter⟩ := lt_iff.1 hba
    unfold Before at hbefore hafter
    omega
  lt_or_lt := by
    intro a b c hb hac
    obtain ⟨ha, hc, hbefore⟩ := lt_iff.1 hac
    rw [lt_iff, lt_iff]
    simp only [ha, hb, hc, true_and, Before] at hbefore ⊢
    omega

end Binary64

end WattPlan
