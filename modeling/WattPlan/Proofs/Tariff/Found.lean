import WattPlan.Proofs.Tariff.Cost

/-!
# Integrals that are found

Over exact quantities the walk over the hours always ends, so every integral is found
(`Tariff.priceSeconds?_isSome`), whatever the prices are and also from minus infinity on. An integral
is missing where the walk comes to an instant of the interval from which it does not get on
(`Tariff.priceSeconds?_eq_none`).
-/

namespace WattPlan

open Exact
open Cyclic (hourOf)

namespace Tariff

section Stuck

variable {α : Type} [Scalar α] {tariff : Tariff α} {start stop t total : α}

/-- An instant before the end of an interval whose hour ends at the instant itself. -/
def StuckAt (stop t : α) : Prop :=
  t < stop ∧ Scalar.min (hourEnd t) stop = t

/-- From such an instant the walk over the hours goes on for ever. -/
theorem StuckAt.not_walks (h : StuckAt stop t) (total result : α) :
    ¬ tariff.Walks stop t total result := by
  obtain ⟨hlt, hnext⟩ := h
  intro hwalks
  generalize hinstant : t = instant at hwalks
  induction hwalks with
  | done instant total hge =>
      subst hinstant
      exact hge hlt
  | hour instant total result _ _ ih =>
      subst hinstant
      exact ih hnext.symm

/-- An interval from whose whole cycles the walk does not get on has no integral. -/
theorem priceSeconds?_eq_none (hlt : start < stop) (hstop : Scalar.isFinite stop = true)
    (h : StuckAt stop (tariff.afterCycles start stop).1) :
    tariff.priceSeconds? start stop = none := by
  rw [tariff.priceSeconds?_of_lt hlt hstop, Option.eq_none_iff_forall_ne_some]
  exact fun _ hresult => h.not_walks _ _ (walks_of_integrateHours? hresult)

end Stuck

variable {K : Type} [Field K] [LinearOrder K] [IsStrictOrderedRing K] [FloorRing K]
  [Exponentials K]

/-- The whole cycles since ever lead to no instant. -/
theorem afterCycles_negInfinity (tariff : Tariff (Exact K)) (stop : K) :
    (tariff.afterCycles negInfinity (finite stop)).1 = undefined := by
  have hpos := tariff.cycleLength_pos (K := K)
  have hcycles : Scalar.floor ((finite stop - negInfinity : Exact K) /
      finite (3600 * (tariff.hourly.length : K))) = infinity :=
    congrArg Scalar.floor (if_neg hpos.not_gt)
  have hproduct : (infinity * finite (3600 * (tariff.hourly.length : K)) : Exact K) = infinity :=
    if_pos hpos
  unfold afterCycles
  dsimp only
  have hone : (1 : Exact K) ≤ infinity := trivial
  rw [cycleLength_eq, hcycles, if_pos hone, hproduct]
  rfl

/-- Over exact quantities every integral is found. -/
theorem priceSeconds?_isSome (tariff : Tariff (Exact K)) (start stop : Exact K) :
    (tariff.priceSeconds? start stop).isSome = true := by
  by_cases hlt : start < stop
  · cases stop with
    | finite b =>
        rw [tariff.priceSeconds?_of_lt hlt rfl, Option.isSome_iff_exists]
        cases start with
        | finite a =>
            obtain ⟨cycles, hentry, -, hlast⟩ := tariff.afterCycles_of_lt (lt_finite.1 hlt)
            rw [hentry]
            exact tariff.exists_integrateHours? b _ _ _ fun _ => le_stepLimit (by linarith)
        | negInfinity =>
            rw [tariff.afterCycles_negInfinity]
            exact ⟨_, tariff.integrateHours?_of_not_lt id _ _⟩
        | infinity => exact absurd hlt id
        | undefined => exact absurd hlt id
    | infinity =>
        rw [priceSeconds?, if_neg (not_not.2 hlt)]
        rfl
    | negInfinity => cases start <;> exact absurd hlt id
    | undefined => cases start <;> exact absurd hlt id
  · rw [priceSeconds?, if_pos hlt]
    rfl

end Tariff

end WattPlan
