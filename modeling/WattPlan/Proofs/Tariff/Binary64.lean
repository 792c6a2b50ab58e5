import Mathlib.Data.Fintype.Card
import Mathlib.Logic.Function.Iterate
import WattPlan.Proofs.Binary64.Draws
import WattPlan.Proofs.Tariff.Found

/-!
# Integrals in floating point

A walk over the hours in floating point takes no more steps than there are floats, or it never ends:
an instant that comes twice comes again and again. So an integral is missing just where the walk
does not end (`Tariff.walks_iff_integrateHours?`, `Tariff.priceSeconds?_eq_some_iff`). Up to the
instant `2 ^ 56`, some two thousand million years, an hour ends behind each instant in it
(`Binary64.hourEnd_denotes`), and every integral is found (`Tariff.priceSeconds?_isSome_of_le`). Much
later than that some are missing: `LongRun` is an interval whose walk does not get on.
-/

namespace WattPlan

namespace Binary64

variable {x t : Float} {v : ℚ}

/-- The length of an hour is a float. -/
theorem hourLength_denotes : Denotes (Tariff.hourLength : Float) (3600 : ℕ) :=
  ofNat_denotes (by norm_num)

/-- The begin of an hour in seconds is found without rounding, as an hour has a multiple of 16
seconds. -/
theorem mul_hourLength_denotes {hour : ℕ} (h : Denotes x hour)
    (hfew : hour ≤ 2 ^ 45 + 1) : Denotes (x * Tariff.hourLength) (3600 * hour) := by
  have hgrid : (hour : ℚ) * (3600 : ℕ) = (225 * hour : ℕ) * 2 ^ (4 : ℤ) := by
    push_cast
    ring
  have hbound : (hour : ℚ) * (3600 : ℕ) ≤ 2 ^ (52 + 8) := by
    exact_mod_cast (by omega : hour * 3600 ≤ 2 ^ (52 + 8))
  obtain ⟨c, hproduct, hc⟩ := mul_denotes h hourLength_denotes (pow_denotes (by norm_num)) hbound
  rwa [hc.eq_of_grid (by omega) (by norm_num) hgrid, mul_comm, Nat.cast_ofNat] at hproduct

/-- Up to the instant `2 ^ 56` the end of the hour of an instant is computed without rounding, and
it is behind the instant. -/
theorem hourEnd_denotes (h : Denotes t v) (hv : v < 2 ^ 56) :
    ∃ hour : ℕ, v < 3600 * hour ∧ Denotes (Tariff.hourEnd t) (3600 * hour) := by
  obtain ⟨q, hquotient, hrounds⟩ := div_denotes h hourLength_denotes (by norm_num) h
    (div_le_self h.nonneg (by norm_num))
  have hq : q ≤ (2 ^ 45 : ℕ) := by
    refine (ofNat_denotes (by norm_num)).le_of_rounds hrounds ?_
    rw [div_le_iff₀ (by norm_num)]
    norm_num at hv ⊢
    linarith
  have hfew : ⌊q⌋₊ ≤ 2 ^ 45 := Nat.floor_le_of_le hq
  have hnext := add_one_denotes (roundDown_denotes hquotient) (by omega)
  refine ⟨⌊q⌋₊ + 1, ?_, mul_hourLength_denotes hnext (by omega)⟩
  by_contra hle
  -- An hour that ends by the instant is not rounded away.
  have hover : ((⌊q⌋₊ + 1 : ℕ) : ℚ) ≤ q := hnext.ge_of_rounds hrounds (by
    rw [le_div_iff₀ (by norm_num), mul_comm]
    exact_mod_cast not_lt.1 hle)
  have hlt := Nat.lt_floor_add_one q
  push_cast at hover
  linarith

end Binary64

open Binary64

namespace Tariff

section Steps

variable {α : Type} [Scalar α] {tariff : Tariff α} {stop t total result : α} {steps : ℕ}

/-- The instant that the walk over the hours goes on from. -/
def nextInstant (stop t : α) : α :=
  Scalar.min (hourEnd t) stop

/-- A total is found in a number of steps just when no more than these lead to the end. -/
theorem integrateHours?_isSome_iff : (tariff.integrateHours? stop steps t total).isSome = true ↔
    ∃ count ≤ steps, ¬ (nextInstant stop)^[count] t < stop := by
  induction steps generalizing t total with
  | zero => by_cases hlt : t < stop <;> simp [integrateHours?, hlt]
  | succ steps ih =>
      by_cases hlt : t < stop
      · rw [integrateHours?, if_pos hlt]
        rw [ih]
        constructor
        · rintro ⟨count, hcount, hend⟩
          exact ⟨count + 1, Nat.succ_le_succ hcount, hend⟩
        · rintro ⟨count, hcount, hend⟩
          cases count with
          | zero => exact absurd hlt hend
          | succ count => exact ⟨count, Nat.le_of_succ_le_succ hcount, hend⟩
      · rw [tariff.integrateHours?_of_not_lt hlt]
        exact iff_of_true rfl ⟨0, Nat.zero_le _, hlt⟩

end Steps

section Adequacy

variable {tariff : Tariff Float} {start stop t total result : Float}

/-- If steps lead to the end at all, then fewer steps than there are floats do. -/
theorem exists_few_steps {count : ℕ} (hend : ¬ (nextInstant stop)^[count] t < stop) :
    ∃ few < 2 ^ 64, ¬ (nextInstant stop)^[few] t < stop := by
  classical
  have hex : ∃ count, ¬ (nextInstant stop)^[count] t < stop := ⟨count, hend⟩
  obtain ⟨first, hfirst⟩ : ∃ first, first = Nat.find hex := ⟨_, rfl⟩
  have hlast : ¬ (nextInstant stop)^[first] t < stop := hfirst ▸ Nat.find_spec hex
  have hbefore : ∀ i < first, (nextInstant stop)^[i] t < stop := fun i hi =>
    not_not.1 (Nat.find_min hex (hfirst ▸ hi))
  -- An instant that came twice would lead to the end in fewer steps.
  have hdistinct : ∀ i j, i < j → j ≤ first →
      (nextInstant stop)^[i] t ≠ (nextInstant stop)^[j] t := by
    intro i j hij hj hsame
    have hback : (nextInstant stop)^[first - j + i] t = (nextInstant stop)^[first] t := by
      rw [Function.iterate_add_apply, hsame, ← Function.iterate_add_apply,
        Nat.sub_add_cancel hj]
    exact hlast (hback ▸ hbefore _ (by omega))
  have hinjective : Function.Injective fun i : Fin (first + 1) =>
      ((nextInstant stop)^[i] t).toModel.toBits.toFin := by
    intro i j hword
    have hsame : (nextInstant stop)^[i] t = (nextInstant stop)^[j] t := word_injective hword
    rcases lt_trichotomy i.val j.val with hlt | heq | hgt
    · exact absurd hsame (hdistinct _ _ hlt (by omega))
    · exact Fin.ext heq
    · exact absurd hsame.symm (hdistinct _ _ hgt (by omega))
  have hcard := Fintype.card_le_of_injective _ hinjective
  rw [Fintype.card_fin, Fintype.card_fin] at hcard
  exact ⟨first, hcard, hlast⟩

/-- In floating point the walk over the hours ends with a total just where that is found. -/
theorem walks_iff_integrateHours? : tariff.Walks stop t total result ↔
    tariff.integrateHours? stop tariff.stepLimit t total = some result := by
  refine ⟨fun h => ?_, walks_of_integrateHours?⟩
  obtain ⟨enough, hfound⟩ := walks_iff.1 h
  obtain ⟨count, -, hend⟩ := integrateHours?_isSome_iff.1 (Option.isSome_iff_exists.2 ⟨_, hfound⟩)
  obtain ⟨few, hfew, hend⟩ := exists_few_steps hend
  have hlimit : few ≤ tariff.stepLimit := hfew.le.trans (Nat.le_add_right _ _)
  have hsome : (tariff.integrateHours? stop tariff.stepLimit t total).isSome = true :=
    integrateHours?_isSome_iff.2 ⟨few, hlimit, hend⟩
  obtain ⟨other, hother⟩ := Option.isSome_iff_exists.1 hsome
  rw [hother, (walks_of_integrateHours? hother).unique h]

/-- In floating point a proper interval has an integral just where the walk over the hours that
follow its whole cycles ends. -/
theorem priceSeconds?_eq_some_iff (hlt : start < stop) (hstop : Scalar.isFinite stop = true) :
    tariff.priceSeconds? start stop = some result ↔
      tariff.Walks stop (tariff.afterCycles start stop).1 (tariff.afterCycles start stop).2
        result := by
  rw [tariff.priceSeconds?_of_lt hlt hstop, walks_iff_integrateHours?]

end Adequacy

section Early

variable {tariff : Tariff Float} {start stop t : Float} {u v : ℚ}

/-- Up to the instant `2 ^ 56` the walk over the hours ends: every step but the last one goes on
with a later hour. -/
theorem integrateHours?_isSome_of_le (hstop : Denotes stop u) (hu : u ≤ 2 ^ 56) (steps : ℕ)
    (ht : Denotes t v) (total : Float) {hour : ℕ} (hbegin : 3600 * (hour : ℚ) ≤ v)
    (hreach : u ≤ 3600 * ((hour : ℚ) + steps)) :
    (tariff.integrateHours? stop steps t total).isSome = true := by
  induction steps generalizing t v total hour with
  | zero =>
      rw [Nat.cast_zero, add_zero] at hreach
      rw [tariff.integrateHours?_of_not_lt
        fun hlt => ((ht.lt_iff hstop).1 hlt).not_ge (hreach.trans hbegin)]
      rfl
  | succ steps ih =>
      by_cases hlt : t < stop
      · have hvu := (ht.lt_iff hstop).1 hlt
        obtain ⟨next, hnext, hend⟩ := hourEnd_denotes ht (hvu.trans_le hu)
        have hself : ∀ total, (tariff.integrateHours? stop steps stop total).isSome = true := by
          intro total
          rw [tariff.integrateHours?_of_not_lt fun h => lt_irrefl u ((hstop.lt_iff hstop).1 h)]
          rfl
        rw [integrateHours?, if_pos hlt]
        unfold Scalar.min
        split
        · exact hself _
        · split
          · exact hself _
          · refine ih hend _ le_rfl ?_
            have hlater : hour + 1 ≤ next := by
              have hcast : (hour : ℚ) < next := by linarith
              exact_mod_cast hcast
            have hmore : ((hour + 1 : ℕ) : ℚ) ≤ next := Nat.cast_le.2 hlater
            push_cast at hmore hreach
            linarith
      · rw [tariff.integrateHours?_of_not_lt hlt]
        rfl

/-- The length of a cycle of fewer than `2 ^ 53` hours is a float. -/
theorem cycleLength_denotes (hfew : tariff.hourly.length < 2 ^ 53) :
    ∃ c, Denotes (hourLength * Scalar.ofNat tariff.hourly.length) c ∧ 1 ≤ c ∧ c ≤ 2 ^ (52 + 20) := by
  have hpos : (1 : ℚ) ≤ tariff.hourly.length := Nat.one_le_cast.2 tariff.length_pos
  have hlength : (tariff.hourly.length : ℚ) ≤ 2 ^ 53 := by exact_mod_cast hfew.le
  have hbound : ((3600 : ℕ) : ℚ) * tariff.hourly.length ≤ 2 ^ (52 + 20) := by
    push_cast
    linarith
  have hlarge := pow_denotes (k := 20) (by norm_num)
  obtain ⟨c, hcycle, hc⟩ := mul_denotes hourLength_denotes (ofNat_denotes hfew) hlarge hbound
  have hleast := hourLength_denotes.ge_of_rounds hc (le_mul_of_one_le_right (by norm_num) hpos)
  exact ⟨c, hcycle, le_trans (by norm_num) hleast, hlarge.le_of_rounds hc hbound⟩

/-- The whole cycles of an interval that ends by the instant `2 ^ 56` lead to an instant. -/
theorem afterCycles_denotes (hstart : Denotes start v) (hstop : Denotes stop u) (hvu : v ≤ u)
    (hu : u ≤ 2 ^ 56) (hfew : tariff.hourly.length < 2 ^ 53) :
    ∃ w, Denotes (tariff.afterCycles start stop).1 w := by
  obtain ⟨c, hcycle, hcone, hcmax⟩ := cycleLength_denotes hfew
  obtain ⟨d, hlong, hd⟩ := sub_denotes hstop hstart hvu
  have hdmax := hstop.le_of_rounds hd (sub_le_self u hstart.nonneg)
  obtain ⟨q, hquotient, hq⟩ := div_denotes hlong hcycle (by linarith) hlong
    (div_le_self hlong.nonneg hcone)
  have hqmax := hlong.le_of_rounds hq (div_le_self hlong.nonneg hcone)
  have hcycles := roundDown_denotes hquotient
  have hkmax : ((⌊q⌋₊ : ℕ) : ℚ) ≤ 2 ^ 56 :=
    (Nat.floor_le hquotient.nonneg).trans ((hqmax.trans hdmax).trans hu)
  have hspan : ((⌊q⌋₊ : ℕ) : ℚ) * c ≤ 2 ^ (52 + 76) :=
    calc ((⌊q⌋₊ : ℕ) : ℚ) * c ≤ 2 ^ 56 * 2 ^ (52 + 20) :=
          mul_le_mul hkmax hcmax hcycle.nonneg (by norm_num)
      _ = 2 ^ (52 + 76) := by norm_num
  obtain ⟨p, hproduct, hp⟩ := mul_denotes hcycles hcycle (pow_denotes (by norm_num)) hspan
  have hpmax := (pow_denotes (k := 76) (by norm_num)).le_of_rounds hp hspan
  obtain ⟨w, hsum, -⟩ := add_denotes hstart hproduct (pow_denotes (k := 77) (by norm_num)) (by
    norm_num at hpmax hu ⊢
    linarith)
  unfold afterCycles
  dsimp only
  split
  · exact ⟨w, hsum⟩
  · exact ⟨v, hstart⟩

/-- In floating point the integral over an interval that does not begin before zero and ends by the
instant `2 ^ 56` is found. -/
theorem priceSeconds?_isSome_of_le (tariff : Tariff Float) (hstart : Denotes start v)
    (hstop : Denotes stop u) (hu : u ≤ 2 ^ 56) (hfew : tariff.hourly.length < 2 ^ 53) :
    (tariff.priceSeconds? start stop).isSome = true := by
  by_cases hlt : start < stop
  · have hvu := ((hstart.lt_iff hstop).1 hlt).le
    obtain ⟨w, hentry⟩ := afterCycles_denotes hstart hstop hvu hu hfew
    have hfinite := (Bool.and_eq_true_iff.1 (isAmount_iff.2 ⟨u, hstop⟩)).1
    have hlimit : ((2 ^ 64 : ℕ) : ℚ) ≤ tariff.stepLimit := Nat.cast_le.2 (Nat.le_add_right _ _)
    rw [tariff.priceSeconds?_of_lt hlt hfinite]
    have hbegin : 3600 * ((0 : ℕ) : ℚ) ≤ w := by
      rw [Nat.cast_zero, mul_zero]
      exact hentry.nonneg
    refine integrateHours?_isSome_of_le hstop hu _ hentry _ hbegin ?_
    push_cast at hlimit ⊢
    linarith
  · rw [priceSeconds?, if_pos hlt]
    rfl

end Early

end Tariff

/-!
## A long run

A tariff of 24 equal prices and an interval of `1e20` seconds from zero on.
-/

namespace LongRun

def tariff : Tariff Float :=
  ⟨List.replicate 24 1, by simp⟩

/-- After the whole cycles the end of the hour is rounded to the instant that the walk has come to,
which is before the end of the interval. So the integral is missing. -/
theorem priceSeconds?_eq_none : tariff.priceSeconds? 0 1e20 = none := by
  have hlt : (tariff.afterCycles 0 1e20).1 < 1e20 := by decide +kernel
  have hnext : (Scalar.min (Tariff.hourEnd (tariff.afterCycles 0 1e20).1)
      1e20).toModel.toBits.toFin = (tariff.afterCycles 0 1e20).1.toModel.toBits.toFin := by
    decide +kernel
  exact Tariff.priceSeconds?_eq_none (by decide +kernel) (by decide +kernel)
    ⟨hlt, word_injective hnext⟩

end LongRun

end WattPlan
