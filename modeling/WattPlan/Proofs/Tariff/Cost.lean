import Mathlib.Data.Rat.Floor
import WattPlan.Proofs.Catalog.Draft
import WattPlan.Proofs.Exact
import WattPlan.Proofs.Tariff.Integral
import WattPlan.Tariff

/-!
# The cost of drawing power

Over exact quantities the cost of an interval is the integral of the hourly prices times the power
(`Tariff.energyCost_eq_sum_hours`), however the interval lies to the hours and the cycles. The walk
over the hours is taken as a loop without a bound, `Tariff.Walks`: it ends just where enough steps
find its total (`Tariff.walks_iff`), over exact quantities it ends (`Tariff.exists_integrateHours?`),
and where it ends it has added the integral (`Walks.eq_integral`).
-/

namespace WattPlan

open Exact
open Cyclic (hourOf)

namespace Tariff

section Loop

variable {α : Type} [Scalar α]

/-- The walk over the hours from `t` to `stop`, with a running total, and the total that it ends
with. -/
inductive Walks (tariff : Tariff α) (stop : α) : α → α → α → Prop where
  | done (t total : α) : ¬ t < stop → Walks tariff stop t total total
  | hour (t total result : α) : t < stop →
      Walks tariff stop (Scalar.min (hourEnd t) stop)
        (total + (Scalar.min (hourEnd t) stop - t) * tariff.priceAt t) result →
      Walks tariff stop t total result

/-- A walk ends with one total. -/
theorem Walks.unique {tariff : Tariff α} {stop t total result other : α}
    (h : Walks tariff stop t total result) (hother : Walks tariff stop t total other) :
    result = other := by
  induction h with
  | done t total hge =>
      cases hother with
      | done => rfl
      | hour _ _ _ hlt => exact absurd hlt hge
  | hour t total result hlt _ ih =>
      cases hother with
      | done _ _ hge => exact absurd hlt hge
      | hour _ _ _ _ hrest => exact ih hrest

/-- A total that is found is the one that the walk ends with. -/
theorem walks_of_integrateHours? {tariff : Tariff α} {stop t total result : α} {steps : ℕ}
    (h : tariff.integrateHours? stop steps t total = some result) :
    tariff.Walks stop t total result := by
  induction steps generalizing t total with
  | zero =>
      unfold integrateHours? at h
      split at h
      · cases h
      · rename_i hge
        obtain rfl := Option.some.inj h
        exact .done _ _ hge
  | succ steps ih =>
      unfold integrateHours? at h
      split at h
      · rename_i hlt
        exact .hour _ _ _ hlt (ih h)
      · rename_i hge
        obtain rfl := Option.some.inj h
        exact .done _ _ hge

/-- At the end of an interval no step is needed. -/
theorem integrateHours?_of_not_lt (tariff : Tariff α) {stop t : α} (h : ¬ t < stop) (steps : ℕ)
    (total : α) : tariff.integrateHours? stop steps t total = some total := by
  cases steps <;> rw [integrateHours?, if_neg h]

/-- The total that a walk ends with is found in some number of steps, and in any larger one. -/
theorem Walks.integrateHours?_eq {tariff : Tariff α} {stop t total result : α}
    (h : tariff.Walks stop t total result) :
    ∃ enough, ∀ steps, enough ≤ steps →
      tariff.integrateHours? stop steps t total = some result := by
  induction h with
  | done t total hge => exact ⟨0, fun steps _ => tariff.integrateHours?_of_not_lt hge steps total⟩
  | hour t total result hlt _ ih =>
      obtain ⟨enough, hfound⟩ := ih
      refine ⟨enough + 1, fun steps hsteps => ?_⟩
      obtain ⟨more, rfl⟩ : ∃ more, steps = more + 1 := ⟨steps - 1, by omega⟩
      rw [integrateHours?, if_pos hlt]
      exact hfound more (Nat.le_of_succ_le_succ hsteps)

/-- The walk over the hours ends with a total just where enough steps find it. -/
theorem walks_iff {tariff : Tariff α} {stop t total result : α} :
    tariff.Walks stop t total result ↔
      ∃ steps, tariff.integrateHours? stop steps t total = some result :=
  ⟨fun h => h.integrateHours?_eq.imp fun _ hfound => hfound _ le_rfl,
    fun ⟨_, h⟩ => walks_of_integrateHours? h⟩

/-- The instant that whole cycles from `start` lead to, with the integral over them. The walk over
the hours sets out from there. -/
def afterCycles (tariff : Tariff α) (start stop : α) : α × α :=
  let cycle := hourLength * Scalar.ofNat tariff.hourly.length
  let cycles := Scalar.floor ((stop - start) / cycle)
  if 1 ≤ cycles then (start + cycles * cycle, 0 + cycles * tariff.cycleSum * hourLength)
  else (start, 0)

/-- The integral over a proper interval is that of its whole cycles and of the hours that follow. -/
theorem priceSeconds?_of_lt (tariff : Tariff α) {start stop : α} (hlt : start < stop)
    (hstop : Scalar.isFinite stop = true) :
    tariff.priceSeconds? start stop =
      tariff.integrateHours? stop tariff.stepLimit (tariff.afterCycles start stop).1
        (tariff.afterCycles start stop).2 := by
  unfold priceSeconds? afterCycles
  rw [if_neg (not_not.2 hlt), hstop, if_neg (by decide)]
  dsimp only
  split <;> rfl

end Loop

variable {K : Type} [Field K] [LinearOrder K] [IsStrictOrderedRing K] [FloorRing K]
  [Exponentials K] {tariff : Tariff (Exact K)} {prices : List (Exact K)} {start middle stop t : K}

/-- The numbers of the hours that an interval touches fit a signed 64-bit word. -/
def HoursInRange (start stop : K) : Prop :=
  ∀ t, start ≤ t → t < stop →
    -9223372036854775808 ≤ hourOf t ∧ hourOf t ≤ 9223372036854775807

omit [IsStrictOrderedRing K] [Exponentials K] in
/-- The hours of a part of an interval are in range. -/
theorem HoursInRange.mono (h : HoursInRange start stop) {first last : K} (hfirst : start ≤ first)
    (hlast : last ≤ stop) : HoursInRange first last :=
  fun t hle hlt => h t (hfirst.trans hle) (hlt.trans_le hlast)

omit [Exponentials K] in
/-- The hours of an interval within the first and the last hour that have numbers are in range. -/
theorem hoursInRange_of_le (hbegin : -3600 * 9223372036854775808 ≤ start)
    (hend : stop ≤ 3600 * 9223372036854775808) : HoursInRange start stop := by
  intro t hle hlt
  constructor
  · rw [Cyclic.le_hourOf]
    push_cast
    linarith
  · rw [← Int.lt_add_one_iff, Cyclic.hourOf_lt]
    push_cast
    linarith

section Hours

omit [IsStrictOrderedRing K] in
/-- The length of an hour, as a number. -/
theorem hourLength_eq : (hourLength : Exact K) = finite 3600 := by
  show finite ((3600 : ℕ) : K) = finite 3600
  norm_num

omit [IsStrictOrderedRing K] in
/-- An instant in hours, as a number. -/
theorem div_hourLength (t : K) : (finite t / hourLength : Exact K) = finite (t / 3600) := by
  rw [hourLength_eq]
  exact if_neg (by norm_num)

/-- The number of the hour of an instant is held to the range of a word. -/
theorem hourNumber_eq (t : K) : hourNumber (finite t : Exact K) =
    max (-9223372036854775808) (min (hourOf t) 9223372036854775807) := by
  have htruncate : truncate (hourOf t : K) = hourOf t := by
    unfold truncate
    split
    · exact Int.floor_intCast _
    · exact Int.ceil_intCast _
  rw [hourNumber, div_hourLength]
  show max (-9223372036854775808) (min (truncate (hourOf t : K)) 9223372036854775807) = _
  rw [htruncate]

/-- The number of the hour of an instant in range. -/
theorem hourNumber_of_range (hrange : HoursInRange t stop) (hlt : t < stop) :
    hourNumber (finite t : Exact K) = hourOf t := by
  obtain ⟨hlow, hhigh⟩ := hrange t le_rfl hlt
  rw [hourNumber_eq, min_eq_left hhigh, max_eq_right hlow]

omit [IsStrictOrderedRing K] in
/-- The end of the hour of an instant. -/
theorem hourEnd_eq (t : K) :
    hourEnd (finite t : Exact K) = finite (3600 * ((hourOf t : K) + 1)) := by
  rw [hourEnd, div_hourLength, hourLength_eq, one_eq]
  show finite (((hourOf t : K) + 1) * 3600) = _
  rw [mul_comm]

omit [Exponentials K] in
/-- The hour that begins at the end of the hour of an instant has the next number. -/
theorem hourOf_hourEnd (t : K) : hourOf (3600 * ((hourOf t : K) + 1)) = hourOf t + 1 := by
  refine le_antisymm (Int.lt_add_one_iff.1 (Cyclic.hourOf_lt.2 ?_)) (Cyclic.le_hourOf.2 ?_) <;>
    push_cast <;> linarith

omit [Exponentials K] in
/-- The hours of a cycle and one more reach the end of an interval that is no longer than a cycle. -/
theorem le_stepLimit (hrest : stop ≤ t + 3600 * tariff.hourly.length) :
    stop ≤ 3600 * ((hourOf t : K) + tariff.stepLimit) := by
  have hcount : ((tariff.hourly.length + 1 : ℕ) : K) ≤ tariff.stepLimit := by
    have hone : 1 ≤ Nat.pow 2 64 := by decide
    exact_mod_cast (by rw [stepLimit]; omega : tariff.hourly.length + 1 ≤ tariff.stepLimit)
  push_cast at hcount
  linarith [Cyclic.lt_hour_end t]

/-- Enough steps find the total of the walk over the hours. -/
theorem exists_integrateHours? (tariff : Tariff (Exact K)) (stop : K) (steps : ℕ) (t : K)
    (total : Exact K) (hreach : t < stop → stop ≤ 3600 * ((hourOf t : K) + steps)) :
    ∃ result, tariff.integrateHours? (finite stop) steps (finite t) total = some result := by
  -- Every step but the last one goes on with the next hour, so the hours that are left suffice.
  induction steps generalizing t total with
  | zero =>
      refine ⟨total, if_neg fun hlt => ?_⟩
      have hle := hreach (lt_finite.1 hlt)
      rw [Nat.cast_zero, add_zero] at hle
      exact absurd (lt_finite.1 hlt) (hle.trans (Cyclic.hour_begin_le t)).not_gt
  | succ steps ih =>
      unfold integrateHours?
      split
      · rename_i hlt
        dsimp only
        rw [hourEnd_eq, min_finite]
        refine ih _ _ fun hnext => ?_
        rcases min_lt_iff.1 hnext with hnext | hnext
        · rw [min_eq_left hnext.le, hourOf_hourEnd]
          have hle := hreach (lt_finite.1 hlt)
          push_cast at hle ⊢
          linarith
        · exact absurd hnext (lt_irrefl _)
      · exact ⟨total, rfl⟩

end Hours

section Prices

omit [IsStrictOrderedRing K] in
/-- The prices of an accepted tariff are those that it was given, and they are numbers. -/
theorem hourly_of_ofHourly (h : ofHourly prices = .ok tariff) :
    tariff.hourly = (prices.map Exact.value).map finite := by
  have hfinite : ∀ price ∈ tariff.hourly, price.IsFinite := fun price hprice => by
    obtain ⟨x, hx, -⟩ := isAmount_iff.1 (CatalogDraft.isAmount_of_ofHourly h price hprice)
    exact ⟨x, hx⟩
  have hgiven : tariff.hourly = prices := by
    unfold ofHourly at h
    split at h
    · cases h
    · split at h <;> cases h
      rfl
  obtain ⟨rates, hrates⟩ := exists_map_finite hfinite
  rw [← hgiven, hrates, List.map_map, List.map_map]
  rfl

variable {rates : List K}

omit [Field K] [LinearOrder K] [IsStrictOrderedRing K] [FloorRing K] [Exponentials K] in
/-- There are as many rates as prices, and so at least one. -/
theorem rates_length_pos (hrates : tariff.hourly = rates.map finite) : 0 < rates.length := by
  have hpos := tariff.length_pos
  rwa [hrates, List.length_map] at hpos

omit [LinearOrder K] [IsStrictOrderedRing K] [FloorRing K] [Exponentials K] in
/-- The price of an hour is the rate of the hour. -/
theorem priceOfHour_eq (hrates : tariff.hourly = rates.map finite) (hour : ℤ) :
    tariff.priceOfHour hour = finite (Cyclic.rate rates hour) := by
  have hlength : tariff.hourly.length = rates.length := by rw [hrates, List.length_map]
  have hplace := tariff.phase_lt hour
  rw [hlength] at hplace
  rw [priceOfHour, List.get_eq_getElem, Cyclic.rate, List.getD_eq_getElem rates 0 hplace]
  simp only [hrates, List.getElem_map, List.length_map]

omit [IsStrictOrderedRing K] in
/-- The sum of the prices of a cycle is the sum of the rates. -/
theorem cycleSum_eq (hrates : tariff.hourly = rates.map finite) :
    tariff.cycleSum = finite rates.sum := by
  rw [cycleSum, Scalar.sum, neg_zero_eq, hrates, foldl_add_finite, zero_add]

/-- The price at an instant in range is the rate of its hour. -/
theorem priceAt_eq (hrates : tariff.hourly = rates.map finite) (hrange : HoursInRange t stop)
    (hlt : t < stop) : tariff.priceAt (finite t) = finite (Cyclic.rate rates (hourOf t)) := by
  rw [priceAt, hourNumber_of_range hrange hlt, priceOfHour_eq hrates]

/-- Where the walk over the hours ends, it has added the integral of the rates. -/
theorem Walks.eq_integral (hrates : tariff.hourly = rates.map finite) {total : K}
    {result : Exact K} (hrange : HoursInRange t stop)
    (h : tariff.Walks (finite stop) (finite t) (finite total) result) :
    result = finite (total + Cyclic.integral rates t stop) := by
  generalize ht : (finite t : Exact K) = instant at h
  generalize htotal : (finite total : Exact K) = sum at h
  induction h generalizing t total with
  | done instant sum hge =>
      subst ht htotal
      rw [Cyclic.integral_of_le (not_lt.1 fun hlt => hge (lt_finite.2 hlt)), add_zero]
  | hour instant sum result hlt _ ih =>
      subst ht htotal
      rw [lt_finite] at hlt
      rw [hourEnd_eq, min_finite, priceAt_eq hrates hrange hlt, sub_finite, mul_finite,
        add_finite] at ih
      have hnext : t ≤ min (3600 * ((hourOf t : K) + 1)) stop :=
        le_min (Cyclic.lt_hour_end t).le hlt.le
      rw [ih (hrange.mono hnext le_rfl) rfl rfl,
        Cyclic.integral_add rates hnext (min_le_right _ _),
        Cyclic.integral_of_hour (Cyclic.hour_begin_le t) hnext (min_le_left _ _)]
      ring_nf

omit [IsStrictOrderedRing K] in
/-- The length of a cycle, as a number. -/
theorem cycleLength_eq (tariff : Tariff (Exact K)) :
    (hourLength * Scalar.ofNat tariff.hourly.length : Exact K) =
      finite (3600 * (tariff.hourly.length : K)) := by
  rw [hourLength_eq, ofNat_eq, mul_finite]

omit [Exponentials K] in
/-- A cycle has a length. -/
theorem cycleLength_pos (tariff : Tariff (Exact K)) : (0 : K) < 3600 * tariff.hourly.length :=
  mul_pos (by norm_num) (Nat.cast_pos.2 tariff.length_pos)

/-- The whole cycles of an interval lead to an instant of it from which less than a cycle is left. -/
theorem afterCycles_of_lt (tariff : Tariff (Exact K)) (hlt : start < stop) :
    ∃ cycles : ℕ, tariff.afterCycles (finite start) (finite stop) =
        (finite (start + cycles * (3600 * tariff.hourly.length)),
          if cycles = 0 then 0 else 0 + finite (cycles : K) * tariff.cycleSum * hourLength) ∧
      start + cycles * (3600 * tariff.hourly.length) ≤ stop ∧
      stop < start + (cycles + 1) * (3600 * tariff.hourly.length) := by
  have hpos := tariff.cycleLength_pos (K := K)
  have hle := Int.floor_le ((stop - start) / (3600 * tariff.hourly.length))
  have hlast := Int.lt_floor_add_one ((stop - start) / (3600 * tariff.hourly.length))
  obtain ⟨cycles, hfloor⟩ :
      ∃ cycles : ℕ, ⌊(stop - start) / (3600 * tariff.hourly.length)⌋ = (cycles : ℤ) :=
    Int.eq_ofNat_of_zero_le (Int.floor_nonneg.2 (div_nonneg (sub_pos.2 hlt).le hpos.le))
  have hcycles : Scalar.floor ((finite stop - finite start : Exact K) /
      finite (3600 * (tariff.hourly.length : K))) = finite (cycles : K) := by
    rw [sub_finite, div_finite hpos.ne']
    show finite ((⌊(stop - start) / (3600 * tariff.hourly.length)⌋ : ℤ) : K) = _
    rw [hfloor, Int.cast_natCast]
  rw [hfloor, Int.cast_natCast, le_div_iff₀ hpos] at hle
  rw [hfloor, Int.cast_natCast, div_lt_iff₀ hpos] at hlast
  refine ⟨cycles, ?_, by linarith, by linarith⟩
  unfold afterCycles
  dsimp only
  rw [cycleLength_eq, hcycles, one_eq]
  rcases Nat.eq_zero_or_pos cycles with rfl | hsome
  · rw [if_neg (by simp [le_finite]), if_pos rfl, Nat.cast_zero, zero_mul, add_zero]
  · rw [if_pos (le_finite.2 (Nat.one_le_cast.2 hsome)), if_neg hsome.ne', mul_finite, add_finite]

/-- With each of the whole cycles, an hour at each of the rates is added. -/
theorem afterCycles_eq (hrates : tariff.hourly = rates.map finite) (hlt : start < stop) :
    ∃ cycles : ℕ, tariff.afterCycles (finite start) (finite stop) =
        (finite (start + cycles * (3600 * rates.length)), finite (cycles * (3600 * rates.sum))) ∧
      start + cycles * (3600 * rates.length) ≤ stop ∧
      stop < start + (cycles + 1) * (3600 * rates.length) := by
  have hlength : tariff.hourly.length = rates.length := by rw [hrates, List.length_map]
  obtain ⟨cycles, hentry, hend, hlast⟩ := tariff.afterCycles_of_lt hlt
  rw [hlength] at hentry hend hlast
  refine ⟨cycles, ?_, hend, hlast⟩
  rw [hentry, zero_eq, cycleSum_eq hrates, hourLength_eq, mul_finite, mul_finite, add_finite]
  split
  · rename_i hnone
    simp [hnone]
  · ring_nf

/-- The walk that the integral over a proper interval is computed by ends, and with nothing else. -/
theorem walks_iff_priceSeconds (hrates : tariff.hourly = rates.map finite) (hlt : start < stop)
    (result : Exact K) :
    tariff.Walks (finite stop) (tariff.afterCycles (finite start) (finite stop)).1
        (tariff.afterCycles (finite start) (finite stop)).2 result ↔
      result = tariff.priceSeconds (finite start) (finite stop) := by
  obtain ⟨cycles, hentry, -, hlast⟩ := afterCycles_eq hrates hlt
  have hrest : stop ≤ start + cycles * (3600 * rates.length) + 3600 * tariff.hourly.length := by
    rw [hrates, List.length_map]
    linarith
  obtain ⟨total, htotal⟩ := tariff.exists_integrateHours? stop tariff.stepLimit _
    (finite (cycles * (3600 * rates.sum))) fun _ => le_stepLimit hrest
  have hwalks := walks_of_integrateHours? htotal
  rw [priceSeconds, tariff.priceSeconds?_of_lt (lt_finite.2 hlt) rfl, hentry, htotal]
  constructor
  · exact fun h => h.unique hwalks
  · rintro rfl
    exact hwalks

/-- The computed integral is the integral of the rates. -/
theorem priceSeconds_eq (hrates : tariff.hourly = rates.map finite)
    (hrange : HoursInRange start stop) :
    tariff.priceSeconds (finite start) (finite stop) =
      finite (Cyclic.integral rates start stop) := by
  rcases lt_or_ge start stop with hlt | hge
  · have hne : rates ≠ [] := List.length_pos_iff.1 (rates_length_pos hrates)
    obtain ⟨cycles, hentry, hend, -⟩ := afterCycles_eq hrates hlt
    have hbegin : start ≤ start + cycles * (3600 * rates.length : K) :=
      le_add_of_nonneg_right (by positivity)
    have hwalks := (walks_iff_priceSeconds hrates hlt _).2 rfl
    rw [hentry] at hwalks
    rw [hwalks.eq_integral hrates (hrange.mono hbegin le_rfl), ← Cyclic.integral_cycles hne start,
      ← Cyclic.integral_add rates hbegin hend]
  · rw [priceSeconds, priceSeconds?, if_pos fun hlt => hge.not_gt (lt_finite.1 hlt),
      Cyclic.integral_of_le hge, Option.getD_some, zero_eq]

/-- The cost is the power times the integral of the rates, by kilowatt-hours. -/
theorem energyCost_eq (hrates : tariff.hourly = rates.map finite)
    (hrange : HoursInRange start stop) (power : K) :
    tariff.energyCost (finite start) (finite stop) (finite power) =
      finite (power / 3600000 * Cyclic.integral rates start stop) := by
  have hunit : (wattSecondsPerUnit : Exact K) = finite 3600000 := by
    show finite ((3600000 : ℕ) : K) = finite 3600000
    norm_num
  unfold energyCost
  split
  · rename_i hzero
    rw [zero_eq] at hzero
    obtain rfl : power = 0 := of_decide_eq_true hzero
    rw [zero_div, zero_mul, zero_eq]
  · rw [priceSeconds_eq hrates hrange, hunit, mul_finite]
    refine (if_neg (by norm_num)).trans (congrArg finite ?_)
    ring

/-- The costs of two parts of an interval add up to its own. -/
theorem energyCost_add (hrates : tariff.hourly = rates.map finite)
    (hrange : HoursInRange start stop) (hbegin : start ≤ middle) (hend : middle ≤ stop)
    (power : K) :
    tariff.energyCost (finite middle) (finite stop) (finite power) +
        tariff.energyCost (finite start) (finite middle) (finite power) =
      tariff.energyCost (finite start) (finite stop) (finite power) := by
  rw [energyCost_eq hrates hrange, energyCost_eq hrates (hrange.mono le_rfl hend),
    energyCost_eq hrates (hrange.mono hbegin le_rfl), add_finite, ← mul_add, add_comm,
    ← Cyclic.integral_add _ hbegin hend]

/-- For an accepted tariff and an interval whose hours have numbers of a word, the walk over the
hours ends with the one total that the cost is computed from, and the cost is the power times the
sum, over all hours, of the price of the hour times the seconds that it shares with the interval. An
empty or reversed interval costs nothing, and the costs of two parts of an interval add up to its
own. -/
theorem energyCost_eq_sum_hours (h : ofHourly prices = .ok tariff)
    (hrange : HoursInRange start stop) (power : K) :
    (start < stop → ∀ result,
      tariff.Walks (finite stop) (tariff.afterCycles (finite start) (finite stop)).1
          (tariff.afterCycles (finite start) (finite stop)).2 result ↔
        result = tariff.priceSeconds (finite start) (finite stop)) ∧
    tariff.energyCost (finite start) (finite stop) (finite power) =
      finite (power / 3600000 * ∑ᶠ hour : ℤ,
        Cyclic.rate (prices.map Exact.value) hour * Cyclic.secondsIn start stop hour) ∧
    (stop ≤ start →
      tariff.energyCost (finite start) (finite stop) (finite power) = finite 0) ∧
    ∀ middle, start ≤ middle → middle ≤ stop →
      tariff.energyCost (finite start) (finite stop) (finite power) =
        tariff.energyCost (finite start) (finite middle) (finite power) +
          tariff.energyCost (finite middle) (finite stop) (finite power) := by
  have hrates := hourly_of_ofHourly h
  refine ⟨walks_iff_priceSeconds hrates, energyCost_eq hrates hrange power, ?_, ?_⟩
  · intro hle
    rw [energyCost_eq hrates hrange, Cyclic.integral_of_le hle, mul_zero]
  · intro middle hbegin hend
    rw [energyCost_eq hrates hrange, energyCost_eq hrates (hrange.mono le_rfl hend),
      energyCost_eq hrates (hrange.mono hbegin le_rfl), add_finite, ← mul_add,
      ← Cyclic.integral_add _ hbegin hend]

end Prices

end Tariff

/-!
## Two rates

A tariff of two hours, the second three times as dear as the first, and an interval that begins half
an hour before zero and ends after a whole cycle and an hour more.
-/

namespace TwoRates

/-- No exponential is computed of a tariff. -/
scoped instance : Exponentials ℚ where
  exp x := x
  pow x _ := x

def tariff : Tariff (Exact ℚ) :=
  ⟨[finite 1, finite 3], List.cons_ne_nil _ _⟩

/-- The cost over the interval is that of its hours, and of its parts before and after one hour. -/
theorem cost_of_hours : Tariff.ofHourly [finite 1, finite 3] = .ok tariff ∧
    Tariff.HoursInRange (-1800 : ℚ) 9000 ∧
    (∃ total, tariff.Walks (finite 9000) (finite 5400) (finite 14400) total) ∧
    tariff.energyCost (finite (-1800)) (finite 9000) (finite 1000) = finite 6 ∧
    (1000 / 3600000 * ∑ᶠ hour : ℤ,
      Cyclic.rate [1, 3] hour * Cyclic.secondsIn (-1800) 9000 hour : ℚ) = 6 ∧
    tariff.energyCost (finite (-1800)) (finite 9000) (finite 1000) =
      tariff.energyCost (finite (-1800)) (finite 3600) (finite 1000) +
        tariff.energyCost (finite 3600) (finite 9000) (finite 1000) := by
  have haccepted : Tariff.ofHourly [finite 1, finite 3] = .ok tariff := by
    with_unfolding_all rfl
  have hrange : Tariff.HoursInRange (-1800 : ℚ) 9000 :=
    Tariff.hoursInRange_of_le (by norm_num) (by norm_num)
  have hcost : tariff.energyCost (finite (-1800)) (finite 9000) (finite 1000) = finite 6 := by
    decide +kernel
  have hentry : tariff.afterCycles (finite (-1800)) (finite 9000) =
      (finite 5400, finite 14400) := by
    decide +kernel
  obtain ⟨hwalks, hsum, -, hadd⟩ := Tariff.energyCost_eq_sum_hours haccepted hrange 1000
  have htotal := (hwalks (by norm_num) _).2 rfl
  rw [hentry] at htotal
  exact ⟨haccepted, hrange, ⟨_, htotal⟩, hcost, Exact.finite.inj (hsum.symm.trans hcost),
    hadd 3600 (by norm_num) (by norm_num)⟩

end TwoRates

end WattPlan
