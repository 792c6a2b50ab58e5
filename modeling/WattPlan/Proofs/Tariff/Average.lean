import Mathlib.Data.Set.Finite.Lemmas
import Mathlib.Order.Bounds.Basic
import WattPlan.Proofs.Tariff.Cost

/-!
# The mean price over time

The mean price over a proper interval lies between the least and the greatest price in effect at
some instant of it (`Tariff.averagePrice_between`), and over whole cycles it is the mean of the
cycle, wherever they start. The walk over the hours keeps to prices in effect (`Walks.between`).
Whole cycles are added in one step, an hour at each price, so they do where each price is in effect,
as it is in a cycle whose hours have numbers of a word (`mem_pricesInEffect`). Hours beyond those
share one number: `LateCycles` is an interval of them with another mean than its one price.
-/

namespace WattPlan

open Exact
open Cyclic (hourOf)

namespace Tariff

variable {K : Type} [Field K] [LinearOrder K] [FloorRing K] [Exponentials K]
  {tariff : Tariff (Exact K)} {prices : List (Exact K)} {rates : List K}
  {start stop first last t price low high : K}

/-- The prices that are in effect at some instant of `[start, stop)`. -/
def pricesInEffect (tariff : Tariff (Exact K)) (start stop : K) : Set K :=
  {price | ∃ t, start ≤ t ∧ t < stop ∧ tariff.priceAt (finite t) = finite price}

section InEffect

/-- At every instant a price of the list is in effect. -/
theorem exists_priceAt (hrates : tariff.hourly = rates.map finite) (t : K) :
    ∃ price ∈ rates, tariff.priceAt (finite t) = finite price := by
  have hmem : tariff.priceAt (finite t) ∈ rates.map finite := by
    rw [← hrates]
    exact List.get_mem _ _
  obtain ⟨price, hprice, heq⟩ := List.mem_map.1 hmem
  exact ⟨price, hprice, heq.symm⟩

/-- The prices in effect are prices of the list. -/
theorem mem_of_mem_pricesInEffect (hrates : tariff.hourly = rates.map finite)
    (h : price ∈ tariff.pricesInEffect start stop) : price ∈ rates := by
  obtain ⟨t, -, -, hprice⟩ := h
  obtain ⟨other, hother, heq⟩ := exists_priceAt hrates t
  rw [heq] at hprice
  rwa [← Exact.finite.inj hprice]

/-- What is in effect in a part of an interval is in effect in it. -/
theorem pricesInEffect_mono (tariff : Tariff (Exact K)) (hfirst : start ≤ first)
    (hlast : last ≤ stop) :
    tariff.pricesInEffect first last ⊆ tariff.pricesInEffect start stop :=
  fun _ ⟨t, hbegin, hend, hprice⟩ => ⟨t, hfirst.trans hbegin, hend.trans_le hlast, hprice⟩

/-- One of the prices in effect is the least one, and one is the greatest. -/
theorem exists_isLeast_isGreatest (hrates : tariff.hourly = rates.map finite)
    (hlt : start < stop) :
    ∃ lowest highest, IsLeast (tariff.pricesInEffect start stop) lowest ∧
      IsGreatest (tariff.pricesInEffect start stop) highest := by
  have hfinite : (tariff.pricesInEffect start stop).Finite :=
    rates.finite_toSet.subset fun _ h => mem_of_mem_pricesInEffect hrates h
  have hnonempty : (tariff.pricesInEffect start stop).Nonempty := by
    obtain ⟨price, -, hprice⟩ := exists_priceAt hrates start
    exact ⟨price, start, le_rfl, hlt, hprice⟩
  obtain ⟨lowest, hlowest, hleast⟩ := Set.exists_min_image _ id hfinite hnonempty
  obtain ⟨highest, hhighest, hgreatest⟩ := Set.exists_max_image _ id hfinite hnonempty
  exact ⟨lowest, highest, ⟨hlowest, hleast⟩, ⟨hhighest, hgreatest⟩⟩

variable [IsStrictOrderedRing K]

/-- In a cycle whose hours are in range each price of the list is in effect. -/
theorem mem_pricesInEffect (hrates : tariff.hourly = rates.map finite)
    (hrange : HoursInRange first (first + 3600 * rates.length)) (hprice : price ∈ rates) :
    price ∈ tariff.pricesInEffect first (first + 3600 * rates.length) := by
  obtain ⟨n, hn, rfl⟩ := List.mem_iff_getElem.1 hprice
  -- The hour of the price in the cycle comes `hours` hours after the first one.
  obtain ⟨hours, hhours⟩ : ∃ hours : ℕ, ((n - hourOf first) % rates.length : ℤ) = hours :=
    Int.eq_ofNat_of_zero_le (Int.emod_nonneg _ (by omega))
  have hlt : hours < rates.length := by
    have := Int.emod_lt_of_pos (n - hourOf first) (by omega : (0 : ℤ) < rates.length)
    omega
  have hphase : hourOf first + hours = n + rates.length * -((n - hourOf first) / rates.length) := by
    have hdivide := Int.emod_add_mul_ediv (n - hourOf first) rates.length
    rw [hhours] at hdivide
    linarith
  have hend : first + 3600 * hours < first + 3600 * (rates.length : K) :=
    add_lt_add_right (mul_lt_mul_of_pos_left (Nat.cast_lt.2 hlt) (by norm_num)) first
  refine ⟨first + 3600 * hours, le_add_of_nonneg_right (by positivity), hend, ?_⟩
  rw [priceAt_eq hrates (hrange.mono (le_add_of_nonneg_right (by positivity)) le_rfl) hend,
    Cyclic.hourOf_add_hours, hphase, Cyclic.rate_add_cycles, Cyclic.rate_natCast hn]

end InEffect

section Bounds

variable [IsStrictOrderedRing K]

/-- What the walk over the hours adds lies between the bounds of the prices in effect, times the
length of the interval. -/
theorem Walks.between (hrates : tariff.hourly = rates.map finite) {total : K} {result : Exact K}
    (h : tariff.Walks (finite stop) (finite t) (finite total) result) (hle : t ≤ stop)
    (hprices : ∀ price ∈ tariff.pricesInEffect t stop, low ≤ price ∧ price ≤ high) :
    ∃ added, result = finite (total + added) ∧
      low * (stop - t) ≤ added ∧ added ≤ high * (stop - t) := by
  generalize ht : (finite t : Exact K) = instant at h
  generalize htotal : (finite total : Exact K) = sum at h
  induction h generalizing t total with
  | done instant sum hge =>
      subst ht htotal
      obtain rfl : t = stop := hle.antisymm (not_lt.1 fun hlt => hge (lt_finite.2 hlt))
      exact ⟨0, by rw [add_zero], by rw [sub_self, mul_zero], by rw [sub_self, mul_zero]⟩
  | hour instant sum result hlt _ ih =>
      subst ht htotal
      rw [lt_finite] at hlt
      obtain ⟨price, -, hprice⟩ := exists_priceAt hrates t
      obtain ⟨hlow, hhigh⟩ := hprices price ⟨t, le_rfl, hlt, hprice⟩
      rw [hourEnd_eq, min_finite, hprice, sub_finite, mul_finite, add_finite] at ih
      have hnext : t ≤ min (3600 * ((hourOf t : K) + 1)) stop :=
        le_min (Cyclic.lt_hour_end t).le hlt.le
      obtain ⟨added, hresult, hmore, hless⟩ := ih (min_le_right _ _)
        (fun other hother => hprices other (tariff.pricesInEffect_mono hnext le_rfl hother)) rfl rfl
      -- From here on it only matters that the next instant lies between `t` and `stop`.
      generalize min (3600 * ((hourOf t : K) + 1)) stop = next at *
      have hlow' := mul_le_mul_of_nonneg_right hlow (sub_nonneg.2 hnext)
      have hhigh' := mul_le_mul_of_nonneg_right hhigh (sub_nonneg.2 hnext)
      refine ⟨(next - t) * price + added, by rw [hresult, add_assoc], ?_, ?_⟩ <;> linarith

omit [FloorRing K] [Exponentials K] in
/-- What whole cycles add lies between the bounds of the prices of the list, times their length. -/
theorem cycles_between (hprices : ∀ price ∈ rates, low ≤ price ∧ price ≤ high) (cycles : ℕ) :
    low * (cycles * (3600 * rates.length)) ≤ cycles * (3600 * rates.sum) ∧
      cycles * (3600 * rates.sum) ≤ high * (cycles * (3600 * rates.length)) := by
  have hlow := rates.card_nsmul_le_sum low fun price hprice => (hprices price hprice).1
  have hhigh := rates.sum_le_card_nsmul high fun price hprice => (hprices price hprice).2
  rw [nsmul_eq_mul] at hlow hhigh
  have hscale : (0 : K) ≤ cycles * 3600 := by positivity
  constructor
  · linarith [mul_le_mul_of_nonneg_left hlow hscale]
  · linarith [mul_le_mul_of_nonneg_left hhigh hscale]

/-- The integral over a proper interval lies between the bounds of the prices in effect, times the
length of the interval, if they also bound the prices of the list where the interval is as long as
a cycle. -/
theorem priceSeconds_between (hrates : tariff.hourly = rates.map finite) (hlt : start < stop)
    (hprices : ∀ price ∈ tariff.pricesInEffect start stop, low ≤ price ∧ price ≤ high)
    (hcycle : 3600 * rates.length ≤ stop - start → ∀ price ∈ rates, low ≤ price ∧ price ≤ high) :
    ∃ total, tariff.priceSeconds (finite start) (finite stop) = finite total ∧
      low * (stop - start) ≤ total ∧ total ≤ high * (stop - start) := by
  obtain ⟨cycles, hentry, hend, -⟩ := afterCycles_eq hrates hlt
  have hwalks := (walks_iff_priceSeconds hrates hlt _).2 rfl
  rw [hentry] at hwalks
  have hbegin : start ≤ start + cycles * (3600 * rates.length : K) :=
    le_add_of_nonneg_right (by positivity)
  obtain ⟨added, hresult, hmore, hless⟩ := hwalks.between hrates hend fun price hprice =>
    hprices price (tariff.pricesInEffect_mono hbegin le_rfl hprice)
  have hwhole : low * (cycles * (3600 * rates.length)) ≤ cycles * (3600 * rates.sum) ∧
      cycles * (3600 * rates.sum) ≤ high * (cycles * (3600 * rates.length)) := by
    rcases cycles.eq_zero_or_pos with rfl | hpos
    · simp
    · have hone : (3600 * rates.length : K) ≤ cycles * (3600 * rates.length) :=
        le_mul_of_one_le_left (by positivity) (Nat.one_le_cast.2 hpos)
      exact cycles_between (hcycle (by linarith)) cycles
  exact ⟨_, hresult, by linarith [hwhole.1], by linarith [hwhole.2]⟩

/-- Over whole cycles each price of the list is integrated for an hour of each cycle. -/
theorem priceSeconds_of_cycles (hrates : tariff.hourly = rates.map finite) (hlt : start < stop)
    {cycles : ℕ} (hstop : stop = start + cycles * (3600 * rates.length)) :
    tariff.priceSeconds (finite start) (finite stop) = finite (cycles * (3600 * rates.sum)) := by
  obtain ⟨whole, hentry, hend, hlast⟩ := afterCycles_eq hrates hlt
  have hpos : (0 : K) < 3600 * rates.length :=
    mul_pos (by norm_num) (Nat.cast_pos.2 (rates_length_pos hrates))
  obtain rfl : whole = cycles := by
    rw [hstop, add_le_add_iff_left, mul_le_mul_iff_left₀ hpos, Nat.cast_le] at hend
    rw [hstop, add_lt_add_iff_left, mul_lt_mul_iff_left₀ hpos] at hlast
    have hlt : cycles < whole + 1 := by exact_mod_cast hlast
    omega
  have hwalks := (walks_iff_priceSeconds hrates hlt _).2 rfl
  rw [hentry, ← hstop] at hwalks
  exact hwalks.unique (.done _ _ (lt_irrefl stop))

end Bounds

section Mean

variable [IsStrictOrderedRing K]

/-- The mean price over a proper interval is the integral over its length. -/
theorem averagePrice_eq (hlt : start < stop) {total : K}
    (h : tariff.priceSeconds (finite start) (finite stop) = finite total) :
    tariff.averagePrice (finite start) (finite stop) = finite (total / (stop - start)) := by
  have hstop : Scalar.isFinite (finite stop : Exact K) = true := rfl
  unfold averagePrice
  rw [if_neg (not_not.2 (lt_finite.2 hlt)), hstop, if_neg (by decide), h, sub_finite,
    div_finite (sub_pos.2 hlt).ne']

omit [IsStrictOrderedRing K] in
/-- The mean price over a cycle is the mean of the prices of the list. -/
theorem meanPrice_eq (hrates : tariff.hourly = rates.map finite) :
    tariff.meanPrice = finite (rates.sum / rates.length) := by
  have hlength : (rates.length : K) ≠ 0 := Nat.cast_ne_zero.2 (rates_length_pos hrates).ne'
  rw [meanPrice, Scalar.mean, hrates, sum_map_finite, ofNat_eq, List.length_map,
    div_finite hlength]

/-- For an accepted tariff and a proper interval, the mean price is the mean of the cycle if the
interval is a number of whole cycles, wherever it starts. It lies between the least and the greatest
price in effect at some instant of the interval, unless the interval is as long as a cycle and no
cycle in it has hours with numbers of a word. -/
theorem averagePrice_between (h : ofHourly prices = .ok tariff) (hlt : start < stop) :
    ((3600 * prices.length ≤ stop - start →
        ∃ first, start ≤ first ∧ first + 3600 * prices.length ≤ stop ∧
          HoursInRange first (first + 3600 * prices.length)) →
      ∃ lowest highest average,
        IsLeast (tariff.pricesInEffect start stop) lowest ∧
        IsGreatest (tariff.pricesInEffect start stop) highest ∧
        tariff.averagePrice (finite start) (finite stop) = finite average ∧
        lowest ≤ average ∧ average ≤ highest) ∧
    ∀ cycles : ℕ, stop - start = cycles * (3600 * prices.length) →
      tariff.averagePrice (finite start) (finite stop) = tariff.meanPrice := by
  have hrates := hourly_of_ofHourly h
  have hlength : ((prices.map Exact.value).length : K) = prices.length := by rw [List.length_map]
  have hpos : 0 < stop - start := sub_pos.2 hlt
  rw [← hlength]
  constructor
  · intro hcycle
    obtain ⟨lowest, highest, hlowest, hhighest⟩ := exists_isLeast_isGreatest hrates hlt
    have hbounds : ∀ price ∈ tariff.pricesInEffect start stop, lowest ≤ price ∧ price ≤ highest :=
      fun price hprice => ⟨hlowest.2 hprice, hhighest.2 hprice⟩
    obtain ⟨total, htotal, hmore, hless⟩ := priceSeconds_between hrates hlt hbounds
      fun hlong price hprice => by
        obtain ⟨first, hfirst, hlast, hrange⟩ := hcycle hlong
        exact hbounds price (tariff.pricesInEffect_mono hfirst hlast
          (mem_pricesInEffect hrates hrange hprice))
    exact ⟨lowest, highest, _, hlowest, hhighest, averagePrice_eq hlt htotal,
      (le_div_iff₀ hpos).2 hmore, (div_le_iff₀ hpos).2 hless⟩
  · intro cycles hcycles
    rw [averagePrice_eq hlt (priceSeconds_of_cycles hrates hlt (eq_add_of_sub_eq' hcycles)),
      hcycles, meanPrice_eq hrates]
    have hcount : (cycles : K) ≠ 0 := by
      rintro hzero
      rw [hzero, zero_mul] at hcycles
      exact hpos.ne' hcycles
    rw [mul_div_mul_left _ _ hcount, mul_div_mul_left _ _ (by norm_num)]

end Mean

end Tariff

/-!
## Two hours

A tariff of two hours, the second twice as dear as the first. One interval begins half an hour
before zero, the other one after the last number of an hour, where the second price stays in effect.
-/

namespace LateCycles

open Exact.WithoutExponentials

def tariff : Tariff (Exact ℚ) :=
  ⟨[finite 4, finite 8], List.cons_ne_nil _ _⟩

theorem tariff_accepted : Tariff.ofHourly [finite 4, finite 8] = .ok tariff := by
  with_unfolding_all rfl

/-- An instant after the last number of an hour. -/
def late : ℚ :=
  40000000000000000000000

/-- The price of the last number is in effect from `late` on. -/
theorem priceAt_late {t : ℚ} (h : late ≤ t) : tariff.priceAt (finite t) = finite 8 := by
  have hlast : 9223372036854775807 ≤ hourOf t := by
    rw [Cyclic.le_hourOf]
    exact le_trans (by norm_num [late]) h
  rw [Tariff.priceAt, Tariff.hourNumber_eq, min_eq_right hlast]
  with_unfolding_all rfl

/-- After the last number the mean price over many cycles and half a minute is about the mean of the
cycle, but only the second price is in effect. -/
theorem late_average_misses : Tariff.ofHourly [finite 4, finite 8] = .ok tariff ∧
    late < late + 1291845632 ∧ tariff.pricesInEffect late (late + 1291845632) = {8} ∧
    tariff.averagePrice (finite late) (finite (late + 1291845632)) =
      finite (121110529 / 20185088) ∧
    (121110529 / 20185088 : ℚ) < 8 := by
  have hlt : late < late + 1291845632 := by norm_num
  refine ⟨tariff_accepted, hlt, ?_, by decide +kernel, by norm_num⟩
  ext price
  constructor
  · rintro ⟨t, hbegin, -, hprice⟩
    rw [priceAt_late hbegin] at hprice
    exact (Exact.finite.inj hprice).symm
  · rintro rfl
    exact ⟨late, le_rfl, hlt, priceAt_late le_rfl⟩

/-- Over less than a cycle the mean price keeps to the price in effect, there as anywhere. -/
example : tariff.averagePrice (finite late) (finite (late + 5400)) = finite 8 := by
  decide +kernel

/-- From half an hour before zero the mean price over two hours and a half lies between the two
prices, and over two cycles it is the mean of the cycle. -/
theorem early_average_between : Tariff.ofHourly [finite 4, finite 8] = .ok tariff ∧
    (-1800 : ℚ) < 7200 ∧ (3600 * 2 : ℚ) ≤ 7200 - -1800 ∧
    Tariff.HoursInRange (-1800 : ℚ) (-1800 + 3600 * 2) ∧
    (∃ lowest highest,
      IsLeast (tariff.pricesInEffect (-1800) 7200) lowest ∧
      IsGreatest (tariff.pricesInEffect (-1800) 7200) highest ∧
      tariff.averagePrice (finite (-1800)) (finite 7200) = finite (32 / 5) ∧
      lowest ≤ 32 / 5 ∧ 32 / 5 ≤ highest) ∧
    (-1800 : ℚ) < 12600 ∧ (12600 - -1800 : ℚ) = (2 : ℕ) * (3600 * (2 : ℕ)) ∧
    tariff.averagePrice (finite (-1800)) (finite 12600) = tariff.meanPrice ∧
    tariff.meanPrice = finite 6 := by
  have hlt : (-1800 : ℚ) < 7200 := by norm_num
  have hlong : (-1800 : ℚ) < 12600 := by norm_num
  have hrange : Tariff.HoursInRange (-1800 : ℚ) (-1800 + 3600 * 2) :=
    Tariff.hoursInRange_of_le (by norm_num) (by norm_num)
  have hcycles : (12600 - -1800 : ℚ) = (2 : ℕ) * (3600 * (2 : ℕ)) := by norm_num
  obtain ⟨lowest, highest, average, hlowest, hhighest, haverage, hmore, hless⟩ :=
    (Tariff.averagePrice_between tariff_accepted hlt).1 fun _ =>
      ⟨-1800, le_rfl, by norm_num, hrange⟩
  have hvalue : tariff.averagePrice (finite (-1800)) (finite 7200) = finite (32 / 5) := by
    decide +kernel
  obtain rfl := Exact.finite.inj (haverage.symm.trans hvalue)
  exact ⟨tariff_accepted, hlt, by norm_num, hrange,
    ⟨lowest, highest, hlowest, hhighest, hvalue, hmore, hless⟩, hlong, hcycles,
    (Tariff.averagePrice_between tariff_accepted hlong).2 2 hcycles, by decide +kernel⟩

end LateCycles

end WattPlan
