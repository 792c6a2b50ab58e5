import Mathlib.Algebra.BigOperators.Finprod
import Mathlib.Algebra.Order.Floor.Ring
import Mathlib.Data.Int.Interval
import Mathlib.Data.List.GetD
import Mathlib.Tactic.Linarith
import Mathlib.Tactic.Positivity
import Mathlib.Tactic.Ring

/-!
# Integrals of cyclic rates

A list of hourly rates that repeats without end gives a rate to every hour, the hours before zero
included (`Cyclic.rate`). Its integral over `[start, stop)` is the sum, over all hours, of the rate
of the hour times the seconds that the hour shares with the interval (`Cyclic.integral`).

The integral is additive (`integral_add`), it is the rate times the length where an interval stays
in one hour (`integral_of_hour`), and a whole number of cycles has the same integral whatever the
instant they start at (`integral_cycles`).
-/

namespace WattPlan.Cyclic

variable {K : Type} [Field K] [LinearOrder K]

/-- The rate of an hour, where the rates are repeated before and after. -/
def rate (rates : List K) (hour : ℤ) : K :=
  rates.getD (hour % (rates.length : ℤ)).toNat 0

/-- The seconds that an hour shares with `[start, stop)`. -/
def secondsIn (start stop : K) (hour : ℤ) : K :=
  max 0 (min stop (3600 * (hour + 1)) - max start (3600 * hour))

/-- The number of the hour of an instant. -/
def hourOf [FloorRing K] (t : K) : ℤ :=
  ⌊t / 3600⌋

/-- The rates integrated over `[start, stop)`, in rate times seconds. -/
noncomputable def integral (rates : List K) (start stop : K) : K :=
  ∑ᶠ hour : ℤ, rate rates hour * secondsIn start stop hour

variable {rates : List K} {start middle stop : K} {hour : ℤ}

section Rates

omit [LinearOrder K] in
/-- The rates of the hours repeat with every cycle. -/
theorem rate_add_cycles (rates : List K) (hour cycles : ℤ) :
    rate rates (hour + rates.length * cycles) = rate rates hour := by
  rw [rate, Int.add_mul_emod_self_left, rate]

omit [LinearOrder K] in
/-- The hours of the first cycle have the rates of the list. -/
theorem rate_natCast {n : ℕ} (hn : n < rates.length) : rate rates n = rates[n] := by
  have hmod : ((n : ℤ) % (rates.length : ℤ)).toNat = n := by
    rw [← Int.natCast_emod, Int.toNat_natCast, Nat.mod_eq_of_lt hn]
  rw [rate, hmod, List.getD_eq_getElem rates 0 hn]

end Rates

section Seconds

variable [IsStrictOrderedRing K]

/-- An empty or reversed interval shares nothing with an hour. -/
theorem secondsIn_of_le (h : stop ≤ start) : secondsIn start stop hour = 0 :=
  max_eq_left (sub_nonpos.2 ((min_le_left _ _).trans (h.trans (le_max_left _ _))))

/-- An hour that ends before an interval shares nothing with it. -/
theorem secondsIn_of_end_le (h : 3600 * ((hour : K) + 1) ≤ start) :
    secondsIn start stop hour = 0 :=
  max_eq_left (sub_nonpos.2 ((min_le_right _ _).trans (h.trans (le_max_left _ _))))

/-- An hour that begins after an interval shares nothing with it. -/
theorem secondsIn_of_le_begin (h : stop ≤ 3600 * (hour : K)) : secondsIn start stop hour = 0 :=
  max_eq_left (sub_nonpos.2 ((min_le_left _ _).trans (h.trans (le_max_right _ _))))

/-- An hour shares all of an interval that lies within it. -/
theorem secondsIn_of_mem (hbegin : 3600 * (hour : K) ≤ start) (h : start ≤ stop)
    (hend : stop ≤ 3600 * ((hour : K) + 1)) : secondsIn start stop hour = stop - start := by
  rw [secondsIn, min_eq_left hend, max_eq_left hbegin, max_eq_right (sub_nonneg.2 h)]

/-- The instant, held to an hour. -/
def clamp (t : K) (hour : ℤ) : K :=
  max (3600 * hour) (min t (3600 * (hour + 1)))

/-- An hour shares with an interval what lies between its ends, held to the hour. -/
theorem secondsIn_eq_sub (h : start ≤ stop) :
    secondsIn start stop hour = clamp stop hour - clamp start hour := by
  have hlength : 3600 * (hour : K) ≤ 3600 * ((hour : K) + 1) := by linarith
  rcases le_total stop (3600 * (hour : K)) with hbefore | hbegin
  · rw [secondsIn_of_le_begin hbefore, clamp, clamp, max_eq_left ((min_le_left _ _).trans hbefore),
      max_eq_left ((min_le_left _ _).trans (h.trans hbefore)), sub_self]
  · rcases le_total (3600 * ((hour : K) + 1)) start with hafter | hend
    · rw [secondsIn_of_end_le hafter, clamp, clamp, min_eq_right hafter,
        min_eq_right (hafter.trans h), sub_self]
    · have hshared : max start (3600 * (hour : K)) ≤ min stop (3600 * ((hour : K) + 1)) :=
        max_le (le_min h hend) (le_min hbegin hlength)
      rw [secondsIn, max_eq_right (sub_nonneg.2 hshared), clamp, clamp, min_eq_left hend,
        max_eq_right (le_min hbegin hlength), max_comm]

/-- What an hour shares with an interval is what it shares with the two parts of it. -/
theorem secondsIn_add (h : start ≤ middle) (h' : middle ≤ stop) :
    secondsIn start stop hour = secondsIn start middle hour + secondsIn middle stop hour := by
  rw [secondsIn_eq_sub (h.trans h'), secondsIn_eq_sub h, secondsIn_eq_sub h', add_comm,
    sub_add_sub_cancel]

/-- An interval and an hour that are moved together share as much as before. -/
theorem secondsIn_shift (start stop : K) (hour hours : ℤ) :
    secondsIn (start + 3600 * hours) (stop + 3600 * hours) (hour + hours) =
      secondsIn start stop hour := by
  have hbegin : 3600 * ((hour + hours : ℤ) : K) = 3600 * (hour : K) + 3600 * hours := by
    push_cast
    ring
  have hend : 3600 * (((hour + hours : ℤ) : K) + 1) =
      3600 * ((hour : K) + 1) + 3600 * hours := by
    push_cast
    ring
  rw [secondsIn, hbegin, hend, min_add_add_right, max_add_add_right, add_sub_add_right_eq_sub,
    secondsIn]

end Seconds

section Integral

variable [IsStrictOrderedRing K]

/-- An empty or reversed interval has the integral 0. -/
theorem integral_of_le (h : stop ≤ start) : integral rates start stop = 0 := by
  unfold integral
  simp only [secondsIn_of_le h, mul_zero, finsum_zero]

/-- The integral over an interval within an hour is the rate of the hour times the length. -/
theorem integral_of_hour (hbegin : 3600 * (hour : K) ≤ start) (h : start ≤ stop)
    (hend : stop ≤ 3600 * ((hour : K) + 1)) :
    integral rates start stop = rate rates hour * (stop - start) := by
  unfold integral
  rw [finsum_eq_single _ hour, secondsIn_of_mem hbegin h hend]
  intro other hother
  rcases lt_or_gt_of_ne hother with hlt | hgt
  · have hle : (other : K) + 1 ≤ hour := by exact_mod_cast hlt
    rw [secondsIn_of_end_le (by linarith), mul_zero]
  · have hle : (hour : K) + 1 ≤ other := by exact_mod_cast hgt
    rw [secondsIn_of_le_begin (by linarith), mul_zero]

/-- The integral does not change when the interval is moved by whole cycles. -/
theorem integral_shift (rates : List K) (start stop : K) (cycles : ℤ) :
    integral rates (start + 3600 * (rates.length * cycles : ℤ))
      (stop + 3600 * (rates.length * cycles : ℤ)) = integral rates start stop := by
  unfold integral
  rw [← finsum_comp_equiv (Equiv.addRight (rates.length * cycles : ℤ))]
  refine finsum_congr fun hour => ?_
  rw [Equiv.coe_addRight, rate_add_cycles, secondsIn_shift]

variable [FloorRing K]

/-- An instant is in an hour or a later one just when the hour has begun. -/
theorem le_hourOf {t : K} : hour ≤ hourOf t ↔ 3600 * (hour : K) ≤ t := by
  rw [hourOf, Int.le_floor, le_div_iff₀' (by norm_num)]

/-- An instant is in an hour before another one just when the latter has not begun. -/
theorem hourOf_lt {t : K} : hourOf t < hour ↔ t < 3600 * (hour : K) := by
  rw [← not_le, le_hourOf, not_le]

/-- An hour ends after the instants that have its number. -/
theorem lt_hour_end (t : K) : t < 3600 * ((hourOf t : K) + 1) := by
  exact_mod_cast hourOf_lt.1 (Int.lt_add_one_iff.2 (le_refl (hourOf t)))

/-- An hour begins at or before the instants that have its number. -/
theorem hour_begin_le (t : K) : 3600 * (hourOf t : K) ≤ t :=
  le_hourOf.1 le_rfl

/-- An instant some hours later has the number of an hour that comes as many hours later. -/
theorem hourOf_add_hours (t : K) (hours : ℕ) : hourOf (t + 3600 * hours) = hourOf t + hours := by
  rw [hourOf, add_div, mul_div_cancel_left₀ _ (by norm_num), Int.floor_add_natCast, hourOf]

/-- Only finitely many hours share anything with an interval. -/
theorem finite_support (rates : List K) (start stop : K) :
    (Function.support fun hour : ℤ => rate rates hour * secondsIn start stop hour).Finite := by
  refine (Set.finite_Icc (hourOf start) (hourOf stop)).subset fun hour hhour => ?_
  have hshared : secondsIn start stop hour ≠ 0 := right_ne_zero_of_mul hhour
  constructor
  · by_contra hlt
    have hle : (hour : K) + 1 ≤ hourOf start := by exact_mod_cast not_le.1 hlt
    exact hshared (secondsIn_of_end_le (by linarith [hour_begin_le start]))
  · by_contra hlt
    have hle : (hourOf stop : K) + 1 ≤ hour := by exact_mod_cast not_le.1 hlt
    exact hshared (secondsIn_of_le_begin (by linarith [lt_hour_end stop]))

/-- The integral over an interval is the sum of those over the two parts of it. -/
theorem integral_add (rates : List K) (h : start ≤ middle) (h' : middle ≤ stop) :
    integral rates start stop = integral rates start middle + integral rates middle stop := by
  unfold integral
  rw [← finsum_add_distrib (finite_support rates start middle) (finite_support rates middle stop)]
  refine finsum_congr fun hour => ?_
  rw [secondsIn_add h h', mul_add]

/-- The integral over the first hours of the first cycle. -/
theorem integral_take {n : ℕ} (hn : n ≤ rates.length) :
    integral rates 0 (3600 * n) = 3600 * (rates.take n).sum := by
  induction n with
  | zero => simp [integral_of_le]
  | succ n ih =>
      have hstep : (3600 * n : K) ≤ 3600 * (n + 1 : ℕ) := by
        push_cast
        linarith
      have hhour : integral rates (3600 * n) (3600 * (n + 1 : ℕ)) = rates[n] * 3600 := by
        rw [integral_of_hour (by simp : 3600 * ((n : ℤ) : K) ≤ 3600 * n) hstep (by simp),
          rate_natCast hn]
        push_cast
        ring
      rw [integral_add rates (by positivity) hstep, ih (Nat.le_of_succ_le hn), hhour,
        List.sum_take_succ rates n hn]
      ring

/-- The integral over a cycle is the same whatever the instant it starts at. -/
theorem integral_cycle (hne : rates ≠ []) (start : K) :
    integral rates start (start + 3600 * rates.length) = 3600 * rates.sum := by
  have hpos : (0 : K) < 3600 * rates.length :=
    mul_pos (by norm_num) (Nat.cast_pos.2 (List.length_pos_iff.2 hne))
  -- The cycle of the list that `start` lies in runs from `first` to `last`.
  obtain ⟨cycles, first, last, hfirst, hlast, hbegin, hend⟩ : ∃ (cycles : ℤ) (first last : K),
      first = 3600 * (rates.length * cycles : ℤ) ∧ last = first + 3600 * rates.length ∧
        first ≤ start ∧ start ≤ last := by
    refine ⟨⌊start / (3600 * rates.length)⌋, _, _, rfl, rfl, ?_, ?_⟩
    · have hle := Int.floor_le (start / (3600 * rates.length))
      rw [le_div_iff₀ hpos] at hle
      push_cast
      linarith
    · have hlt := Int.lt_floor_add_one (start / (3600 * rates.length))
      rw [div_lt_iff₀ hpos] at hlt
      push_cast
      linarith
  have hbehind :
      integral rates last (start + 3600 * rates.length) = integral rates first start := by
    have hshift := integral_shift rates first start 1
    rwa [mul_one, Int.cast_natCast, ← hlast] at hshift
  calc integral rates start (start + 3600 * rates.length)
    _ = integral rates start last + integral rates last (start + 3600 * rates.length) :=
        integral_add rates hend (by linarith)
    _ = integral rates first start + integral rates start last := by rw [hbehind, add_comm]
    _ = integral rates first last := (integral_add rates hbegin hend).symm
    _ = integral rates 0 (3600 * rates.length) := by
        have hshift := integral_shift rates 0 (3600 * rates.length : K) cycles
        rwa [← hfirst, zero_add, add_comm, ← hlast] at hshift
    _ = 3600 * rates.sum := by rw [integral_take le_rfl, List.take_length]

/-- The integral over whole cycles is that many times the integral over one. -/
theorem integral_cycles (hne : rates ≠ []) (start : K) (cycles : ℕ) :
    integral rates start (start + cycles * (3600 * rates.length)) =
      cycles * (3600 * rates.sum) := by
  have hpos : (0 : K) ≤ 3600 * rates.length := by positivity
  induction cycles with
  | zero => simp [integral_of_le]
  | succ cycles ih =>
      have hmiddle : start ≤ start + cycles * (3600 * rates.length : K) :=
        le_add_of_nonneg_right (mul_nonneg (Nat.cast_nonneg _) hpos)
      have hstop : start + ((cycles + 1 : ℕ) : K) * (3600 * rates.length) =
          start + cycles * (3600 * rates.length : K) + 3600 * rates.length := by
        push_cast
        ring
      rw [hstop, integral_add rates hmiddle (le_add_of_nonneg_right hpos), ih, integral_cycle hne]
      push_cast
      ring

end Integral

end WattPlan.Cyclic
