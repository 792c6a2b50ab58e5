import WattPlan.Proofs.Catalog.WellFormed
import WattPlan.Proofs.Exact

/-!
# Power levels in exact numbers

A level that breaks no rule runs a job of finite length in a finite time (`PowerLevel.execTime_eq`),
and its reliability is the exponential of the failures to expect in that time, negated
(`PowerLevel.reliability_eq`). In a drafted catalog no level of a node is faster than one before it,
so a job takes at least as long at a later level: `PowerLevel.duration_le`.
-/

namespace WattPlan

open Exact

variable {K : Type} [Field K] [LinearOrder K] [FloorRing K] [Exponentials K]

namespace PowerLevel

variable {level fast slow : PowerLevel (Exact K)} {x : K}

/-- A level breaks no rule just when its numbers are finite, the speed above zero and the others not
below it. -/
theorem fault?_eq_none_iff : level.fault? = none ↔ ∃ speed power rate : K,
    level = ⟨finite speed, finite power, finite rate⟩ ∧ 0 < speed ∧ 0 ≤ power ∧ 0 ≤ rate := by
  rw [fault?_eq_none_iff_valid]
  constructor
  · intro h
    obtain ⟨speed, hspeed⟩ := isFinite_iff.1 h.finite_speed
    obtain ⟨power, hpower⟩ := isFinite_iff.1 h.finite_power
    obtain ⟨rate, hrate⟩ := isFinite_iff.1 h.finite_failureRate
    have hpos := h.speed_pos
    have hpower' := h.power_nonneg
    have hrate' := h.failureRate_nonneg
    rw [hspeed, zero_eq, lt_finite] at hpos
    rw [hpower, zero_eq, le_finite] at hpower'
    rw [hrate, zero_eq, le_finite] at hrate'
    refine ⟨speed, power, rate, ?_, hpos, hpower', hrate'⟩
    rw [← hspeed, ← hpower, ← hrate]
  · rintro ⟨speed, power, rate, rfl, hpos, hpower, hrate⟩
    rw [← lt_finite, ← zero_eq] at hpos
    rw [← le_finite, ← zero_eq] at hpower hrate
    exact ⟨rfl, hpos, rfl, hpower, rfl, hrate⟩

/-- The speed of a level that breaks no rule is above zero. -/
theorem speed_pos (h : level.fault? = none) : ∃ y, level.speed = finite y ∧ 0 < y := by
  obtain ⟨speed, power, rate, rfl, hpos, -⟩ := fault?_eq_none_iff.1 h
  exact ⟨speed, rfl, hpos⟩

/-- The failure rate of a level that breaks no rule is not negative. -/
theorem failureRate_nonneg (h : level.fault? = none) :
    ∃ rate, level.failureRate = finite rate ∧ 0 ≤ rate := by
  obtain ⟨speed, power, rate, rfl, -, -, hrate⟩ := fault?_eq_none_iff.1 h
  exact ⟨rate, rfl, hrate⟩

/-- The time that a job of a finite length takes at a level, as a number. -/
def duration (level : PowerLevel (Exact K)) (x : K) : K :=
  x / level.speed.value

/-- A job of a finite length takes a finite time. -/
theorem execTime_eq (h : level.fault? = none) (x : K) :
    level.execTime (finite x) = finite (level.duration x) := by
  obtain ⟨y, hspeed, hpos⟩ := speed_pos h
  rw [execTime, duration, hspeed, div_finite hpos.ne', value]

/-- The reliability of a level is the exponential of the failures to expect, negated. -/
theorem reliability_eq (h : level.fault? = none) (x : K) :
    level.reliability (finite x) =
      finite (Exponentials.exp (-level.failureRate.value * level.duration x)) := by
  obtain ⟨rate, hrate, -⟩ := failureRate_nonneg h
  rw [reliability, execTime_eq h, hrate]
  rfl

/-- No job takes less than no time. -/
theorem duration_nonneg [IsStrictOrderedRing K] (h : level.fault? = none) (hx : 0 ≤ x) :
    0 ≤ level.duration x := by
  obtain ⟨y, hspeed, hpos⟩ := speed_pos h
  rw [duration, hspeed]
  exact div_nonneg hx hpos.le

/-- A job takes at least as long at a slower level. -/
theorem duration_le [IsStrictOrderedRing K] (hfast : fast.fault? = none)
    (hslow : slow.fault? = none) (hspeed : slow.speed ≤ fast.speed) (hx : 0 ≤ x) :
    fast.duration x ≤ slow.duration x := by
  obtain ⟨y, hy, -⟩ := speed_pos hfast
  obtain ⟨z, hz, hpos⟩ := speed_pos hslow
  rw [hy, hz, le_finite] at hspeed
  rw [duration, duration, hy, hz]
  exact div_le_div_of_nonneg_left hx hpos hspeed

/-- A slower level that fails at least as often is no more reliable, for an exponential function that
grows with its argument. -/
theorem reliability_le [IsStrictOrderedRing K] (hexp : Monotone (Exponentials.exp : K → K))
    (hfast : fast.fault? = none) (hslow : slow.fault? = none) (hspeed : slow.speed ≤ fast.speed)
    (hrate : fast.failureRate ≤ slow.failureRate) (hx : 0 ≤ x) :
    slow.reliability (finite x) ≤ fast.reliability (finite x) := by
  obtain ⟨rate, hr, hnonneg⟩ := failureRate_nonneg hfast
  obtain ⟨rate', hr', hnonneg'⟩ := failureRate_nonneg hslow
  rw [hr, hr', le_finite] at hrate
  rw [reliability_eq hfast, reliability_eq hslow, hr, hr', le_finite]
  refine hexp ?_
  have hfailures := mul_le_mul hrate (duration_le hfast hslow hspeed hx) (duration_nonneg hfast hx)
    hnonneg'
  simp only [value, neg_mul]
  exact neg_le_neg hfailures

/-- Only a job of length 0 takes no time. -/
theorem duration_eq_zero_iff (h : level.fault? = none) : level.duration x = 0 ↔ x = 0 := by
  obtain ⟨y, hspeed, hpos⟩ := speed_pos h
  rw [duration, hspeed, div_eq_zero_iff]
  exact or_iff_left hpos.ne'

/-- Among levels in the order that is checked no level is faster than one before it. -/
theorem pairwise_of_descending {levels : List (PowerLevel (Exact K))}
    (h : descending levels = true) (hfault : ∀ level ∈ levels, level.fault? = none) :
    levels.Pairwise fun fast slow => slow.speed ≤ fast.speed := by
  induction levels with
  | nil => exact List.Pairwise.nil
  | cons first rest ih =>
      cases rest with
      | nil => exact List.pairwise_singleton _ _
      | cons second rest =>
          rw [List.forall_mem_cons] at hfault
          simp only [descending, Bool.and_eq_true, Bool.not_eq_true', decide_eq_false_iff_not] at h
          obtain ⟨y, hy, -⟩ := speed_pos hfault.1
          obtain ⟨z, hz, -⟩ := speed_pos (hfault.2 second List.mem_cons_self)
          have hle : second.speed ≤ first.speed := by
            rw [hy, hz, lt_finite, not_lt] at h
            rw [hy, hz, le_finite]
            exact h.1
          have hrest := ih h.2 hfault.2
          refine List.Pairwise.cons ?_ hrest
          rw [List.forall_mem_cons]
          refine ⟨hle, fun slow hslow => ?_⟩
          exact Exact.le_trans ((List.pairwise_cons.1 hrest).1 slow hslow) hle

end PowerLevel

namespace Catalog.Drafted

variable {catalog : Catalog (Exact K)} {node : Node (Exact K)}

/-- The speed of a level of a node is above zero. -/
theorem speed_pos (h : catalog.Drafted) (hnode : node ∈ catalog.nodes)
    {level : PowerLevel (Exact K)} (hlevel : level ∈ node.levels) :
    ∃ y, level.speed = finite y ∧ 0 < y :=
  PowerLevel.speed_pos (h.level hnode hlevel)

/-- No level of a node is faster than one before it. -/
theorem speeds_pairwise (h : catalog.Drafted) (hnode : node ∈ catalog.nodes) :
    node.levels.Pairwise fun fast slow => slow.speed ≤ fast.speed :=
  PowerLevel.pairwise_of_descending (h.descending hnode) fun _ => h.level hnode

/-- A job takes at least as long at a later level of a node. -/
theorem durations_pairwise [IsStrictOrderedRing K] (h : catalog.Drafted)
    (hnode : node ∈ catalog.nodes) {x : K} (hx : 0 ≤ x) :
    node.levels.Pairwise fun fast slow => fast.duration x ≤ slow.duration x :=
  (h.speeds_pairwise hnode).imp_of_mem fun hfast hslow hspeed =>
    PowerLevel.duration_le (h.level hnode hfast) (h.level hnode hslow) hspeed hx

end Catalog.Drafted

end WattPlan
