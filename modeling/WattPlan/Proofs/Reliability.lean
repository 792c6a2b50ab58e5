import Mathlib.Analysis.SpecialFunctions.Pow.Real
import WattPlan.Proofs.Exact
import WattPlan.Reliability

/-!
# Sub-goals that multiply back to the goal

Let the factor of each job be a root of the goal. As long as the number of jobs to come fits in a
signed word, a sub-goal is the product of the factors up to its job over what has been reached
before (`ReliabilityBudget.subGoal_eq_div`). So a job that reaches its sub-goal keeps what is
reached together at or above the product of as many factors, and the next sub-goal is no larger
than the factor. The sub-goal of the last job leaves no jobs to come: whatever the sub-goals before
it were, it brings the product to the goal (`ReliabilityBudget.subGoals_sound`).

With more jobs the word turns negative and the factors of the jobs to come count inversely. Then
the first sub-goals ask for too little and a later one for more than the factor.
-/

namespace WattPlan

open Exact

variable {K : Type} [Field K] [LinearOrder K] [FloorRing K] [Exponentials K]

namespace Exact

/-- Repeated squaring multiplies with the power. -/
theorem powNatFrom_finite {fuel n : Nat} (h : n < fuel) (x r : K) :
    Scalar.powNatFrom fuel (finite x) n (finite r) = finite (r * x ^ n) := by
  induction fuel generalizing n x r with
  | zero => exact absurd h (Nat.not_lt_zero n)
  | succ fuel ih =>
      have hpow : x ^ n = (x * x) ^ (n / 2) * x ^ (n % 2) := by
        rw [← pow_two, ← pow_mul, ← pow_add, Nat.div_add_mod]
      have hfactor : (if n % 2 = 1 then finite r * finite x else finite r : Exact K) =
          finite (r * x ^ (n % 2)) := by
        rcases Nat.mod_two_eq_zero_or_one n with hmod | hmod <;> simp [hmod]
      rw [Scalar.powNatFrom, hfactor, hpow]
      split
      · rename_i hhalf
        rw [hhalf, pow_zero, one_mul]
      · rw [mul_finite, ih (by omega)]
        congr 1
        ring

/-- A power with a natural exponent is that of the field. -/
theorem powNat_finite (x : K) (n : Nat) :
    Scalar.powNat (finite x : Exact K) n = finite (x ^ n) := by
  rw [Scalar.powNat, one_eq, powNatFrom_finite n.lt_succ_self, one_mul]

/-- A power with an integer exponent is that of the field. -/
theorem powInt_finite {x : K} (hx : x ≠ 0) (n : Int) :
    Scalar.powInt (finite x : Exact K) n = finite (x ^ n) := by
  rw [Scalar.powInt, powNat_finite]
  split
  · rename_i hneg
    rw [one_eq, div_finite (pow_ne_zero _ hx), one_div, ← zpow_natCast,
      Int.ofNat_natAbs_of_nonpos hneg.le, zpow_neg, inv_inv]
  · rename_i hneg
    rw [← zpow_natCast, Int.natAbs_of_nonneg (not_lt.1 hneg)]

end Exact

namespace ReliabilityBudget

/-- A positive factor is the root of a goal, and the power function gives it as that. -/
structure IsRoot (goal : K) (count : Nat) (factor : K) : Prop where
  pow_eq : Exponentials.pow goal (1 / count) = factor
  pos : 0 < factor
  factor_pow : factor ^ count = goal

/-- The jobs to come are counted right if their number is below the sign of the word. -/
theorem remainingAfter_of_lt {α : Type} {budget : ReliabilityBudget α} {committed : Nat}
    (h : budget.jobs - (committed + 1) < 2 ^ 31) :
    budget.remainingAfter committed = (budget.jobs - (committed + 1) : Nat) := by
  have hword : (Nat.pow 2 32 : Nat) = 4294967296 := rfl
  unfold remainingAfter
  rw [hword]
  exact Int.bmod_eq_of_le (by omega) (by omega)

variable [IsStrictOrderedRing K] {goal factor achieved r : K} {count i : Nat} {rs : List K}

omit [FloorRing K] in
/-- A goal with a root is positive. -/
theorem IsRoot.goal_pos (h : IsRoot goal count factor) : 0 < goal :=
  h.factor_pow ▸ pow_pos h.pos count

/-- The factor of each job is the root of the goal. -/
theorem perJob_eq (hroot : IsRoot goal count factor) (hcount : 0 < count) :
    (ofGoal (finite goal) count).perJob = finite factor := by
  have hne : (count : K) ≠ 0 := Nat.cast_ne_zero.2 hcount.ne'
  simp only [ofGoal, share, if_neg hcount.ne', zero_eq, lt_finite, if_pos hroot.goal_pos, one_eq,
    ofNat_eq, div_finite hne]
  exact congrArg finite hroot.pow_eq

/-- The sub-goal is the goal over what is reached and the factors of the jobs to come. -/
theorem subGoal_eq (hroot : IsRoot goal count factor) (hcount : 0 < count)
    (hachieved : 0 < achieved) (i : Nat) :
    (ofGoal (finite goal) count).subGoal (finite achieved) i =
      finite (goal / (achieved * factor ^ (ofGoal (finite goal) count).remainingAfter i)) := by
  have hgoal : ¬ (finite goal : Exact K) ≤ 0 := by
    rw [zero_eq, le_finite, not_le]
    exact hroot.goal_pos
  rw [subGoal, perJob_eq hroot hcount, powInt_finite hroot.pos.ne', mul_finite]
  exact (if_neg hgoal).trans (div_finite (mul_pos hachieved (zpow_pos hroot.pos _)).ne')

/-- The sub-goal is the product of the factors up to the job over what is reached, if the number of
jobs to come is below the sign of the word. -/
theorem subGoal_eq_div (hroot : IsRoot goal count factor) (hsmall : count ≤ 2 ^ 31) (hi : i < count)
    (hachieved : 0 < achieved) :
    (ofGoal (finite goal) count).subGoal (finite achieved) i =
      finite (factor ^ (i + 1) / achieved) := by
  have hremaining : (ofGoal (finite goal : Exact K) count).remainingAfter i =
      (count - (i + 1) : Nat) :=
    remainingAfter_of_lt (show count - (i + 1) < 2 ^ 31 by omega)
  have hsplit : goal = factor ^ (i + 1) * factor ^ (count - (i + 1)) := by
    rw [← pow_add, Nat.add_sub_cancel' hi, hroot.factor_pow]
  have hne := (pow_pos hroot.pos (count - (i + 1))).ne'
  rw [subGoal_eq hroot (Nat.zero_lt_of_lt hi) hachieved, hremaining, zpow_natCast]
  nth_rewrite 1 [hsplit]
  rw [mul_div_mul_right _ _ hne]

omit [IsStrictOrderedRing K] in
/-- The sub-goal of the last job leaves no factors to others, so it is the goal over what is
reached. -/
theorem subGoal_last (hgoal : 0 < goal) (hachieved : 0 < achieved) (count : Nat) :
    (ofGoal (finite goal) (count + 1)).subGoal (finite achieved) count =
      finite (goal / achieved) := by
  have hnone : (ofGoal (finite goal : Exact K) (count + 1)).remainingAfter count = 0 := by
    show Int.bmod ((count + 1 - (count + 1) : Nat) : Int) _ = 0
    rw [Nat.sub_self, Int.natCast_zero, Int.zero_bmod]
  have hpower : ∀ a : Exact K, Scalar.powInt a 0 = 1 := fun _ => rfl
  have hpositive : ¬ (finite goal : Exact K) ≤ 0 := by
    rw [zero_eq, le_finite, not_le]
    exact hgoal
  rw [subGoal, hnone, hpower, one_eq, mul_finite, mul_one]
  exact (if_neg hpositive).trans (div_finite hachieved.ne')

/-- A last reliability that does not fall short of its sub-goal brings the product to the goal. -/
theorem goal_le_mul (hachieved : 0 < achieved)
    (h : ¬ (finite r : Exact K) <
      (ofGoal (finite goal) (count + 1)).subGoal (finite achieved) count) :
    goal ≤ achieved * r := by
  rcases le_or_gt goal 0 with hgoal | hgoal
  · have hnone : (ofGoal (finite goal) (count + 1)).subGoal (finite achieved) count = 0 :=
      if_pos (show (finite goal : Exact K) ≤ 0 by rwa [zero_eq])
    rw [hnone, zero_eq, lt_finite, not_lt] at h
    exact hgoal.trans (mul_nonneg hachieved.le h)
  · rw [subGoal_last hgoal hachieved, lt_finite, not_lt, div_le_iff₀ hachieved] at h
    rwa [mul_comm]

/-!
## One job after another

The reliabilities of the jobs are listed as they are placed. What is reached before a job is the
product of those in front of it.
-/

/-- Each reliability reaches the sub-goal that the ones before it leave. -/
def Reaches (budget : ReliabilityBudget (Exact K)) (rs : List K) : Prop :=
  ∀ i r, rs[i]? = some r → budget.subGoal (finite (rs.take i).prod) i ≤ finite r

/-- Each reliability is the sub-goal that the ones before it leave. -/
def Meets (budget : ReliabilityBudget (Exact K)) (rs : List K) : Prop :=
  ∀ i r, rs[i]? = some r → budget.subGoal (finite (rs.take i).prod) i = finite r

omit [IsStrictOrderedRing K] in
/-- What meets its sub-goals reaches them. -/
theorem Meets.reaches {budget : ReliabilityBudget (Exact K)} (h : Meets budget rs) :
    Reaches budget rs :=
  fun i r hr => (h i r hr).symm ▸ le_finite.2 le_rfl

omit [FloorRing K] [Exponentials K] in
/-- What is reached before a job is positive. -/
theorem prod_take_pos (hpos : ∀ r ∈ rs, 0 < r) (i : Nat) : 0 < (rs.take i).prod :=
  List.prod_pos fun r hr => hpos r (List.mem_of_mem_take hr)

/-- Reliabilities that reach their sub-goals keep the product at or above that of the factors. -/
theorem Reaches.pow_le (hroot : IsRoot goal count factor) (hsmall : count ≤ 2 ^ 31)
    (h : Reaches (ofGoal (finite goal) count) rs) (hlength : rs.length = count)
    (hpos : ∀ r ∈ rs, 0 < r) (hi : i ≤ count) : factor ^ i ≤ (rs.take i).prod := by
  cases i with
  | zero => simp
  | succ i =>
      have hlt : i < rs.length := hlength ▸ hi
      have hreach := h i rs[i] (List.getElem?_eq_getElem hlt)
      rw [subGoal_eq_div hroot hsmall hi (prod_take_pos hpos i), le_finite,
        div_le_iff₀ (prod_take_pos hpos i)] at hreach
      rw [List.prod_take_succ rs i hlt, mul_comm]
      exact hreach

/-- Reliabilities that are their sub-goals are the factor. -/
theorem Meets.prod_take (hroot : IsRoot goal count factor) (hsmall : count ≤ 2 ^ 31)
    (h : Meets (ofGoal (finite goal) count) rs) (hlength : rs.length = count)
    (hpos : ∀ r ∈ rs, 0 < r) (hi : i ≤ count) : (rs.take i).prod = factor ^ i := by
  cases i with
  | zero => simp
  | succ i =>
      have hlt : i < rs.length := hlength ▸ hi
      have hmeet := h i rs[i] (List.getElem?_eq_getElem hlt)
      rw [subGoal_eq_div hroot hsmall hi (prod_take_pos hpos i), finite.injEq] at hmeet
      rw [List.prod_take_succ rs i hlt, ← hmeet, mul_div_cancel₀ _ (prod_take_pos hpos i).ne']

/-- Some jobs can be placed one after another so that each of them just meets its sub-goal. -/
theorem exists_meets (hroot : IsRoot goal count factor) (hcount : 0 < count) (n : Nat) :
    ∃ rs : List K, rs.length = n ∧ (∀ r ∈ rs, 0 < r) ∧ Meets (ofGoal (finite goal) count) rs := by
  induction n with
  | zero => exact ⟨[], rfl, by simp, by simp [Meets]⟩
  | succ n ih =>
      obtain ⟨rs, hlength, hpos, hmeets⟩ := ih
      have hreached : 0 < rs.prod := List.prod_pos hpos
      obtain ⟨s, hs, hnext⟩ : ∃ s, 0 < s ∧
          (ofGoal (finite goal) count).subGoal (finite rs.prod) n = finite s :=
        ⟨_, div_pos hroot.goal_pos (mul_pos hreached (zpow_pos hroot.pos _)),
          subGoal_eq hroot hcount hreached n⟩
      refine ⟨rs ++ [s], by simp [hlength], ?_, ?_⟩
      · rw [List.forall_mem_append, List.forall_mem_singleton]
        exact ⟨hpos, hs⟩
      · intro i r hr
        rcases lt_trichotomy i rs.length with hlt | rfl | hgt
        · rw [List.getElem?_append_left hlt] at hr
          rw [List.take_append_of_le_length hlt.le]
          exact hmeets i r hr
        · rw [List.getElem?_concat_length, Option.some.injEq] at hr
          rw [List.take_left', ← hr, hlength]
          · exact hnext
          · rfl
        · rw [List.getElem?_eq_none (by simpa using hgt)] at hr
          cases hr

/-- If every job reaches its sub-goal, the product of all reliabilities reaches the goal, and it is
the goal if every job just meets its sub-goal. For as many jobs as a signed word counts no sub-goal
is larger than the factor of each job, and each is the factor if every job just meets its
sub-goal. -/
theorem subGoals_sound (hroot : IsRoot goal count factor) (hcount : 0 < count)
    (hlength : rs.length = count) (hpos : ∀ r ∈ rs, 0 < r)
    (hreaches : Reaches (ofGoal (finite goal) count) rs) :
    (ofGoal (finite goal) count).perJob = finite factor ∧ goal ≤ rs.prod ∧
      (ofGoal (finite goal) count).isMet (finite rs.prod) = true ∧
      (count ≤ 2 ^ 31 → ∀ i < count, ∃ s ≤ factor,
        (ofGoal (finite goal) count).subGoal (finite (rs.take i).prod) i = finite s) ∧
      (Meets (ofGoal (finite goal) count) rs → rs.prod = goal ∧
        (count ≤ 2 ^ 31 → ∀ i < count,
          (ofGoal (finite goal) count).subGoal (finite (rs.take i).prod) i = finite factor)) := by
  obtain ⟨before, rfl⟩ := Nat.exists_eq_succ_of_ne_zero hcount.ne'
  have hlast : before < rs.length := hlength ▸ before.lt_succ_self
  have hprod : rs.prod = (rs.take before).prod * rs[before] := by
    rw [← List.prod_take_succ rs before hlast, ← Nat.succ_eq_add_one, ← hlength, List.take_length]
  have hreached := prod_take_pos hpos before
  have hle : goal ≤ rs.prod := by
    rw [hprod]
    exact goal_le_mul hreached
      (Exact.not_lt_of_le (hreaches before _ (List.getElem?_eq_getElem hlast)))
  refine ⟨perJob_eq hroot hcount, hle, decide_eq_true (le_finite.2 hle), fun hsmall i hi => ?_,
    fun hmeets => ⟨?_, fun hsmall i hi => ?_⟩⟩
  · refine ⟨_, ?_, subGoal_eq_div hroot hsmall hi (prod_take_pos hpos i)⟩
    rw [div_le_iff₀ (prod_take_pos hpos i), pow_succ']
    exact mul_le_mul_of_nonneg_left (hreaches.pow_le hroot hsmall hlength hpos hi.le) hroot.pos.le
  · have hmeet := hmeets before _ (List.getElem?_eq_getElem hlast)
    rw [subGoal_last hroot.goal_pos hreached, finite.injEq] at hmeet
    rw [hprod, ← hmeet, mul_div_cancel₀ _ hreached.ne']
  · rw [subGoal_eq_div hroot hsmall hi (prod_take_pos hpos i),
      hmeets.prod_take hroot hsmall hlength hpos hi.le, pow_succ',
      mul_div_cancel_right₀ _ (pow_pos hroot.pos i).ne']

end ReliabilityBudget

/-!
## Real roots
-/

namespace RealRoots

/-- The exponential and the power function of the real numbers. -/
noncomputable scoped instance : Exponentials ℝ where
  exp := Real.exp
  pow x y := x ^ y

open ReliabilityBudget

/-- Every positive goal has a root. -/
theorem isRoot {goal : ℝ} (hgoal : 0 < goal) {count : Nat} (hcount : 0 < count) :
    IsRoot goal count (goal ^ (1 / count : ℝ)) where
  pow_eq := rfl
  pos := Real.rpow_pos_of_pos hgoal _
  factor_pow := by rw [one_div, Real.rpow_inv_natCast_pow hgoal.le hcount.ne']

/-- A first job that surely succeeds leaves the second one a sub-goal of 1/9 instead of 1/3. -/
theorem slack_relaxes_second : IsRoot (1 / 27 : ℝ) 3 (1 / 3) ∧
    Reaches (ofGoal (finite (1 / 27 : ℝ)) 3) [1, 1 / 9, 1 / 3] ∧
    (ofGoal (finite (1 / 27 : ℝ)) 3).isMet (finite ([1, 1 / 9, 1 / 3] : List ℝ).prod) = true ∧
    (ofGoal (finite (1 / 27 : ℝ)) 3).subGoal (finite 1) 1 = finite (1 / 9) := by
  have hroot : IsRoot (1 / 27 : ℝ) 3 (1 / 3) := by
    refine ⟨?_, by norm_num, by norm_num⟩
    have hcube : (1 / 27 : ℝ) = (1 / 3) ^ 3 := by norm_num
    show (1 / 27 : ℝ) ^ (1 / (3 : Nat) : ℝ) = 1 / 3
    rw [hcube, one_div (3 : Nat).cast, Real.pow_rpow_inv_natCast (by norm_num) (by decide)]
  have hsub {achieved : ℝ} {i : Nat} (hi : i < 3) (hachieved : 0 < achieved) :=
    subGoal_eq_div hroot (by decide) hi hachieved
  have hreaches : Reaches (ofGoal (finite (1 / 27 : ℝ)) 3) [1, 1 / 9, 1 / 3] := by
    intro i r hr
    match i with
    | 0 | 1 | 2 =>
        obtain rfl := Option.some.inj hr
        rw [hsub (by decide) (by norm_num)]
        norm_num
  obtain ⟨-, -, hmet, -⟩ := subGoals_sound hroot (by decide) rfl (by norm_num) hreaches
  refine ⟨hroot, hreaches, hmet, ?_⟩
  rw [hsub (by decide) one_pos]
  norm_num

/-- One job more than a signed word counts up to tightens the sub-goals. The first one is far below
the factor of each job, so the second one lies above it. -/
theorem subGoals_tighten : ∃ (factor : ℝ) (rs : List ℝ), IsRoot (1 / 4) 2147483649 factor ∧
    rs.length = 2147483649 ∧ (∀ r ∈ rs, 0 < r) ∧
    Meets (ofGoal (finite (1 / 4)) 2147483649) rs ∧
    Reaches (ofGoal (finite (1 / 4)) 2147483649) rs ∧
    (∃ s < factor, (ofGoal (finite (1 / 4)) 2147483649).subGoal (finite 1) 0 = finite s) ∧
    ∃ s > factor, (ofGoal (finite (1 / 4)) 2147483649).subGoal (finite (rs.take 1).prod) 1 =
      finite s := by
  have hgoal : (0 : ℝ) < 1 / 4 := by norm_num
  have hcount : 0 < 2147483649 := by decide
  obtain ⟨factor, hroot⟩ : ∃ factor, IsRoot (1 / 4 : ℝ) 2147483649 factor :=
    ⟨_, isRoot hgoal hcount⟩
  obtain ⟨rs, hlength, hpos, hmeets⟩ := exists_meets hroot hcount 2147483649
  have hpower : (1 / 4 : ℝ) = factor ^ (2147483649 : Int) := by
    rw [← hroot.factor_pow]
    exact (zpow_natCast factor 2147483649).symm
  have hbelow : factor < 1 := by
    by_contra hnot
    have hge : 1 ≤ factor ^ 2147483649 := one_le_pow₀ (not_lt.1 hnot)
    rw [hroot.factor_pow] at hge
    norm_num at hge
  have hfirst : (ofGoal (finite (1 / 4)) 2147483649).subGoal (finite 1) 0 =
      finite (factor ^ (4294967297 : Int)) := by
    have hword : (ofGoal (finite (1 / 4 : ℝ)) 2147483649).remainingAfter 0 = -2147483648 := by
      decide +kernel
    rw [subGoal_eq hroot hcount one_pos, hword, one_mul, hpower, ← zpow_sub₀ hroot.pos.ne']
    norm_num
  have htaken : (rs.take 1).prod = factor ^ (4294967297 : Int) := by
    have hlt : 0 < rs.length := hlength ▸ hcount
    have hmeet := hmeets 0 rs[0] (List.getElem?_eq_getElem hlt)
    rw [List.take_zero, List.prod_nil, hfirst, finite.injEq] at hmeet
    rw [List.prod_take_succ rs 0 hlt, List.take_zero, List.prod_nil, one_mul, hmeet]
  have hsecond : (ofGoal (finite (1 / 4)) 2147483649).subGoal (finite (rs.take 1).prod) 1 =
      finite (factor ^ (-4294967295 : Int)) := by
    have hword : (ofGoal (finite (1 / 4 : ℝ)) 2147483649).remainingAfter 1 = 2147483647 := by
      decide +kernel
    rw [subGoal_eq hroot hcount (prod_take_pos hpos 1), hword, htaken, hpower,
      ← zpow_add₀ hroot.pos.ne', ← zpow_sub₀ hroot.pos.ne']
    norm_num
  have hfalls {a b : Int} (hab : a < b) : factor ^ b < factor ^ a :=
    zpow_lt_zpow_right_of_lt_one₀ hroot.pos hbelow hab
  refine ⟨factor, rs, hroot, hlength, hpos, hmeets, hmeets.reaches, ⟨_, ?_, hfirst⟩,
    ⟨_, ?_, hsecond⟩⟩
  · calc factor ^ (4294967297 : Int) < factor ^ (1 : Int) := hfalls (by decide)
      _ = factor := zpow_one factor
  · calc factor = factor ^ (1 : Int) := (zpow_one factor).symm
      _ < factor ^ (-4294967295 : Int) := hfalls (by decide)

end RealRoots

end WattPlan
