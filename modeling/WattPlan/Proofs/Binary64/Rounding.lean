import Mathlib.Algebra.Order.Field.Basic
import Mathlib.Data.Rat.Cast.Order
import Mathlib.Tactic.Linarith
import Mathlib.Tactic.Ring
import Mathlib.Tactic.NormNum
import Mathlib.Tactic.Positivity

/-!
# Rounding to binary floating point

A finite double is `m * 2 ^ e` with a mantissa below `2 ^ 53` that is at least `2 ^ 52` unless the
exponent is the least one, `-1074`. A number is rounded on the grid of the doubles around it, to the
nearest member and to the even one of two (`Rounds`). `roundWithAccuracy_rounds` says that this is
what the operations on doubles do with the exact results that they start from.
-/

namespace WattPlan.Binary64

open Float.Model UnpackedFloat

/-- A whole number that is nearest to a number, and even if another one is as near. -/
structure NearestEven (x : ℚ) (m : Nat) : Prop where
  low : (m : ℚ) - 1 / 2 ≤ x
  high : x ≤ (m : ℚ) + 1 / 2
  even : x = (m : ℚ) - 1 / 2 ∨ x = (m : ℚ) + 1 / 2 → m % 2 = 0

namespace NearestEven

variable {x : ℚ} {m n : Nat}

/-- A number that is not above a whole number is not rounded above it. -/
theorem le_of_le (h : NearestEven x m) (hx : x ≤ n) : m ≤ n := by
  have hlow := h.low
  have hlt : (m : ℚ) < (n + 1 : Nat) := by push_cast; linarith
  exact Nat.lt_succ_iff.1 (Nat.cast_lt.1 hlt)

/-- A number that is not below a whole number is not rounded below it. -/
theorem ge_of_ge (h : NearestEven x m) (hx : n ≤ x) : n ≤ m := by
  have hhigh := h.high
  have hlt : (n : ℚ) < (m + 1 : Nat) := by push_cast; linarith
  exact Nat.lt_succ_iff.1 (Nat.cast_lt.1 hlt)

/-- A number has one nearest whole number, the even one of two. -/
theorem unique (h : NearestEven x m) (hn : NearestEven x n) : m = n := by
  by_contra hne
  wlog hlt : m < n generalizing m n
  · exact this hn h (Ne.symm hne) (by omega)
  have hnext : (m : ℚ) + 1 ≤ n := by exact_mod_cast hlt
  have hlow := hn.low
  have hhigh := h.high
  -- Both are as near only in the middle of two neighbours, and one of these is odd.
  have hsucc : (n : ℚ) = m + 1 := by linarith
  have hm := h.even (.inr (by linarith))
  have hn' := hn.even (.inl (by linarith))
  have heq : n = m + 1 := by exact_mod_cast hsucc
  omega

end NearestEven

/-- A mantissa with its two further bits stands for a number that begins with it. -/
def Represents (em : ExtendedMantissa) (x : ℚ) : Prop :=
  match em.roundBit, em.stickyBit with
  | false, false => x = em.mantissa
  | false, true => (em.mantissa : ℚ) < x ∧ x < em.mantissa + 1 / 2
  | true, false => x = em.mantissa + 1 / 2
  | true, true => (em.mantissa : ℚ) + 1 / 2 < x ∧ x < em.mantissa + 1

namespace Represents

variable {em : ExtendedMantissa} {x : ℚ}

/-- The mantissa is rounded to the nearest whole number. -/
theorem nearestEven (h : Represents em x) : NearestEven x em.roundedMantissa := by
  obtain ⟨m, round, sticky⟩ := em
  have hparity : m % 2 = 0 ∨ m % 2 = 1 := by omega
  cases round <;> cases sticky <;> simp only [Represents] at h
  · have hrounded : (ExtendedMantissa.mk m false false).roundedMantissa = m := rfl
    rw [hrounded]
    exact ⟨by linarith, by linarith, fun heq => by rcases heq with heq | heq <;> linarith⟩
  · have hrounded : (ExtendedMantissa.mk m false true).roundedMantissa = m := rfl
    rw [hrounded]
    exact ⟨by linarith, by linarith, fun heq => by rcases heq with heq | heq <;> linarith⟩
  · have hrounded : (ExtendedMantissa.mk m true false).roundedMantissa = m + m % 2 := rfl
    rw [hrounded]
    rcases hparity with heven | hodd
    · rw [heven, Nat.add_zero]
      exact ⟨by linarith, by linarith, fun _ => heven⟩
    · have hnext : ((m + 1 : Nat) : ℚ) = m + 1 := Nat.cast_succ m
      rw [hodd]
      exact ⟨by linarith, by linarith, fun _ => by omega⟩
  · have hrounded : (ExtendedMantissa.mk m true true).roundedMantissa = m + 1 := rfl
    have hnext : ((m + 1 : Nat) : ℚ) = m + 1 := Nat.cast_succ m
    rw [hrounded]
    exact ⟨by linarith, by linarith, fun heq => by rcases heq with heq | heq <;> linarith⟩

/-- Shifting by one place halves the number. -/
theorem shiftRightOne (h : Represents em x) : Represents em.shiftRightOne (x / 2) := by
  obtain ⟨m, round, sticky⟩ := em
  have hsplit : (m : ℚ) = 2 * (m / 2 : Nat) + (m % 2 : Nat) := by
    exact_mod_cast (Nat.div_add_mod m 2).symm
  rcases Nat.mod_two_eq_zero_or_one m with hbit | hbit
  · have hround : (m % 2 != 0) = false := by simp [hbit]
    rw [hbit, Nat.cast_zero, add_zero] at hsplit
    cases round <;> cases sticky <;>
      simp only [Represents, ExtendedMantissa.shiftRightOne, hround, Bool.or_false, Bool.or_true]
        at h ⊢ <;> first
      | linarith
      | exact ⟨by linarith, by linarith⟩
  · have hround : (m % 2 != 0) = true := by simp [hbit]
    rw [hbit, Nat.cast_one] at hsplit
    cases round <;> cases sticky <;>
      simp only [Represents, ExtendedMantissa.shiftRightOne, hround, Bool.or_false, Bool.or_true]
        at h ⊢ <;> first
      | linarith
      | exact ⟨by linarith, by linarith⟩

/-- Shifting by some places divides the number by a power of two. -/
theorem shiftRight (h : Represents em x) (n : Nat) : Represents (em >>> n) (x / 2 ^ n) := by
  show Represents (Nat.repeat ExtendedMantissa.shiftRightOne n em) (x / 2 ^ n)
  induction n with
  | zero => simpa [Nat.repeat] using h
  | succ n ih =>
      rw [pow_succ, ← div_div]
      exact ih.shiftRightOne

/-- The mantissa is the whole part of the number. -/
theorem bounds (h : Represents em x) : (em.mantissa : ℚ) ≤ x ∧ x < em.mantissa + 1 := by
  obtain ⟨m, round, sticky⟩ := em
  cases round <;> cases sticky <;> simp only [Represents] at h <;> constructor <;> linarith

end Represents

/-- The mantissas and exponents of the doubles, but that no exponent is too large. -/
structure Canonical (m : Nat) (e : Int) : Prop where
  lt : m < 2 ^ 53
  low : -1074 ≤ e
  full : 2 ^ 52 ≤ m ∨ e = -1074

/-- A number that is not negative is rounded to another one on the grid of the doubles around it. -/
def Rounds (v c : ℚ) : Prop :=
  ∃ (e : Int) (m : Nat), NearestEven (v / 2 ^ e) m ∧ c = m * 2 ^ e ∧ -1074 ≤ e ∧
    (e = -1074 ∨ 2 ^ (e + 52) ≤ v) ∧ v < 2 ^ (e + 53)

/-- A finite float without a value is a zero. -/
def magnitude (s : Sign) (m : Nat) (e : Int) : UnpackedFloat :=
  if h : m = 0 then .zero s else .finite s m e (Nat.pos_of_ne_zero h)

theorem magnitude_of_pos (s : Sign) {m : Nat} (e : Int) (h : 0 < m) :
    magnitude s m e = .finite s m e h :=
  dif_neg h.ne'

/-- The exponent of the grid on which a number with a given first bit is rounded. -/
theorem targetExponent_binary64 (total : Int) :
    Format.binary64.targetExponent total = max (total - 53) (-1074) :=
  rfl

/-- The exponent of the grid on which a number is rounded. -/
theorem targetExponent_eq (m : Nat) (e : Int) : Format.binary64.targetExponent (totalExponent m e) =
    max ((m.log2 : Int) + 1 + e - 53) (-1074) :=
  targetExponent_binary64 _

theorem two_zpow_add (a b : Int) : (2 : ℚ) ^ (a + b) = 2 ^ a * 2 ^ b :=
  zpow_add₀ two_ne_zero a b

theorem two_zpow_pos (a : Int) : (0 : ℚ) < 2 ^ a :=
  zpow_pos two_pos a

theorem two_zpow_le {a b : Int} (h : a ≤ b) : (2 : ℚ) ^ a ≤ 2 ^ b :=
  zpow_le_zpow_right₀ one_le_two h

/-- A mantissa that fits is not shifted. -/
theorem shift_of_lt {m : Nat} {e : Int} (hm : m < 2 ^ 53) (he : -1074 ≤ e) :
    shiftToTargetExponent .binary64 m e .exact = (⟨m, false, false⟩, e) := by
  have hlog : m.log2 ≤ 52 := by
    by_cases hzero : m = 0
    · simp [hzero]
    · have hlt := (Nat.log2_lt hzero).2 hm
      omega
  have hshift : (Format.binary64.targetExponent (totalExponent m e) - e).toNat = 0 := by
    rw [targetExponent_eq]
    omega
  rw [shiftToTargetExponent, shiftToExponent, hshift]
  simp [ExtendedMantissa.ofMantissaAndAccuracy, HShiftRight.hShiftRight, Nat.repeat]

/-- A mantissa that was rounded up to a further place is shifted by one. -/
theorem shift_of_eq {e : Int} (he : -1074 ≤ e) :
    shiftToTargetExponent .binary64 (2 ^ 53) e .exact = (⟨2 ^ 52, false, false⟩, e + 1) := by
  have hshift : (Format.binary64.targetExponent (totalExponent (2 ^ 53) e) - e).toNat = 1 := by
    rw [targetExponent_eq, Nat.log2_two_pow]
    omega
  rw [shiftToTargetExponent, shiftToExponent, hshift]
  rfl

section Target

variable {m : Nat} {e : Int} {x : ℚ}

/-- A number that begins with a mantissa is below the range of its grid's mantissas. -/
theorem lt_target (h : x < m + 1) :
    x * 2 ^ e < 2 ^ (Format.binary64.targetExponent (totalExponent m e) + 53) := by
  have hnext : (m : ℚ) + 1 ≤ 2 ^ ((m.log2 : Int) + 1) := by
    exact_mod_cast Nat.lt_log2_self (n := m)
  rw [targetExponent_eq]
  calc x * 2 ^ e < 2 ^ ((m.log2 : Int) + 1) * 2 ^ e :=
        mul_lt_mul_of_pos_right (by linarith) (two_zpow_pos e)
    _ = 2 ^ ((m.log2 : Int) + 1 + e) := (two_zpow_add _ _).symm
    _ ≤ 2 ^ (max ((m.log2 : Int) + 1 + e - 53) (-1074) + 53) := two_zpow_le (by omega)

/-- A number that begins with a mantissa is in the range of its grid's full mantissas, unless the
grid is the finest one. -/
theorem target_le (h : m ≤ x) (he : e ≤ Format.binary64.targetExponent (totalExponent m e)) :
    Format.binary64.targetExponent (totalExponent m e) = -1074 ∨
      2 ^ (Format.binary64.targetExponent (totalExponent m e) + 52) ≤ x * 2 ^ e := by
  rw [targetExponent_eq] at he ⊢
  obtain ⟨t, ht⟩ : ∃ t, t = max ((m.log2 : Int) + 1 + e - 53) (-1074) := ⟨_, rfl⟩
  rw [← ht] at he ⊢
  rcases Int.lt_or_eq_of_le (show -1074 ≤ t by omega) with hlt | heq
  · right
    have hne : m ≠ 0 := by
      rintro rfl
      simp at ht
      omega
    have hfirst : (2 : ℚ) ^ (m.log2 : Int) ≤ m := by
      exact_mod_cast Nat.log2_self_le hne
    calc (2 : ℚ) ^ (t + 52) = 2 ^ ((m.log2 : Int) + e) := congrArg _ (by omega)
      _ = 2 ^ (m.log2 : Int) * 2 ^ e := two_zpow_add _ _
      _ ≤ x * 2 ^ e := mul_le_mul_of_nonneg_right (by linarith) (two_zpow_pos e).le
  · exact .inl heq.symm

end Target

/-- A number that was rounded on its grid is canonical, after a shift by one place if it was rounded
up to a further one. -/
theorem NearestEven.rounds {v : ℚ} {t : Int} {r : Nat} (h : NearestEven (v / 2 ^ t) r)
    (hlow : -1074 ≤ t) (hmin : t = -1074 ∨ 2 ^ (t + 52) ≤ v) (hmax : v < 2 ^ (t + 53)) :
    ∃ m e, shiftToTargetExponent .binary64 r t .exact = (⟨m, false, false⟩, e) ∧
      Canonical m e ∧ Rounds v (m * 2 ^ e) := by
  have hle : r ≤ 2 ^ 53 := by
    refine h.le_of_le ((div_le_iff₀ (two_zpow_pos t)).2 ?_)
    calc v ≤ 2 ^ (t + 53) := hmax.le
      _ = ((2 ^ 53 : Nat) : ℚ) * 2 ^ t := by rw [add_comm, two_zpow_add]; norm_num
  rcases Nat.lt_or_eq_of_le hle with hlt | rfl
  · refine ⟨r, t, shift_of_lt hlt hlow, ⟨hlt, hlow, ?_⟩, t, r, h, rfl, hlow, hmin, hmax⟩
    refine hmin.symm.imp_left fun hmin => h.ge_of_ge ((le_div_iff₀ (two_zpow_pos t)).2 ?_)
    calc ((2 ^ 52 : Nat) : ℚ) * 2 ^ t = 2 ^ (t + 52) := by rw [add_comm, two_zpow_add]; norm_num
      _ ≤ v := hmin
  · refine ⟨2 ^ 52, t + 1, shift_of_eq hlow, ⟨by norm_num, by omega, .inl le_rfl⟩, t, _, h, ?_,
      hlow, hmin, hmax⟩
    rw [two_zpow_add]
    push_cast
    ring

/-- Rounding a number that a mantissa and its accuracy stand for. -/
theorem roundWithAccuracy_rounds {m : Nat} {e : Int} {accuracy : Accuracy} {x : ℚ} (s : Sign)
    (h : Represents (ExtendedMantissa.ofMantissaAndAccuracy m accuracy) x)
    (he : e ≤ Format.binary64.targetExponent (totalExponent m e)) :
    ∃ m' e', roundWithAccuracy .binary64 s m e accuracy = magnitude s m' e' ∧ Canonical m' e' ∧
      Rounds (x * 2 ^ e) (m' * 2 ^ e') := by
  have hmantissa : (ExtendedMantissa.ofMantissaAndAccuracy m accuracy).mantissa = m := by
    unfold ExtendedMantissa.ofMantissaAndAccuracy
    split <;> rfl
  obtain ⟨hbelow, habove⟩ := h.bounds
  rw [hmantissa] at hbelow habove
  have hmax := lt_target (e := e) habove
  have hmin := target_le hbelow he
  have hlow : -1074 ≤ Format.binary64.targetExponent (totalExponent m e) :=
    targetExponent_eq m e ▸ le_max_right _ _
  have hshift : shiftToTargetExponent .binary64 m e accuracy =
      (ExtendedMantissa.ofMantissaAndAccuracy m accuracy >>>
        (Format.binary64.targetExponent (totalExponent m e) - e).toNat,
        e + ((Format.binary64.targetExponent (totalExponent m e) - e).toNat : Int)) := rfl
  obtain ⟨k, hk⟩ : ∃ k : Nat, Format.binary64.targetExponent (totalExponent m e) = e + k :=
    ⟨(Format.binary64.targetExponent (totalExponent m e) - e).toNat, by omega⟩
  have hcount : (e + (k : Int) - e).toNat = k := by omega
  rw [hk] at hmax hmin hlow hshift
  rw [hcount] at hshift
  have hscale : x * 2 ^ e / 2 ^ (e + (k : Int)) = x / 2 ^ k := by
    rw [two_zpow_add, zpow_natCast, mul_comm ((2 : ℚ) ^ e),
      mul_div_mul_right _ _ (two_zpow_pos e).ne']
  have hnearest := (h.shiftRight k).nearestEven
  rw [← hscale] at hnearest
  obtain ⟨m', e', hlast, hcanonical, hrounds⟩ := hnearest.rounds hlow hmin hmax
  refine ⟨m', e', ?_, hcanonical, hrounds⟩
  rw [roundWithAccuracy, hshift]
  dsimp only
  rw [hlast]
  rfl

/-- Every canonical mantissa and exponent stand for a number that is rounded to itself. -/
theorem Rounds.of_canonical {m : Nat} {e : Int} (h : Canonical m e) :
    Rounds (m * 2 ^ e) (m * 2 ^ e) := by
  refine ⟨e, m, ?_, rfl, h.low, ?_, ?_⟩
  · rw [mul_div_cancel_right₀ _ (two_zpow_pos e).ne']
    exact ⟨by linarith, by linarith, fun heq => by rcases heq with heq | heq <;> linarith⟩
  · rcases h.full with hfull | heq
    · right
      rw [add_comm, two_zpow_add]
      exact mul_le_mul_of_nonneg_right (by exact_mod_cast hfull) (two_zpow_pos e).le
    · exact .inl heq
  · rw [add_comm, two_zpow_add]
    exact mul_lt_mul_of_pos_right (by exact_mod_cast h.lt) (two_zpow_pos e)

namespace Rounds

variable {v c : ℚ} {n : Nat} {f : Int}

/-- A member of a coarser grid is one of a finer grid. -/
theorem refine_grid {e : Int} (h : e ≤ f) :
    (n : ℚ) * 2 ^ f = ((n * 2 ^ (f - e).toNat : Nat) : ℚ) * 2 ^ e := by
  obtain ⟨k, rfl⟩ : ∃ k : Nat, f = e + k := ⟨(f - e).toNat, by omega⟩
  rw [two_zpow_add, zpow_natCast]
  have hk : (e + (k : Int) - e).toNat = k := by omega
  rw [hk]
  push_cast
  ring

/-- A member of a finer grid is not above the numbers with a full mantissa. -/
theorem grid_le {e : Int} (hn : n ≤ 2 ^ 53) (h : f < e) : (n : ℚ) * 2 ^ f ≤ 2 ^ (e + 52) := by
  have hcast : (n : ℚ) ≤ 2 ^ (53 : Int) := by exact_mod_cast hn
  calc (n : ℚ) * 2 ^ f ≤ 2 ^ (53 : Int) * 2 ^ f :=
        mul_le_mul_of_nonneg_right hcast (two_zpow_pos f).le
    _ = 2 ^ (53 + f) := (two_zpow_add _ _).symm
    _ ≤ 2 ^ (e + 52) := two_zpow_le (by omega)

/-- A number that is not above a member of a grid is not rounded above it. -/
theorem le_of_le (h : Rounds v c) (hn : n ≤ 2 ^ 53) (hf : -1074 ≤ f) (hle : v ≤ n * 2 ^ f) :
    c ≤ n * 2 ^ f := by
  obtain ⟨e, m, hnearest, rfl, -, hlower, -⟩ := h
  rcases le_or_gt e f with hef | hfe
  · rw [refine_grid hef] at hle ⊢
    refine mul_le_mul_of_nonneg_right (Nat.cast_le.2 (hnearest.le_of_le ?_)) (two_zpow_pos e).le
    exact (div_le_iff₀ (two_zpow_pos e)).2 hle
  · -- The member can only be the first number with a full mantissa.
    have hmin := hlower.resolve_left (by omega)
    have hmax := grid_le hn hfe
    rw [add_comm, two_zpow_add] at hmin hmax
    have hm : m ≤ 2 ^ 52 := hnearest.le_of_le
      ((div_le_iff₀ (two_zpow_pos e)).2 ((hle.trans hmax).trans_eq (by norm_num)))
    have hcast : (m : ℚ) ≤ 2 ^ (52 : Int) := by exact_mod_cast hm
    exact ((mul_le_mul_of_nonneg_right hcast (two_zpow_pos e).le).trans hmin).trans hle

/-- A number that is not below a member of a grid is not rounded below it. -/
theorem ge_of_ge (h : Rounds v c) (hn : n ≤ 2 ^ 53) (hf : -1074 ≤ f) (hge : n * 2 ^ f ≤ v) :
    n * 2 ^ f ≤ c := by
  obtain ⟨e, m, hnearest, rfl, -, hlower, -⟩ := h
  rcases le_or_gt e f with hef | hfe
  · rw [refine_grid hef] at hge ⊢
    refine mul_le_mul_of_nonneg_right (Nat.cast_le.2 (hnearest.ge_of_ge ?_)) (two_zpow_pos e).le
    exact (le_div_iff₀ (two_zpow_pos e)).2 hge
  · have hmin := hlower.resolve_left (by omega)
    have hmax := grid_le hn hfe
    rw [add_comm, two_zpow_add] at hmin hmax
    have hm : 2 ^ 52 ≤ m := hnearest.ge_of_ge
      ((le_div_iff₀ (two_zpow_pos e)).2 (le_trans (le_of_eq (by norm_num)) hmin))
    have hcast : (2 : ℚ) ^ (52 : Int) ≤ m := by exact_mod_cast hm
    exact hmax.trans (mul_le_mul_of_nonneg_right hcast (two_zpow_pos e).le)

/-- A member of a grid is not rounded. -/
theorem eq_of_grid (h : Rounds v c) (hn : n ≤ 2 ^ 53) (hf : -1074 ≤ f) (hgrid : v = n * 2 ^ f) :
    c = v := by
  rw [hgrid] at h ⊢
  exact le_antisymm (h.le_of_le hn hf le_rfl) (h.ge_of_ge hn hf le_rfl)

end Rounds

end WattPlan.Binary64
