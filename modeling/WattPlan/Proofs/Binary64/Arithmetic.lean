import WattPlan.Proofs.Binary64.Packing

/-!
# Arithmetic on floats

`Denotes x v` says that the float `x` is a number that is not negative, and which one. A sum, a
difference, a product or a quotient of such floats stands for the exact result rounded to a double,
unless that is too large for one (`add_denotes`, `sub_denotes`, `mul_denotes`, `div_denotes`).
-/

namespace WattPlan.Binary64

open Float.Model UnpackedFloat

/-- The float of a number that was rounded. -/
def ofUnpacked (u : UnpackedFloat) : Float :=
  .ofModel (Float.Model.pack u)

@[simp] theorem ofUnpacked_unpack (x : Float) : ofUnpacked x.toModel.unpack = x :=
  congrArg Float.ofModel (pack_unpack x.toModel)

/-- A float stands for a number that is not negative. A zero may have either sign. -/
inductive Denotes (x : Float) : ℚ → Prop where
  | zero (s : Sign) (hx : x.toModel.unpack = .zero s) : Denotes x 0
  | finite {m : Nat} {e : Int} (hm : 0 < m) (hx : x.toModel.unpack = .finite .positive m e hm)
      (hcanonical : Canonical m e) (htop : e ≤ 971) : Denotes x (m * 2 ^ e)

/-- Nothing has the least exponent and no mantissa. -/
theorem canonical_zero : Canonical 0 (-1074) :=
  ⟨by norm_num, le_rfl, .inr rfl⟩

theorem Rounds.zero : Rounds 0 0 := by
  simpa using of_canonical canonical_zero

namespace Denotes

variable {x y : Float} {v w : ℚ}

/-- What a float stands for is a canonical mantissa and exponent. -/
theorem canonical (h : Denotes x v) : ∃ m e, Canonical m e ∧ e ≤ 971 ∧ v = m * 2 ^ e := by
  cases h with
  | zero s hx => exact ⟨0, -1074, canonical_zero, by norm_num, by simp⟩
  | finite hm hx hcanonical htop => exact ⟨_, _, hcanonical, htop, rfl⟩

theorem nonneg (h : Denotes x v) : 0 ≤ v := by
  obtain ⟨m, e, -, -, rfl⟩ := h.canonical
  exact mul_nonneg (Nat.cast_nonneg m) (two_zpow_pos e).le

/-- What is not above a float is not rounded above it. -/
theorem le_of_rounds (h : Denotes x v) {u c : ℚ} (hrounds : Rounds u c) (hle : u ≤ v) : c ≤ v := by
  obtain ⟨m, e, hcanonical, -, rfl⟩ := h.canonical
  exact hrounds.le_of_le hcanonical.lt.le hcanonical.low hle

/-- What is not below a float is not rounded below it. -/
theorem ge_of_rounds (h : Denotes x v) {u c : ℚ} (hrounds : Rounds u c) (hle : v ≤ u) : v ≤ c := by
  obtain ⟨m, e, hcanonical, -, rfl⟩ := h.canonical
  exact hrounds.ge_of_ge hcanonical.lt.le hcanonical.low hle

/-- No float stands for a number beyond the range of the doubles. -/
theorem lt_top (h : Denotes x v) : v < 2 ^ (1024 : Int) := by
  obtain ⟨m, e, hcanonical, htop, rfl⟩ := h.canonical
  have hm : (m : ℚ) < 2 ^ (53 : Int) := by exact_mod_cast hcanonical.lt
  calc (m : ℚ) * 2 ^ e < 2 ^ (53 : Int) * 2 ^ e := mul_lt_mul_of_pos_right hm (two_zpow_pos e)
    _ = 2 ^ (53 + e) := (two_zpow_add _ _).symm
    _ ≤ 2 ^ (1024 : Int) := two_zpow_le (by omega)

end Denotes

variable {x y z : Float} {u v w : ℚ} {m n : Nat} {e f : Int}

/-- A zero of either sign stands for zero. -/
theorem denotes_zero {result : UnpackedFloat} {s : Sign} (h : result = .zero s) :
    Denotes (ofUnpacked result) 0 :=
  h ▸ .zero s (unpack_pack_zero s)

/-- A canonical mantissa and exponent stand for their number. -/
theorem denotes_magnitude (h : Canonical m e) (htop : e ≤ 971) :
    Denotes (ofUnpacked (magnitude .positive m e)) (m * 2 ^ e) := by
  rcases Nat.eq_zero_or_pos m with rfl | hm
  · rw [Nat.cast_zero, zero_mul]
    exact denotes_zero rfl
  · rw [magnitude_of_pos _ _ hm]
    exact .finite hm (unpack_pack .positive hm h htop) h htop

/-- A number has been rounded to a mantissa and an exponent. -/
def RoundedTo (result : UnpackedFloat) (s : Sign) (v : ℚ) : Prop :=
  ∃ m e, result = magnitude s m e ∧ Canonical m e ∧ Rounds v (m * 2 ^ e)

/-- A rounded number that is not too large is a float. -/
theorem RoundedTo.denotes {result : UnpackedFloat} (h : RoundedTo result .positive v)
    (hz : Denotes z u) (hle : v ≤ u) : ∃ c, Denotes (ofUnpacked result) c ∧ Rounds v c := by
  obtain ⟨m, e, rfl, hcanonical, hrounds⟩ := h
  refine ⟨_, denotes_magnitude hcanonical ?_, hrounds⟩
  by_contra htop
  have hmax := (hz.le_of_rounds hrounds hle).trans_lt hz.lt_top
  have hfull : (2 : ℚ) ^ (52 : Int) ≤ m := by
    exact_mod_cast hcanonical.full.resolve_right (by omega)
  have hmin : (2 : ℚ) ^ (1024 : Int) ≤ m * 2 ^ e :=
    calc (2 : ℚ) ^ (1024 : Int) ≤ 2 ^ (52 + e) := two_zpow_le (by omega)
      _ = 2 ^ (52 : Int) * 2 ^ e := two_zpow_add _ _
      _ ≤ m * 2 ^ e := mul_le_mul_of_nonneg_right hfull (two_zpow_pos e).le
  exact absurd hmax (not_lt.2 hmin)

/-! ### Rounding exact results -/

/-- Decreasing an exponent does not change the number. -/
theorem shiftLeft_value (m : Nat) {e t : Int} (k : Nat) (h : e = t + k) :
    ((m <<< k : Nat) : ℚ) * 2 ^ t = m * 2 ^ e := by
  rw [Nat.shiftLeft_eq, h, two_zpow_add, zpow_natCast]
  push_cast
  ring

/-- A shift to the left moves the first bit. -/
theorem log2_shiftLeft (hm : 0 < m) (k : Nat) : (m <<< k).log2 = m.log2 + k := by
  have hbounds := (Nat.log2_eq_iff hm.ne').1 rfl
  rw [Nat.shiftLeft_eq, Nat.log2_eq_iff (Nat.mul_pos hm (Nat.two_pow_pos k)).ne', pow_add,
    show m.log2 + k + 1 = m.log2 + 1 + k by omega, pow_add _ _ k]
  exact ⟨Nat.mul_le_mul_right _ hbounds.1,
    (Nat.mul_lt_mul_right (Nat.two_pow_pos k)).2 hbounds.2⟩

/-- Rounding a mantissa and an exponent. -/
theorem round_roundedTo (s : Sign) (hm : 0 < m) :
    RoundedTo (UnpackedFloat.round .binary64 s m e) s (m * 2 ^ e) := by
  unfold UnpackedFloat.round
  rw [targetExponent_eq]
  generalize ht : max ((m.log2 : Int) + 1 + e - 53) (-1074) = t
  have hlog : (m <<< (e - t).toNat).log2 = m.log2 + (e - t).toNat := log2_shiftLeft hm _
  have hrepresents : Represents
      (ExtendedMantissa.ofMantissaAndAccuracy (m <<< (e - t).toNat) .exact)
      ((m <<< (e - t).toNat : Nat) : ℚ) := rfl
  have hround := roundWithAccuracy_rounds (e := e - (e - t).toNat) s hrepresents (by
    rw [targetExponent_eq, hlog]
    omega)
  rwa [shiftLeft_value m (e - t).toNat (by omega : e = e - (e - t).toNat + (e - t).toNat)] at hround

/-- Rounding the number that a mantissa and an exponent stand for. -/
theorem normalize_roundedTo {n : Int} (hn : n = m) :
    RoundedTo (UnpackedFloat.normalize .binary64 n e .positive) .positive (m * 2 ^ e) := by
  subst hn
  unfold UnpackedFloat.normalize
  rcases Nat.eq_zero_or_pos m with rfl | hm
  · exact ⟨0, -1074, rfl, canonical_zero, by simpa using Rounds.zero⟩
  · rw [Int.compare_eq_gt.2 (by omega)]
    exact round_roundedTo .positive hm

/-- Rounding a product. A mantissa that is not full has the least exponent. -/
theorem mul_roundedTo (s : Sign) (hm : 0 < m) (hn : 0 < n) (h : Canonical m e)
    (hother : Canonical n f) :
    RoundedTo (roundWithAccuracy .binary64 s (m * n) (e + f) .exact) s
      (m * 2 ^ e * (n * 2 ^ f)) := by
  have hrepresents : Represents (ExtendedMantissa.ofMantissaAndAccuracy (m * n) .exact)
      ((m * n : Nat) : ℚ) := rfl
  have hvalue : ((m * n : Nat) : ℚ) * 2 ^ (e + f) = m * 2 ^ e * (n * 2 ^ f) := by
    rw [two_zpow_add]
    push_cast
    ring
  rw [← hvalue]
  refine roundWithAccuracy_rounds s hrepresents ?_
  rw [targetExponent_eq]
  have hpos : m * n ≠ 0 := (Nat.mul_pos hm hn).ne'
  have hlow := h.low
  have hlow' := hother.low
  -- A product with a full factor is long enough not to be shifted to the left.
  have hlog : 2 ^ 52 ≤ m * n → 52 ≤ (m * n).log2 := (Nat.le_log2 hpos).2
  rcases h.full with hfull | he
  · have := hlog (hfull.trans (Nat.le_mul_of_pos_right m hn))
    omega
  · rcases hother.full with hfull | hf
    · have := hlog (hfull.trans (Nat.le_mul_of_pos_left n hm))
      omega
    · omega

/-- A quotient and the part of its unit that is left stand for the exact quotient. -/
theorem represents_div (m : Nat) (hn : 0 < n) :
    Represents (ExtendedMantissa.ofMantissaAndAccuracy (m / n) (accuracyOfFraction (m % n) n))
      ((m : ℚ) / n) := by
  have hpos : (0 : ℚ) < n := Nat.cast_pos.2 hn
  obtain ⟨r, hr⟩ : ∃ r, r = m % n := ⟨_, rfl⟩
  obtain ⟨q, hq⟩ : ∃ q, q = (r : ℚ) / n := ⟨_, rfl⟩
  have hsplit : (m : ℚ) / n = (m / n : Nat) + q := by
    rw [hq, hr, div_eq_iff hpos.ne', add_mul, div_mul_cancel₀ _ hpos.ne']
    exact_mod_cast (Nat.div_add_mod' m n).symm
  have hone : q < 1 := by
    rw [hq, hr, div_lt_one hpos]
    exact Nat.cast_lt.2 (Nat.mod_lt m hn)
  rw [hsplit, ← hr]
  unfold accuracyOfFraction
  split
  · rename_i hzero
    show _ = _
    rw [hq, hzero, Nat.cast_zero, zero_div, add_zero]
    rfl
  · rename_i hne
    have hzero : 0 < q := hq ▸ div_pos (Nat.cast_pos.2 (Nat.pos_of_ne_zero hne)) hpos
    have hscale : ((2 * r : Nat) : ℚ) = 2 * q * n := by
      rw [hq, mul_assoc, div_mul_cancel₀ _ hpos.ne']
      push_cast
      rfl
    rcases Nat.lt_trichotomy (2 * r) n with hless | heq | hmore
    · have hhalf : 2 * q * n < 1 * n := by
        rw [← hscale, one_mul]
        exact_mod_cast hless
      have hlt := lt_of_mul_lt_mul_right hhalf hpos.le
      rw [Nat.compare_eq_lt.2 hless]
      show ((m / n : Nat) : ℚ) < _ ∧ _ < ((m / n : Nat) : ℚ) + 1 / 2
      exact ⟨by linarith, by linarith⟩
    · have hhalf : 2 * q * n = 1 * n := by
        rw [← hscale, one_mul, heq]
      have hmid := mul_right_cancel₀ hpos.ne' hhalf
      rw [Nat.compare_eq_eq.2 heq]
      show _ = ((m / n : Nat) : ℚ) + 1 / 2
      linarith
    · have hhalf : 1 * n < 2 * q * n := by
        rw [← hscale, one_mul]
        exact_mod_cast hmore
      have hlt := lt_of_mul_lt_mul_right hhalf hpos.le
      rw [Nat.compare_eq_gt.2 hmore]
      show ((m / n : Nat) : ℚ) + 1 / 2 < _ ∧ _ < ((m / n : Nat) : ℚ) + 1
      exact ⟨by linarith, by linarith⟩

/-- The first bit of a quotient of mantissas is where their first bits say, or one place below. -/
theorem log2_le_div (hm : 0 < m) (hn : 0 < n) : m.log2 ≤ (m / n).log2 + n.log2 + 1 := by
  have hupper : m < 2 ^ ((m / n).log2 + n.log2 + 2) :=
    calc m < n * (m / n + 1) := Nat.lt_mul_div_succ m hn
      _ ≤ 2 ^ (n.log2 + 1) * 2 ^ ((m / n).log2 + 1) :=
          Nat.mul_le_mul Nat.lt_log2_self.le Nat.lt_log2_self
      _ = 2 ^ ((m / n).log2 + n.log2 + 2) := by
          rw [← pow_add]
          congr 1
          omega
  have hlt := (Nat.log2_lt hm.ne').2 hupper
  omega

/-- Rounding a quotient. -/
theorem div_roundedTo (s : Sign) (e f : Int) (hm : 0 < m) (hn : 0 < n) :
    RoundedTo (roundWithAccuracy .binary64 s (divCore .binary64 m e n f).1
      (divCore .binary64 m e n f).2.1 (divCore .binary64 m e n f).2.2) s
      (m * 2 ^ e / (n * 2 ^ f)) := by
  obtain ⟨t, ht⟩ : ∃ t, t = min (e - f)
    (Format.binary64.targetExponent (totalExponent m e - totalExponent n f)) := ⟨_, rfl⟩
  obtain ⟨k, hk⟩ : ∃ k, k = (e - f - t).toNat := ⟨_, rfl⟩
  have hcore : divCore .binary64 m e n f =
      ((m <<< k) / n, t, accuracyOfFraction ((m <<< k) % n) n) := by
    rw [hk, ht]
    rfl
  have hvalue : ((m <<< k : Nat) : ℚ) / n * 2 ^ t = m * 2 ^ e / (n * 2 ^ f) := by
    rw [div_mul_eq_mul_div, shiftLeft_value m k (show e - f = t + k by omega),
      zpow_sub₀ two_ne_zero]
    rw [mul_div_assoc', div_div, mul_comm ((2 : ℚ) ^ f)]
  rw [hcore, ← hvalue]
  refine roundWithAccuracy_rounds s (represents_div _ hn) ?_
  have hfirst := log2_le_div (Nat.shiftLeft_pos_iff.2 hm : 0 < m <<< k) hn
  rw [log2_shiftLeft hm] at hfirst
  show t ≤ Format.binary64.targetExponent (totalExponent (m <<< k / n) t)
  rw [targetExponent_binary64, totalExponent, totalExponent] at ht
  rw [targetExponent_eq]
  omega

/-! ### Operations -/

/-- Numbers above zero are added exactly and then rounded. -/
theorem add_roundedTo (e f : Int) (hm : 0 < m) (hn : 0 < n) :
    RoundedTo (UnpackedFloat.add .binary64 (.finite .positive m e hm) (.finite .positive n f hn))
      .positive (m * 2 ^ e + n * 2 ^ f) := by
  have hvalue : (((m <<< (e - min e f).toNat + n <<< (f - min e f).toNat : Nat) : ℚ)) *
      2 ^ min e f = m * 2 ^ e + n * 2 ^ f := by
    rw [Nat.cast_add, add_mul, shiftLeft_value m _ (by omega : e = min e f + _),
      shiftLeft_value n _ (by omega : f = min e f + _)]
  rw [← hvalue]
  exact normalize_roundedTo rfl

/-- The sum of two floats, unless it is too large. -/
theorem add_denotes (hx : Denotes x v) (hy : Denotes y w) (hz : Denotes z u) (hle : v + w ≤ u) :
    ∃ c, Denotes (x + y) c ∧ Rounds (v + w) c := by
  have heq : x + y =
      ofUnpacked (UnpackedFloat.add .binary64 x.toModel.unpack y.toModel.unpack) := rfl
  cases hx with
  | zero s hx =>
      rw [zero_add]
      cases hy with
      | zero s' hy =>
          rw [heq, hx, hy]
          refine ⟨0, ?_, .zero⟩
          cases s <;> cases s' <;> exact .zero _ rfl
      | finite hm hy hcanonical htop =>
          have hsame : x + y = y := by
            rw [heq, hx, hy, ← ofUnpacked_unpack y, hy]
            rfl
          rw [hsame]
          exact ⟨_, .finite hm hy hcanonical htop, .of_canonical hcanonical⟩
  | finite hm hx hcanonical htop =>
      cases hy with
      | zero s' hy =>
          have hsame : x + y = x := by
            rw [heq, hx, hy, ← ofUnpacked_unpack x, hx]
            rfl
          rw [hsame, add_zero]
          exact ⟨_, .finite hm hx hcanonical htop, .of_canonical hcanonical⟩
      | finite hn hy hother htop' =>
          rw [heq, hx, hy]
          exact RoundedTo.denotes (add_roundedTo _ _ hm hn) hz hle

/-- The difference of two floats, if it is not negative. -/
theorem sub_denotes (hx : Denotes x v) (hy : Denotes y w) (hle : w ≤ v) :
    ∃ c, Denotes (x - y) c ∧ Rounds (v - w) c := by
  have heq : x - y =
      ofUnpacked (UnpackedFloat.sub .binary64 x.toModel.unpack y.toModel.unpack) := rfl
  cases hx with
  | zero s hx =>
      cases hy with
      | zero s' hy =>
          rw [heq, hx, hy, sub_zero]
          refine ⟨0, ?_, .zero⟩
          cases s <;> cases s' <;> exact .zero _ rfl
      | finite hm hy hcanonical htop =>
          exact absurd hle (not_le.2 (mul_pos (Nat.cast_pos.2 hm) (two_zpow_pos _)))
  | finite hm hx hcanonical htop =>
      cases hy with
      | zero s' hy =>
          have hsame : x - y = x := by
            rw [heq, hx, hy, ← ofUnpacked_unpack x, hx]
            rfl
          rw [hsame, sub_zero]
          exact ⟨_, .finite hm hx hcanonical htop, .of_canonical hcanonical⟩
      | finite hn hy hother htop' =>
          rename_i m e n f
          rw [heq, hx, hy]
          refine RoundedTo.denotes ?_ (.finite hm hx hcanonical htop)
            (sub_le_self _ (mul_nonneg (Nat.cast_nonneg n) (two_zpow_pos f).le))
          -- Both mantissas are brought to the smaller exponent, where they are subtracted.
          obtain ⟨a, ha⟩ : ∃ a, a = m <<< (e - min e f).toNat := ⟨_, rfl⟩
          obtain ⟨b, hb⟩ : ∃ b, b = n <<< (f - min e f).toNat := ⟨_, rfl⟩
          have hmore : (m : ℚ) * 2 ^ e = a * 2 ^ min e f := by
            rw [ha, shiftLeft_value m _ (by omega : e = min e f + _)]
          have hless : (n : ℚ) * 2 ^ f = b * 2 ^ min e f := by
            rw [hb, shiftLeft_value n _ (by omega : f = min e f + _)]
          rw [hmore, hless] at hle ⊢
          have hba : b ≤ a := Nat.cast_le.1 (le_of_mul_le_mul_right hle (two_zpow_pos _))
          rw [← sub_mul, ← Nat.cast_sub hba]
          refine normalize_roundedTo ?_
          rw [Nat.cast_sub hba, ha, hb]
          rfl

/-- The product of two floats, unless it is too large. -/
theorem mul_denotes (hx : Denotes x v) (hy : Denotes y w) (hz : Denotes z u) (hle : v * w ≤ u) :
    ∃ c, Denotes (x * y) c ∧ Rounds (v * w) c := by
  have heq : x * y =
      ofUnpacked (UnpackedFloat.mul .binary64 x.toModel.unpack y.toModel.unpack) := rfl
  rw [heq]
  cases hx with
  | zero s hx =>
      rw [zero_mul, hx]
      refine ⟨0, ?_, .zero⟩
      cases hy with
      | zero s' hy =>
          rw [hy]
          exact denotes_zero rfl
      | finite hm hy hcanonical htop =>
          rw [hy]
          exact denotes_zero rfl
  | finite hm hx hcanonical htop =>
      rw [hx]
      cases hy with
      | zero s' hy =>
          rw [mul_zero, hy]
          exact ⟨0, denotes_zero rfl, .zero⟩
      | finite hn hy hother htop' =>
          rw [hy]
          exact RoundedTo.denotes (mul_roundedTo .positive hm hn hcanonical hother) hz hle

/-- The quotient of two floats, unless it is too large. -/
theorem div_denotes (hx : Denotes x v) (hy : Denotes y w) (hw : 0 < w) (hz : Denotes z u)
    (hle : v / w ≤ u) : ∃ c, Denotes (x / y) c ∧ Rounds (v / w) c := by
  have heq : x / y =
      ofUnpacked (UnpackedFloat.div .binary64 x.toModel.unpack y.toModel.unpack) := rfl
  rw [heq]
  cases hy with
  | zero s' hy => exact absurd hw (lt_irrefl 0)
  | finite hn hy hother htop' =>
      rw [hy]
      cases hx with
      | zero s hx =>
          rw [zero_div, hx]
          exact ⟨0, denotes_zero rfl, .zero⟩
      | finite hm hx hcanonical htop =>
          rw [hx]
          exact RoundedTo.denotes (div_roundedTo .positive _ _ hm hn) hz hle

end WattPlan.Binary64
