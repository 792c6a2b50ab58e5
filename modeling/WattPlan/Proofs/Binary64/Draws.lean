import Mathlib.Algebra.Order.Floor.Semifield
import Mathlib.Tactic.LinearCombination
import WattPlan.Proofs.Binary64.Arithmetic
import WattPlan.Proofs.LawfulDraws
import WattPlan.Scalar.Binary64

/-!
# Draws of floats

Floats are compared as the numbers that they stand for, whole numbers below `2 ^ 53` are floats, and
rounding to a whole number takes the nearest one. With that, draws of floats keep to their bounds:
no rounding error takes a drawn number out of its interval (`share_le`).
-/

namespace WattPlan.Binary64

open Float.Model UnpackedFloat

variable {x y : Float} {v w : ℚ} {m n : Nat} {e f : Int}

/-! ### Order -/

/-- Canonical mantissas and exponents are compared exponent first. -/
theorem Canonical.lt_of_lt (h : Canonical m e) (hother : Canonical n f) (hef : e < f) :
    (m : ℚ) * 2 ^ e < n * 2 ^ f := by
  have hm : (m : ℚ) < 2 ^ (53 : Int) := by exact_mod_cast h.lt
  have hlow := h.low
  have hn : (2 : ℚ) ^ (52 : Int) ≤ n := by exact_mod_cast hother.full.resolve_right (by omega)
  calc (m : ℚ) * 2 ^ e < 2 ^ (53 : Int) * 2 ^ e := mul_lt_mul_of_pos_right hm (two_zpow_pos e)
    _ = 2 ^ (53 + e) := (two_zpow_add _ _).symm
    _ ≤ 2 ^ (52 + f) := two_zpow_le (by omega)
    _ = 2 ^ (52 : Int) * 2 ^ f := two_zpow_add _ _
    _ ≤ n * 2 ^ f := mul_le_mul_of_nonneg_right hn (two_zpow_pos f).le

/-- Comparing exponents and then mantissas is comparing numbers. -/
theorem Canonical.compare_eq (h : Canonical m e) (hother : Canonical n f) :
    (compare e f).then (compare m n) = compare ((m : ℚ) * 2 ^ e) (n * 2 ^ f) := by
  rcases lt_trichotomy e f with hlt | rfl | hgt
  · rw [compare_lt_iff_lt.2 hlt, compare_lt_iff_lt.2 (h.lt_of_lt hother hlt)]
    rfl
  · rw [compare_eq_iff_eq.2 rfl]
    rcases lt_trichotomy m n with hlt | rfl | hgt
    · rw [compare_lt_iff_lt.2 hlt, compare_lt_iff_lt.2
        (mul_lt_mul_of_pos_right (Nat.cast_lt.2 hlt) (two_zpow_pos e))]
      rfl
    · rw [compare_eq_iff_eq.2 rfl, compare_eq_iff_eq.2 rfl]
      rfl
    · rw [compare_gt_iff_gt.2 hgt, compare_gt_iff_gt.2
        (mul_lt_mul_of_pos_right (Nat.cast_lt.2 hgt) (two_zpow_pos e))]
      rfl
  · rw [compare_gt_iff_gt.2 hgt, compare_gt_iff_gt.2 (hother.lt_of_lt h hgt)]
    rfl

/-- A finite float that stands for no number is negative. -/
theorem denotes_or_negative (h : Scalar.isFinite x = true) :
    (∃ v, Denotes x v) ∨ ∃ m e hm, x.toModel.unpack = .finite .negative m e hm := by
  have hfinite : x.toModel.unpack.isFinite = true := h
  rcases unpack_cases x.toModel with hx | ⟨s, hx⟩ | ⟨s, m, e, hx, hcanonical, htop⟩
  · rw [hx] at hfinite
    cases hfinite
  · rw [hx] at hfinite
    cases hfinite
  · rcases Nat.eq_zero_or_pos m with rfl | hm
    · exact .inl ⟨0, .zero s hx⟩
    · rw [magnitude_of_pos s e hm] at hx
      cases s with
      | positive => exact .inl ⟨_, .finite hm hx hcanonical htop⟩
      | negative => exact .inr ⟨m, e, hm, hx⟩

namespace Denotes

/-- Floats are compared as the numbers that they stand for. -/
theorem compare_eq (hx : Denotes x v) (hy : Denotes y w) :
    UnpackedFloat.compare x.toModel.unpack y.toModel.unpack = some (compare v w) := by
  cases hx with
  | zero s hx =>
      cases hy with
      | zero s' hy =>
          rw [hx, hy, compare_eq_iff_eq.2 rfl]
          rfl
      | finite hn hy =>
          rw [hx, hy, compare_lt_iff_lt.2 (mul_pos (Nat.cast_pos.2 hn) (two_zpow_pos _))]
          rfl
  | finite hm hx hcanonical =>
      cases hy with
      | zero s' hy =>
          rw [hx, hy, compare_gt_iff_gt.2 (mul_pos (Nat.cast_pos.2 hm) (two_zpow_pos _))]
          rfl
      | finite hn hy hother =>
          rw [hx, hy, ← hcanonical.compare_eq hother]
          rfl

/-- One float is less than another one just when its number is. -/
theorem lt_iff (hx : Denotes x v) (hy : Denotes y w) : x < y ↔ v < w := by
  show decide ((UnpackedFloat.compare x.toModel.unpack y.toModel.unpack == some .lt) = true) =
    true ↔ _
  rw [hx.compare_eq hy, decide_eq_true_iff, beq_iff_eq, Option.some_inj, compare_lt_iff_lt]

/-- One float is at most another one just when its number is. -/
theorem le_iff (hx : Denotes x v) (hy : Denotes y w) : x ≤ y ↔ v ≤ w := by
  show decide ((UnpackedFloat.compare x.toModel.unpack y.toModel.unpack).any (·.isLE) = true) =
    true ↔ _
  rw [hx.compare_eq hy, decide_eq_true_iff, Option.any_some, ← Ordering.ne_gt_iff_isLE]
  exact compare_le_iff_le

/-- A finite float that is at least one that is not negative is not negative. -/
theorem of_le (hx : Denotes x v) (hfinite : Scalar.isFinite y = true) (hle : x ≤ y) :
    ∃ w, Denotes y w := by
  refine (denotes_or_negative hfinite).resolve_right ?_
  rintro ⟨m, e, hm, hy⟩
  have hle : (UnpackedFloat.compare x.toModel.unpack y.toModel.unpack).any (·.isLE) = true :=
    of_decide_eq_true hle
  cases hx with
  | zero s hx =>
      rw [hx, hy] at hle
      cases hle
  | finite hn hx =>
      rw [hx, hy] at hle
      cases hle

/-- What a float stands for is not rounded. -/
theorem eq_of_rounds (h : Denotes x v) {c : ℚ} (hrounds : Rounds v c) : c = v :=
  le_antisymm (h.le_of_rounds hrounds le_rfl) (h.ge_of_rounds hrounds le_rfl)

end Denotes

/-! ### Whole numbers -/

theorem denotes_one : Denotes (Float.ofBits 0x3FF0000000000000) 1 := by
  have hunpack : (Float.ofBits 0x3FF0000000000000).toModel.unpack =
      .finite .positive (2 ^ 52) (-52) (by decide) := rfl
  have hvalue : (1 : ℚ) = ((2 ^ 52 : Nat) : ℚ) * 2 ^ (-52 : Int) := by norm_num
  rw [hvalue]
  exact .finite _ hunpack ⟨by norm_num, by norm_num, .inl le_rfl⟩ (by norm_num)

/-- Whole numbers below `2 ^ 53` are floats. -/
theorem ofNat_denotes (hn : n < 2 ^ 53) : Denotes (Scalar.ofNat n : Float) n := by
  have hword : n.toUInt64.toNat = n := by
    rw [UInt64.toNat_ofNat']
    omega
  have hfast : (Scalar.ofNat n : Float) = n.toUInt64.toFloat * Float.ofBits 0x3FF0000000000000 :=
    dif_pos (⟨hn, by decide⟩ : n < 2 ^ 53 ∧ 0 ≤ 22)
  have hrounded : RoundedTo (UnpackedFloat.ofNat .binary64 n.toUInt64.toNat) .positive n := by
    have hnormal := normalize_roundedTo (m := n) (e := 0) (congrArg Nat.cast hword)
    rwa [zpow_zero, mul_one] at hnormal
  have hlarge := denotes_magnitude (m := 2 ^ 52) (e := 1)
    ⟨by norm_num, by norm_num, .inl le_rfl⟩ (by norm_num)
  have hle : (n : ℚ) ≤ ((2 ^ 52 : Nat) : ℚ) * 2 ^ (1 : Int) := by
    have hcast : (n : ℚ) < ((2 ^ 53 : Nat) : ℚ) := Nat.cast_lt.2 hn
    norm_num at hcast ⊢
    exact hcast.le
  obtain ⟨c, hdenotes, hrounds⟩ := hrounded.denotes hlarge hle
  have hgrid : (n : ℚ) = n * 2 ^ (0 : Int) := by simp
  rw [hrounds.eq_of_grid hn.le (by norm_num) hgrid] at hdenotes
  -- The decimal exponent is 0, so the whole number is scaled by one.
  obtain ⟨c, hproduct, hrounds⟩ := mul_denotes hdenotes denotes_one hdenotes (mul_one _).le
  rw [mul_one] at hrounds
  rw [hdenotes.eq_of_rounds hrounds] at hproduct
  rw [hfast]
  exact hproduct

/-- The next whole number is found without rounding. -/
theorem add_one_denotes (h : Denotes x n) (hn : n + 1 < 2 ^ 53) :
    Denotes (x + Scalar.ofNat 1) (n + 1 : Nat) := by
  have hone : Denotes (Scalar.ofNat 1 : Float) ((1 : Nat) : ℚ) := ofNat_denotes (by norm_num)
  have hnext : Denotes (Scalar.ofNat (n + 1) : Float) ((n + 1 : Nat) : ℚ) := ofNat_denotes hn
  have hcast : (n : ℚ) + (1 : Nat) = (n + 1 : Nat) := (Nat.cast_add n 1).symm
  obtain ⟨c, hsum, hc⟩ := add_denotes h hone hnext hcast.le
  rw [hcast] at hc
  rwa [hnext.eq_of_rounds hc] at hsum

/-- The powers of two from `2 ^ 52` on are floats, up to the largest one. -/
theorem pow_denotes {k : Nat} (hk : k ≤ 971) :
    Denotes (ofUnpacked (magnitude .positive (2 ^ 52) k)) (2 ^ (52 + k)) := by
  have hlarge := denotes_magnitude (m := 2 ^ 52) (e := k)
    ⟨by norm_num, by omega, .inl le_rfl⟩ (by omega)
  rwa [zpow_natCast, Nat.cast_pow, Nat.cast_ofNat, ← pow_add] at hlarge

/-- The float zero is the positive zero. -/
theorem unpack_zero : (0 : Float).toModel.unpack = .zero .positive :=
  rfl

/-- Amounts are the floats that stand for a number. -/
theorem isAmount_iff : Scalar.isAmount x = true ↔ ∃ v, Denotes x v := by
  have hzero : Denotes (Scalar.ofNat 0 : Float) (0 : Nat) := ofNat_denotes (by norm_num)
  constructor
  · intro h
    obtain ⟨hfinite, hnonneg⟩ := Bool.and_eq_true_iff.1 h
    have hnonneg : ¬ x < 0 := by simpa using hnonneg
    refine (denotes_or_negative hfinite).resolve_right ?_
    rintro ⟨m, e, hm, hx⟩
    refine hnonneg ?_
    show decide ((UnpackedFloat.lt x.toModel.unpack (0 : Float).toModel.unpack) = true) = true
    rw [hx, unpack_zero]
    rfl
  · rintro ⟨v, hx⟩
    have hnonneg : ¬ x < 0 := fun hlt =>
      absurd ((hx.lt_iff hzero).1 hlt) (not_lt.2 (Nat.cast_zero.trans_le hx.nonneg))
    have hfinite : Scalar.isFinite x = true := by
      show x.toModel.unpack.isFinite = true
      cases hx with
      | zero s hx =>
          rw [hx]
          rfl
      | finite hm hx =>
          rw [hx]
          rfl
    rw [Scalar.isAmount, hfinite, Bool.true_and, decide_eq_false hnonneg]
    rfl

/-- A float between zero and a finite float is finite. -/
theorem isFinite_of_between (hpos : 0 < x) (hle : x ≤ y) (hy : Scalar.isFinite y = true) :
    Scalar.isFinite x = true := by
  have hpos : (UnpackedFloat.compare (.zero .positive) x.toModel.unpack == some .lt) = true :=
    of_decide_eq_true hpos
  have hle : (UnpackedFloat.compare x.toModel.unpack y.toModel.unpack).any (·.isLE) = true :=
    of_decide_eq_true hle
  have hy : y.toModel.unpack.isFinite = true := hy
  show x.toModel.unpack.isFinite = true
  generalize y.toModel.unpack = b at hle hy
  cases hx : x.toModel.unpack with
  | notANumber =>
      rw [hx] at hpos
      cases hpos
  | infinity s =>
      rw [hx] at hpos hle
      cases s with
      | negative => cases hpos
      | positive => cases b with
        | notANumber | infinity => cases hy
        | zero | finite => cases hle
  | zero s => rfl
  | finite s m e hm => rfl

/-! ### Rounding to a whole number -/

/-- A power of two and the opposite one make one. -/
theorem pow_mul_zpow (he : e < 0) : ((Nat.pow 2 (-e).toNat : Nat) : ℚ) * 2 ^ e = 1 := by
  show ((2 ^ (-e).toNat : Nat) : ℚ) * 2 ^ e = 1
  rw [Nat.cast_pow, ← zpow_natCast, Nat.cast_ofNat, ← two_zpow_add,
    show ((-e).toNat : Int) + e = 0 by omega, zpow_zero]

/-- A number with a fraction, and a half more, as a fraction of whole numbers. -/
theorem add_half_eq (m : Nat) (he : e < 0) : (m : ℚ) * 2 ^ e + 1 / 2 =
    ((2 * m + Nat.pow 2 (-e).toNat : Nat) : ℚ) / ((2 * Nat.pow 2 (-e).toNat : Nat) : ℚ) := by
  have hpos : 0 < Nat.pow 2 (-e).toNat := Nat.two_pow_pos _
  have hscale := pow_mul_zpow he
  generalize Nat.pow 2 (-e).toNat = unit at hpos hscale
  rw [eq_div_iff (by positivity)]
  push_cast
  linear_combination 2 * (m : ℚ) * hscale

/-- An amount is rounded to the nearest whole number, the larger one of two. -/
theorem round_denotes (h : Denotes x v) : Denotes (roundHalfAway x) ⌊v + 1 / 2⌋₊ := by
  cases h with
  | zero s hx =>
      have hround : roundHalfAway x = x := by
        unfold roundHalfAway
        rw [hx]
      have hfloor : ⌊(0 : ℚ) + 1 / 2⌋₊ = 0 := by norm_num
      rw [hround, hfloor, Nat.cast_zero]
      exact .zero s hx
  | finite hm hx hcanonical htop =>
      rename_i m e
      rcases le_or_gt 0 e with he | he
      · have hround : roundHalfAway x = x := by
          unfold roundHalfAway
          rw [hx]
          exact if_pos he
        obtain ⟨k, rfl⟩ := Int.eq_ofNat_of_zero_le he
        have hwhole : (m : ℚ) * 2 ^ (k : Int) = (m * 2 ^ k : Nat) := by
          rw [zpow_natCast]
          push_cast
          rfl
        have hfloor : ⌊((m * 2 ^ k : Nat) : ℚ) + 1 / 2⌋₊ = m * 2 ^ k := by
          rw [Nat.floor_eq_iff (by positivity)]
          constructor <;> linarith
        rw [hround, hwhole, hfloor, ← hwhole]
        exact .finite hm hx hcanonical htop
      · have hround : roundHalfAway x = Scalar.ofNat
            ((2 * m + Nat.pow 2 (-e).toNat) / (2 * Nat.pow 2 (-e).toNat)) := by
          unfold roundHalfAway
          rw [hx]
          exact if_neg (not_le.2 he)
        have htwo : 2 ≤ Nat.pow 2 (-e).toNat :=
          Nat.pow_le_pow_right two_pos (by omega : 1 ≤ (-e).toNat)
        rw [hround, add_half_eq m he, Nat.floor_div_natCast, Nat.floor_natCast]
        generalize Nat.pow 2 (-e).toNat = unit at htwo
        have hlt := hcanonical.lt
        exact ofNat_denotes (Nat.div_lt_of_lt_mul (by omega))

/-- An amount is rounded down to the whole number below it. -/
theorem roundDown_denotes (h : Denotes x v) : Denotes (roundDown x) ⌊v⌋₊ := by
  cases h with
  | zero s hx =>
      have hround : roundDown x = x := by
        unfold roundDown
        rw [hx]
      rw [hround, Nat.floor_zero, Nat.cast_zero]
      exact .zero s hx
  | finite hm hx hcanonical htop =>
      rename_i m e
      rcases le_or_gt 0 e with he | he
      · have hround : roundDown x = x := by
          unfold roundDown
          rw [hx]
          exact if_pos he
        obtain ⟨k, rfl⟩ := Int.eq_ofNat_of_zero_le he
        have hwhole : (m : ℚ) * 2 ^ (k : Int) = (m * 2 ^ k : Nat) := by
          rw [zpow_natCast]
          push_cast
          rfl
        rw [hround, hwhole, Nat.floor_natCast, ← hwhole]
        exact .finite hm hx hcanonical htop
      · have hround : roundDown x = Scalar.ofNat (m / Nat.pow 2 (-e).toNat) := by
          unfold roundDown
          rw [hx]
          exact if_neg (not_le.2 he)
        have hpos : ((Nat.pow 2 (-e).toNat : Nat) : ℚ) ≠ 0 :=
          Nat.cast_ne_zero.2 (Nat.two_pow_pos _).ne'
        have hvalue : (m : ℚ) * 2 ^ e = (m : ℚ) / (Nat.pow 2 (-e).toNat : Nat) := by
          rw [eq_div_iff hpos, mul_assoc, mul_comm ((2 : ℚ) ^ e), pow_mul_zpow he, mul_one]
        rw [hround, hvalue, Nat.floor_div_natCast, Nat.floor_natCast]
        exact ofNat_denotes ((Nat.div_le_self _ _).trans_lt hcanonical.lt)

/-! ### Drawn numbers -/

/-- What is missing from the whole of a full mantissa is at least its last place. -/
theorem part_le {q : ℚ} {p : Nat} (hq : q ≤ 1 - 2 ^ (-52 : Int)) (hfull : 2 ^ 52 ≤ p + 1) :
    q * ((p + 1 : Nat) : ℚ) ≤ p := by
  have hpart := mul_le_mul_of_nonneg_right hq (Nat.cast_nonneg (p + 1))
  have hcast : ((2 ^ 52 : Nat) : ℚ) ≤ ((p + 1 : Nat) : ℚ) := Nat.cast_le.2 hfull
  have hunit : (1 : ℚ) ≤ 2 ^ (-52 : Int) * ((p + 1 : Nat) : ℚ) :=
    calc (1 : ℚ) = 2 ^ (-52 : Int) * ((2 ^ 52 : Nat) : ℚ) := by norm_num
      _ ≤ 2 ^ (-52 : Int) * ((p + 1 : Nat) : ℚ) :=
          mul_le_mul_of_nonneg_left hcast (two_zpow_pos _).le
  push_cast at hpart hunit ⊢
  linarith

/-- A part of a rounded difference, rounded itself, is not above the difference. If the difference
was rounded up then what is missing from the whole of it is more than what rounding added. -/
theorem share_le {d s q c : ℚ} {k : Nat} (hgrid : d = k * 2 ^ (-1074 : Int)) (hs : Rounds d s)
    (hq : q ≤ 1 - 2 ^ (-52 : Int)) (hc : Rounds (q * s) c) : c ≤ d := by
  obtain ⟨e, m, hnearest, rfl, hlow, hmin, hmax⟩ := hs
  have hpos := two_zpow_pos e
  have hm : m ≤ 2 ^ 53 := by
    refine hnearest.le_of_le ((div_le_iff₀ hpos).2 ?_)
    rw [add_comm, two_zpow_add] at hmax
    exact_mod_cast hmax.le
  rcases le_or_gt ((m : ℚ) * 2 ^ e) d with hle | hgt
  · have hone : q ≤ 1 := hq.trans (sub_le_self _ (two_zpow_pos _).le)
    have hpart : q * (m * 2 ^ e) ≤ m * 2 ^ e :=
      mul_le_of_le_one_left (mul_nonneg (Nat.cast_nonneg m) hpos.le) hone
    exact (hc.le_of_le hm hlow hpart).trans hle
  · have hfull : 2 ^ 52 ≤ m := by
      rcases hmin with rfl | hmin
      · -- The difference of two floats is a multiple of the least one, so it was not rounded.
        have hwhole : m ≤ k := hnearest.le_of_le ((div_le_iff₀ hpos).2 hgrid.le)
        exact absurd hgt (not_lt.2
          ((mul_le_mul_of_nonneg_right (Nat.cast_le.2 hwhole) hpos.le).trans hgrid.ge))
      · refine hnearest.ge_of_ge ((le_div_iff₀ hpos).2 ?_)
        rw [add_comm, two_zpow_add] at hmin
        exact_mod_cast hmin
    obtain ⟨p, rfl⟩ : ∃ p, m = p + 1 := ⟨m - 1, by omega⟩
    have hpart : q * (((p + 1 : Nat) : ℚ) * 2 ^ e) ≤ p * 2 ^ e := by
      rw [← mul_assoc]
      exact mul_le_mul_of_nonneg_right (part_le hq hfull) hpos.le
    have hbelow : (p : ℚ) * 2 ^ e ≤ d := by
      refine (le_div_iff₀ hpos).1 (le_trans ?_ hnearest.low)
      push_cast
      linarith
    exact (hc.le_of_le (by omega) hlow hpart).trans hbelow

/-- The difference of two floats is a multiple of the least one. -/
theorem sub_grid (hx : Denotes x v) (hy : Denotes y w) (hle : w ≤ v) :
    ∃ k : Nat, v - w = k * 2 ^ (-1074 : Int) := by
  obtain ⟨m, e, hcanonical, -, rfl⟩ := hx.canonical
  obtain ⟨n, f, hother, -, rfl⟩ := hy.canonical
  rw [Rounds.refine_grid hcanonical.low, Rounds.refine_grid hother.low] at hle ⊢
  rw [← sub_mul, ← Nat.cast_sub (Nat.cast_le.1 (le_of_mul_le_mul_right hle (two_zpow_pos _)))]
  exact ⟨_, rfl⟩

/-- Fractions of 52 bits are floats. -/
theorem fraction_denotes (hn : n < Nat.pow 2 52) :
    Denotes (Scalar.ofNat n / Scalar.ofNat (Nat.pow 2 52) : Float) (n * 2 ^ (-52 : Int)) := by
  have hn : n < 2 ^ 52 := hn
  have hnumerator : Denotes (Scalar.ofNat n : Float) n := ofNat_denotes (by omega)
  have hdenominator : Denotes (Scalar.ofNat (Nat.pow 2 52) : Float) ((2 ^ 52 : Nat) : ℚ) :=
    ofNat_denotes (by norm_num)
  have hpos : (0 : ℚ) < ((2 ^ 52 : Nat) : ℚ) := by norm_num
  have hvalue : (n : ℚ) / ((2 ^ 52 : Nat) : ℚ) = n * 2 ^ (-52 : Int) := by
    rw [div_eq_mul_inv]
    norm_num
  obtain ⟨c, hdenotes, hrounds⟩ := div_denotes hnumerator hdenominator hpos hnumerator
    (div_le_self (Nat.cast_nonneg n) (by norm_num))
  rw [hvalue] at hrounds
  rwa [hrounds.eq_of_grid (by omega) (by norm_num) rfl] at hdenotes

/-- A number drawn between two floats is between them. -/
theorem share_denotes (hx : Denotes x v) (hy : Denotes y w) (hlt : v < w)
    (hn : n < Nat.pow 2 52) :
    ∃ c, Denotes (Scalar.ofNat n / Scalar.ofNat (Nat.pow 2 52) * (y - x) + x) c ∧
      v ≤ c ∧ c ≤ w := by
  have hshare := fraction_denotes hn
  have hq : (n : ℚ) * 2 ^ (-52 : Int) ≤ 1 - 2 ^ (-52 : Int) := by
    have hnext : ((n + 1 : Nat) : ℚ) ≤ ((2 ^ 52 : Nat) : ℚ) := Nat.cast_le.2 hn
    have hscaled := mul_le_mul_of_nonneg_right hnext (two_zpow_pos (-52)).le
    have hone : ((2 ^ 52 : Nat) : ℚ) * 2 ^ (-52 : Int) = 1 := by norm_num
    rw [hone] at hscaled
    push_cast at hscaled
    linarith
  obtain ⟨s, hs, hsRounds⟩ := sub_denotes hy hx hlt.le
  obtain ⟨k, hgrid⟩ := sub_grid hy hx hlt.le
  have hone := hq.trans (sub_le_self 1 (two_zpow_pos (-52)).le)
  obtain ⟨c, hc, hcRounds⟩ :=
    mul_denotes hshare hs hs (mul_le_of_le_one_left hs.nonneg hone)
  have hle := share_le hgrid hsRounds hq hcRounds
  obtain ⟨r, hr, hrRounds⟩ := add_denotes hc hx hy (by linarith)
  exact ⟨r, hr, hx.ge_of_rounds hrRounds (by linarith [hc.nonneg]),
    hy.le_of_rounds hrRounds (by linarith)⟩

/-- The difference of two floats that are not negative is finite. -/
theorem isFinite_sub (hx : Scalar.isAmount x = true) (hy : Scalar.isAmount y = true)
    (hlt : x < y) : Scalar.isFinite (y - x) = true := by
  obtain ⟨v, hv⟩ := isAmount_iff.1 hx
  obtain ⟨w, hw⟩ := isAmount_iff.1 hy
  obtain ⟨c, hwidth, -⟩ := sub_denotes hw hv ((hv.lt_iff hw).1 hlt).le
  exact (Bool.and_eq_true_iff.1 (isAmount_iff.2 ⟨c, hwidth⟩)).1

/-- Draws of floats keep to their bounds. -/
instance lawfulDraws : Scalar.LawfulDraws Float where
  le_of_lt := by
    intro a b hab
    have hlt : (UnpackedFloat.compare a.toModel.unpack b.toModel.unpack == some .lt) = true :=
      of_decide_eq_true hab
    show decide ((UnpackedFloat.compare a.toModel.unpack b.toModel.unpack).any (·.isLE) = true) =
      true
    rw [beq_iff_eq.1 hlt]
    rfl
  zero := isAmount_iff.2 ⟨_, ofNat_denotes (by norm_num)⟩
  isAmount_of_le := by
    intro a b ha hb hab
    obtain ⟨v, hv⟩ := isAmount_iff.1 ha
    exact isAmount_iff.2 (hv.of_le hb hab)
  zero_le := by
    intro a ha
    obtain ⟨v, hv⟩ := isAmount_iff.1 ha
    have hzero : Denotes (Scalar.ofNat 0 : Float) (0 : Nat) := ofNat_denotes (by norm_num)
    exact (hzero.le_iff hv).2 (Nat.cast_zero.trans_le hv.nonneg)
  le_refl := by
    intro a ha
    obtain ⟨v, hv⟩ := isAmount_iff.1 ha
    exact (hv.le_iff hv).2 le_rfl
  share := by
    intro low high n hlow hhigh hlt hn
    obtain ⟨v, hv⟩ := isAmount_iff.1 hlow
    obtain ⟨w, hw⟩ := isAmount_iff.1 hhigh
    obtain ⟨c, hc, hvc, hcw⟩ := share_denotes hv hw ((hv.lt_iff hw).1 hlt) hn
    exact ⟨isAmount_iff.2 ⟨c, hc⟩, (hv.le_iff hc).2 hvc, (hc.le_iff hw).2 hcw⟩
  round_zero := rfl
  round_le := by
    intro a b ha hb hab
    obtain ⟨v, hv⟩ := isAmount_iff.1 ha
    obtain ⟨w, hw⟩ := isAmount_iff.1 hb
    have hle := (hv.le_iff hw).1 hab
    exact ⟨isAmount_iff.2 ⟨_, round_denotes hv⟩, ((round_denotes hv).le_iff (round_denotes hw)).2
      (Nat.cast_le.2 (Nat.floor_le_floor (add_le_add_left hle _)))⟩
  neg_zero_add := by
    intro a ha
    obtain ⟨v, hv⟩ := isAmount_iff.1 ha
    have hzero : (-0 : Float).toModel.unpack = .zero .negative := rfl
    show ofUnpacked (UnpackedFloat.add .binary64 (-0 : Float).toModel.unpack a.toModel.unpack) = a
    conv_rhs => rw [← ofUnpacked_unpack a]
    rw [hzero]
    cases hv with
    | zero s ha =>
        rw [ha]
        cases s <;> rfl
    | finite hm ha =>
        rw [ha]
        rfl

end WattPlan.Binary64
