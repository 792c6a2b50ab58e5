import WattPlan.Proofs.Binary64.Draws
import WattPlan.Proofs.Catalog.Divisors

/-!
# Means of floats

A sum of floats above zero may grow beyond all doubles, but it is at least as large as if each of
them were the smallest one above zero, as long as multiples of that are exact (`AtLeast.foldl_add`).
So a mean of at most `2 ^ 52` floats above zero is not rounded to nothing: `keepsPositive`.
-/

namespace WattPlan.Binary64

open Float.Model UnpackedFloat

/-- A float that stands for at least a number, or is infinite. -/
inductive AtLeast (x : Float) (u : ℚ) : Prop where
  | infinity (hx : x.toModel.unpack = .infinity .positive) : AtLeast x u
  | finite {v : ℚ} (hx : Denotes x v) (hle : u ≤ v) : AtLeast x u

variable {x y z : Float} {u v w : ℚ} {m n : Nat} {e f : Int}

/-- A multiple of the smallest double above zero is exact, up to a factor. -/
theorem denotes_tiny (hn : n ≤ 2 ^ 52) :
    Denotes (ofUnpacked (magnitude .positive n (-1074))) (n * 2 ^ (-1074 : Int)) :=
  denotes_magnitude ⟨by omega, le_rfl, .inr rfl⟩ (by norm_num)

/-- A finite float above zero is at least the smallest one. -/
theorem exists_denotes_of_pos (h : Scalar.isFinite x = true ∧ 0 < x) :
    ∃ v, Denotes x v ∧ 2 ^ (-1074 : Int) ≤ v := by
  have hpos : (UnpackedFloat.compare (.zero .positive) x.toModel.unpack == some .lt) = true :=
    of_decide_eq_true h.2
  rcases denotes_or_negative h.1 with ⟨v, hx⟩ | ⟨m, e, hm, hx⟩
  · refine ⟨v, hx, ?_⟩
    cases hx with
    | zero s hx =>
        rw [hx] at hpos
        cases hpos
    | finite hm hx hcanonical htop =>
        rename_i m e
        calc (2 : ℚ) ^ (-1074 : Int) ≤ 2 ^ e := two_zpow_le hcanonical.low
          _ ≤ m * 2 ^ e := le_mul_of_one_le_left (two_zpow_pos e).le (Nat.one_le_cast.2 hm)
  · rw [hx] at hpos
    cases hpos

namespace AtLeast

/-- What is at least a number above zero is above zero. -/
theorem pos (h : AtLeast x u) (hu : 0 < u) : 0 < x := by
  cases h with
  | infinity hx =>
      show decide ((UnpackedFloat.compare (.zero .positive) x.toModel.unpack == some .lt) = true) =
        true
      rw [hx]
      rfl
  | finite hx hle =>
      have hzero : Denotes (Scalar.ofNat 0 : Float) (0 : Nat) := ofNat_denotes (by norm_num)
      exact (hzero.lt_iff hx).2 (by rw [Nat.cast_zero]; exact hu.trans_le hle)

/-- A number that is not below a float is not rounded below it, also when it is rounded to
infinity. -/
theorem of_roundedTo {result : UnpackedFloat} (h : RoundedTo result .positive v)
    (hz : Denotes z u) (hle : u ≤ v) : AtLeast (ofUnpacked result) u := by
  obtain ⟨m, e, rfl, hcanonical, hrounds⟩ := h
  by_cases htop : e ≤ 971
  · exact .finite (denotes_magnitude hcanonical htop) (hz.ge_of_rounds hrounds hle)
  · have hm : 0 < m := by
      have hfull := hcanonical.full.resolve_right (by omega)
      omega
    rw [magnitude_of_pos _ _ hm]
    exact .infinity (unpack_pack_overflow .positive hm (not_le.1 htop))

/-- A sum is at least what can be represented of the least that it can be. -/
theorem add (hx : AtLeast x u) (hy : Denotes y w) (hz : Denotes z v) (hle : v ≤ u + w) :
    AtLeast (x + y) v := by
  have heq : x + y =
      ofUnpacked (UnpackedFloat.add .binary64 x.toModel.unpack y.toModel.unpack) := rfl
  cases hx with
  | infinity hx =>
      have hinfinity : x + y = ofUnpacked (.infinity .positive) := by
        rw [heq, hx]
        cases hy with
        | zero s hy => exact hy ▸ rfl
        | finite hm hy hcanonical htop => exact hy ▸ rfl
      rw [hinfinity]
      exact .infinity (unpack_pack_infinity .positive)
  | finite hx hux =>
      rename_i t
      have hsum : v ≤ t + w := hle.trans (by linarith)
      -- Only the sum of two numbers above zero can be too large for a double.
      cases hx with
      | zero s hx =>
          obtain ⟨c, hc, hrounds⟩ :=
            add_denotes (.zero s hx) hy hy (le_of_eq (zero_add w))
          exact .finite hc (hz.ge_of_rounds hrounds hsum)
      | finite hm hx hcanonical htop =>
          have hdenotes := Denotes.finite hm hx hcanonical htop
          cases hy with
          | zero s hy =>
              obtain ⟨c, hc, hrounds⟩ :=
                add_denotes hdenotes (.zero s hy) hdenotes (le_of_eq (add_zero _))
              exact .finite hc (hz.ge_of_rounds hrounds hsum)
          | finite hn hy hother htop' =>
              rw [heq, hx, hy]
              exact of_roundedTo (add_roundedTo _ _ hm hn) hz hsum

/-- A sum of floats above zero is at least the same number of the smallest one. -/
theorem foldl_add {xs : List Float} (hpos : ∀ x ∈ xs, Scalar.isFinite x = true ∧ 0 < x) {k : Nat}
    {start : Float} (hstart : AtLeast start (k * 2 ^ (-1074 : Int)))
    (hfew : k + xs.length ≤ 2 ^ 52) :
    AtLeast (xs.foldl (· + ·) start) ((k + xs.length : Nat) * 2 ^ (-1074 : Int)) := by
  induction xs generalizing k start with
  | nil => exact hstart
  | cons x xs ih =>
      rw [List.forall_mem_cons] at hpos
      rw [List.length_cons] at hfew ⊢
      obtain ⟨v, hx, hv⟩ := exists_denotes_of_pos hpos.1
      have hnext : AtLeast (start + x) ((k + 1 : Nat) * 2 ^ (-1074 : Int)) := by
        refine hstart.add hx (denotes_tiny (by omega)) ?_
        rw [Nat.cast_add, Nat.cast_one, add_mul, one_mul]
        exact add_le_add le_rfl hv
      rw [List.foldl_cons, show k + (xs.length + 1) = k + 1 + xs.length by omega]
      exact ih hpos.2 hnext (by omega)

/-- A quotient by a whole number is at least the smallest double, if the dividend is at least as many
of them. -/
theorem div_ofNat (hx : AtLeast x (n * 2 ^ (-1074 : Int))) (hn : 0 < n) (hfew : n ≤ 2 ^ 52) :
    AtLeast (x / Scalar.ofNat n) (2 ^ (-1074 : Int)) := by
  have hcount : Denotes (Scalar.ofNat n : Float) n := ofNat_denotes (by omega)
  have hpos : (0 : ℚ) < n := Nat.cast_pos.2 hn
  cases hx with
  | infinity hx =>
      have hinfinity : x / Scalar.ofNat n = ofUnpacked (.infinity .positive) := by
        show ofUnpacked (UnpackedFloat.div .binary64 x.toModel.unpack
          (Scalar.ofNat n : Float).toModel.unpack) = _
        rw [hx]
        generalize (Scalar.ofNat n : Float) = y at hcount
        generalize (n : ℚ) = w at hcount hpos
        cases hcount with
        | zero s hy => exact absurd hpos (lt_irrefl 0)
        | finite hm hy hcanonical htop => exact hy ▸ rfl
      rw [hinfinity]
      exact .infinity (unpack_pack_infinity .positive)
  | finite hx hle =>
      rename_i v
      have hone : (1 : ℚ) ≤ n := Nat.one_le_cast.2 hn
      obtain ⟨c, hc, hrounds⟩ := div_denotes hx hcount hpos hx (div_le_self hx.nonneg hone)
      have hunit := denotes_tiny (n := 1) (by norm_num)
      rw [Nat.cast_one, one_mul] at hunit
      refine .finite hc (hunit.ge_of_rounds hrounds ?_)
      rw [le_div_iff₀ hpos, mul_comm]
      exact hle

end AtLeast

/-- A mean of floats above zero is above zero, if there are any and not too many. -/
theorem mean_pos {xs : List Float} (hne : xs ≠ []) (hfew : xs.length ≤ 2 ^ 52)
    (hpos : ∀ x ∈ xs, Scalar.isFinite x = true ∧ 0 < x) : 0 < Scalar.mean xs := by
  have hstart : AtLeast (-0 : Float) ((0 : Nat) * 2 ^ (-1074 : Int)) := by
    rw [Nat.cast_zero, zero_mul]
    exact .finite (.zero .negative rfl) le_rfl
  have hsum := AtLeast.foldl_add hpos hstart (by omega)
  rw [Nat.zero_add] at hsum
  exact (hsum.div_ofNat (List.length_pos_iff.2 hne) hfew).pos (two_zpow_pos _)

/-- The larger of two floats, one of which is above zero, is above zero. -/
theorem max_pos (hx : Denotes x v) (hy : Denotes y w) (hw : 0 < w) :
    ∃ c, Denotes (Scalar.max x y) c ∧ 0 < c := by
  unfold Scalar.max
  split
  · exact ⟨w, hy, hw⟩
  · split
    · exact ⟨w, hy, hw⟩
    · rename_i hlt
      rw [hx.lt_iff hy, not_lt] at hlt
      exact ⟨v, hx, hw.trans_le hlt⟩

/-- The largest of floats above zero is above zero, if there are any. -/
theorem maxFrom_pos {xs : List Float} (hne : xs ≠ [])
    (hpos : ∀ x ∈ xs, Scalar.isFinite x = true ∧ 0 < x) : 0 < Scalar.maxFrom 0 xs := by
  have hzero : Denotes (Scalar.ofNat 0 : Float) (0 : Nat) := ofNat_denotes (by norm_num)
  have hall : ∀ (xs : List Float) (start : Float) (v : ℚ), Denotes start v →
      xs ≠ [] ∨ 0 < v → (∀ x ∈ xs, Scalar.isFinite x = true ∧ 0 < x) →
        ∃ c, Denotes (Scalar.maxFrom start xs) c ∧ 0 < c := by
    intro xs
    induction xs with
    | nil => exact fun start v hstart hpos _ => ⟨v, hstart, hpos.resolve_left (by simp)⟩
    | cons x xs ih =>
        intro start v hstart _ hpos
        rw [List.forall_mem_cons] at hpos
        obtain ⟨w, hx, hw⟩ := exists_denotes_of_pos hpos.1
        obtain ⟨c, hc, hcpos⟩ := max_pos hstart hx ((two_zpow_pos _).trans_le hw)
        exact ih _ c hc (.inr hcpos) hpos.2
  obtain ⟨c, hc, hcpos⟩ := hall xs 0 _ hzero (.inl hne) hpos
  exact (hzero.lt_iff hc).2 (by rw [Nat.cast_zero]; exact hcpos)

/-- Means and maxima of floats above zero are above zero, for up to `2 ^ 52` of them. -/
theorem keepsPositive {bound : Nat} (hbound : bound ≤ 2 ^ 52) :
    Scalar.KeepsPositive Float bound where
  count_pos := by
    intro n hn hle
    have hcount : Denotes (Scalar.ofNat n : Float) n := ofNat_denotes (by omega)
    exact (AtLeast.finite hcount le_rfl).pos (Nat.cast_pos.2 hn)
  pairs_pos := by
    intro n hn hle
    have hcount : Denotes (Scalar.ofNat n : Float) n := ofNat_denotes (by omega)
    have hlarge : Denotes (ofUnpacked (magnitude .positive (2 ^ 52) 52))
        ((2 ^ 52 : Nat) * 2 ^ (52 : Int)) :=
      denotes_magnitude ⟨by norm_num, by norm_num, .inl le_rfl⟩ (by norm_num)
    have hone : (1 : ℚ) ≤ n := Nat.one_le_cast.2 hn
    have hfew : (n : ℚ) ≤ (2 ^ 52 : Nat) := Nat.cast_le.2 (hle.trans hbound)
    have hpairs : (n : ℚ) * n ≤ (2 ^ 52 : Nat) * 2 ^ (52 : Int) := by
      have hpower : (2 : ℚ) ^ (52 : Int) = (2 ^ 52 : Nat) := by norm_num
      rw [hpower]
      exact mul_le_mul hfew hfew (Nat.cast_nonneg n) (Nat.cast_nonneg _)
    obtain ⟨c, hc, hrounds⟩ := mul_denotes hcount hcount hlarge hpairs
    have hself : (n : ℚ) ≤ n * n := le_mul_of_one_le_left (zero_le_one.trans hone) hone
    exact (AtLeast.finite hc (hcount.ge_of_rounds hrounds hself)).pos (Nat.cast_pos.2 hn)
  mean_pos := fun _ hne hle hpos => mean_pos hne (hle.trans hbound) hpos
  max_pos := fun _ hne hpos => maxFrom_pos hne hpos

end WattPlan.Binary64
