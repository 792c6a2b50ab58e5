import WattPlan.Proofs.Binary64.Rounding

/-!
# Packing floats

A float is stored in bits. Packing a canonical mantissa and exponent loses nothing if the exponent is
not too large (`unpack_pack`), and what is unpacked from bits packs to the same bits
(`pack_unpack`). A float is the word of its bits (`word_injective`).
-/

namespace WattPlan.Binary64

open Float.Model UnpackedFloat

theorem unpackSign_packComponents (s : Sign) (e : BitVec 11) (m : BitVec 52) :
    unpackSign (packComponents .binary64 s e m) = s.toBitVec := by
  delta unpackSign packComponents
  simp only [BitVec.extractLsb]
  ext i hi
  grind

theorem ofBitVec_toBitVec (s : Sign) : Sign.ofBitVec s.toBitVec = s := by
  cases s <;> rfl

theorem toBitVec_ofBitVec (b : BitVec 1) : (Sign.ofBitVec b).toBitVec = b := by
  revert b
  decide

/-- The mantissa of a double with its first bit. -/
theorem toNat_implicit (m : BitVec 52) : (1#1 ++ m).toNat = 2 ^ 52 + m.toNat := by
  rw [BitVec.toNat_append, ← Nat.shiftLeft_add_eq_or_of_lt m.isLt]
  simp [Nat.shiftLeft_eq]

/-- Floats are equal if their mantissas and exponents are. -/
theorem finite_congr (s : Sign) {m n : Nat} {e f : Int} (hmantissa : m = n) (hexponent : e = f)
    (hm : 0 < m) (hn : 0 < n) : UnpackedFloat.finite s m e hm = .finite s n f hn := by
  subst hmantissa hexponent
  rfl

/-- Bits are put together from their parts. -/
theorem packComponents_unpack (b : BitVec Format.binary64.numBits) :
    packComponents .binary64 (Sign.ofBitVec (unpackSign b)) (unpackExponent b) (unpackMantissa b) =
      b := by
  delta unpackSign unpackExponent unpackMantissa packComponents
  simp only [toBitVec_ofBitVec, BitVec.extractLsb]
  ext i hi
  grind

variable {b : BitVec Format.binary64.numBits} {m : Nat} {e : Int}

/-- Bits with the largest exponent stand for an infinity or for the undefined value. -/
theorem unpack_of_top (h : unpackExponent b = -1#11) : UnpackedFloat.unpack .binary64 b =
    if unpackMantissa b = 0#52 then .infinity (Sign.ofBitVec (unpackSign b)) else .notANumber := by
  unfold UnpackedFloat.unpack
  dsimp only
  rw [if_pos h]

/-- Bits with the least exponent stand for a mantissa without a first bit. -/
theorem unpack_of_low (h : unpackExponent b = 0#11) : UnpackedFloat.unpack .binary64 b =
    magnitude (Sign.ofBitVec (unpackSign b)) (unpackMantissa b).toNat (-1074) := by
  have htop : ¬ unpackExponent b = -1#11 := by
    rw [h]
    decide
  have hzero : unpackMantissa b = 0#52 ↔ (unpackMantissa b).toNat = 0 := BitVec.toNat_eq
  unfold UnpackedFloat.unpack magnitude
  dsimp only
  rw [if_neg htop, if_pos h]
  by_cases hm : unpackMantissa b = 0#52
  · rw [dif_pos hm, dif_pos (hzero.1 hm)]
  · rw [dif_neg hm, dif_neg fun heq => hm (hzero.2 heq)]
    exact finite_congr _ rfl (by rw [h]; rfl) _ _

/-- Bits with another exponent stand for a mantissa with a first bit. -/
theorem unpack_of_between (hlow : unpackExponent b ≠ 0#11) (htop : unpackExponent b ≠ -1#11) :
    UnpackedFloat.unpack .binary64 b = .finite (Sign.ofBitVec (unpackSign b))
      (2 ^ 52 + (unpackMantissa b).toNat) (((unpackExponent b).toNat : Int) - 1075) (by omega) := by
  unfold UnpackedFloat.unpack
  dsimp only
  rw [if_neg htop, if_neg hlow]
  exact finite_congr _ (toNat_implicit _) rfl _ _

/-- Bits with the least exponent stand for a float without a first bit. -/
theorem unpack_subnormal (s : Sign) (m : BitVec 52) :
    UnpackedFloat.unpack .binary64 (packComponents .binary64 s 0 m) =
      magnitude s m.toNat (-1074) := by
  have hexponent : unpackExponent (packComponents .binary64 s 0 m) = 0#11 :=
    unpackExponent_packComponents
  rw [unpack_of_low hexponent, unpackSign_packComponents, ofBitVec_toBitVec,
    unpackMantissa_packComponents]

/-- Bits with another exponent stand for a float with a first bit. -/
theorem unpack_normal (s : Sign) {e : BitVec 11} (m : BitVec 52) (hlow : e ≠ 0) (hhigh : e ≠ -1) :
    UnpackedFloat.unpack .binary64 (packComponents .binary64 s e m) =
      .finite s (2 ^ 52 + m.toNat) ((e.toNat : Int) - 1075) (by omega) := by
  have hexponent : unpackExponent (packComponents .binary64 s e m) = e :=
    unpackExponent_packComponents
  rw [unpack_of_between (hexponent.trans_ne hlow) (hexponent.trans_ne hhigh),
    unpackSign_packComponents, ofBitVec_toBitVec]
  exact finite_congr s (by rw [unpackMantissa_packComponents]) (by rw [hexponent]) _ _

/-- The bits of a float with a first bit. -/
theorem pack_normal (s : Sign) (hm : 0 < m) (hfull : 2 ^ 52 ≤ m) (hlt : m < 2 ^ 53) {b : Nat}
    (hb : (b : Int) = e + 1075) (htop : b < 2047) :
    UnpackedFloat.pack .binary64 (.finite s m e hm) =
      packComponents .binary64 s (BitVec.ofNat 11 b) (BitVec.ofNat 52 m) := by
  have hbiased : (e + (Format.binary64.exponentBias : Int) +
      (Format.binary64.mantissaBitsWithoutImplicit : Int)).toNat = b := by
    show (e + 1023 + 52).toNat = b
    omega
  have hfits : ¬ 2 ^ Format.binary64.exponentBits ≤ b + 1 := by
    show ¬ 2 ^ 11 ≤ b + 1
    omega
  have hlog : m.log2 = 52 := (Nat.log2_eq_iff hm.ne').2 ⟨hfull, hlt⟩
  have hbits : m.log2 + 1 = Format.binary64.mantissaBits := by
    rw [hlog]
    rfl
  unfold UnpackedFloat.pack
  dsimp only
  rw [hbiased, if_neg hfits, if_pos hbits]

/-- The bits of a float without a first bit. -/
theorem pack_subnormal (s : Sign) (hm : 0 < m) (hlt : m < 2 ^ 52) :
    UnpackedFloat.pack .binary64 (.finite s m (-1074) hm) =
      packComponents .binary64 s 0 (BitVec.ofNat 52 m) := by
  have hfits : ¬ 2 ^ Format.binary64.exponentBits ≤ (-1074 +
      (Format.binary64.exponentBias : Int) +
      (Format.binary64.mantissaBitsWithoutImplicit : Int)).toNat + 1 := by
    show ¬ 2 ^ 11 ≤ (-1074 + 1023 + 52 : Int).toNat + 1
    decide
  have hlog : m.log2 < 52 := (Nat.log2_lt hm.ne').2 hlt
  have hbits : ¬ m.log2 + 1 = Format.binary64.mantissaBits := by
    show ¬ m.log2 + 1 = 53
    omega
  unfold UnpackedFloat.pack
  dsimp only
  rw [if_neg hfits, if_neg hbits]
  rfl

/-- Packing a zero loses nothing. -/
theorem unpack_pack_zero (s : Sign) : (Float.Model.pack (.zero s)).unpack = .zero s := by
  cases s <;> rfl

/-- Packing a canonical mantissa and exponent loses nothing, if the exponent is not too large. -/
theorem unpack_pack (s : Sign) (hm : 0 < m) (h : Canonical m e) (he : e ≤ 971) :
    (Float.Model.pack (.finite s m e hm)).unpack = .finite s m e hm := by
  have hlow := h.low
  have hlt := h.lt
  show UnpackedFloat.unpack .binary64 (UnpackedFloat.pack .binary64 (.finite s m e hm)) = _
  by_cases hfull : 2 ^ 52 ≤ m
  · obtain ⟨b, hb⟩ : ∃ b : Nat, (b : Int) = e + 1075 := ⟨(e + 1075).toNat, by omega⟩
    have hexponent : (BitVec.ofNat 11 b).toNat = b := by
      rw [BitVec.toNat_ofNat]
      omega
    have hnot : ∀ x : BitVec 11, x.toNat ≠ b → BitVec.ofNat 11 b ≠ x := fun x hx heq =>
      hx (heq ▸ hexponent)
    have hmantissa : 2 ^ 52 + (BitVec.ofNat 52 m).toNat = m := by
      rw [BitVec.toNat_ofNat]
      omega
    have hexp : ((BitVec.ofNat 11 b).toNat : Int) - 1075 = e := by omega
    rw [pack_normal s hm hfull hlt hb (by omega), unpack_normal s _
      (hnot 0 (by show 0 ≠ b; omega)) (hnot (-1) (by show 2047 ≠ b; omega))]
    exact finite_congr s hmantissa hexp _ hm
  · obtain rfl := h.full.resolve_left hfull
    have hmantissa : (BitVec.ofNat 52 m).toNat = m := by
      rw [BitVec.toNat_ofNat]
      omega
    rw [pack_subnormal s hm (by omega), unpack_subnormal, hmantissa, magnitude_of_pos]

/-- Packing an infinity loses nothing. -/
theorem unpack_pack_infinity (s : Sign) : (Float.Model.pack (.infinity s)).unpack = .infinity s := by
  cases s <;> rfl

/-- Packing a number with a larger exponent gives infinity. -/
theorem unpack_pack_overflow (s : Sign) (hm : 0 < m) (he : 971 < e) :
    (Float.Model.pack (.finite s m e hm)).unpack = .infinity s := by
  have hlarge : 2 ^ Format.binary64.exponentBits ≤ (e + (Format.binary64.exponentBias : Int) +
      (Format.binary64.mantissaBitsWithoutImplicit : Int)).toNat + 1 := by
    show 2 ^ 11 ≤ (e + 1023 + 52).toNat + 1
    omega
  have hpack : UnpackedFloat.pack .binary64 (.finite s m e hm) =
      UnpackedFloat.pack .binary64 (.infinity s) := by
    unfold UnpackedFloat.pack
    dsimp only
    rw [if_pos hlarge]
  show UnpackedFloat.unpack .binary64 (UnpackedFloat.pack .binary64 (.finite s m e hm)) = _
  rw [hpack]
  exact unpack_pack_infinity s

/-- Exponents other than the least and the largest one, as numbers. -/
theorem exponent_between (hlow : unpackExponent b ≠ 0#11) (htop : unpackExponent b ≠ -1#11) :
    0 < (unpackExponent b).toNat ∧ (unpackExponent b).toNat < 2047 := by
  have hlt : (unpackExponent b).toNat < 2 ^ 11 := (unpackExponent b).isLt
  have hzero : (unpackExponent b).toNat ≠ 0 := fun heq => hlow (BitVec.eq_of_toNat_eq heq)
  have hones : (unpackExponent b).toNat ≠ 2047 := fun heq => htop (BitVec.eq_of_toNat_eq heq)
  omega

/-- What is unpacked from valid bits packs to the same bits. -/
theorem pack_unpack_bits (h : Format.binary64.Valid b) :
    UnpackedFloat.pack .binary64 (UnpackedFloat.unpack .binary64 b) = b := by
  have hparts := packComponents_unpack b
  have hm : (unpackMantissa b).toNat < 2 ^ 52 := (unpackMantissa b).isLt
  by_cases htop : unpackExponent b = -1#11
  · rw [unpack_of_top htop]
    split
    · rename_i hzero
      conv_rhs => rw [← hparts, htop, hzero]
      rfl
    · rename_i hsome
      exact (h.eq_packedNaN htop hsome).symm
  · by_cases hlow : unpackExponent b = 0#11
    · rw [unpack_of_low hlow]
      conv_rhs => rw [← hparts, hlow]
      rcases Nat.eq_zero_or_pos (unpackMantissa b).toNat with hzero | hpos
      · rw [hzero, BitVec.eq_of_toNat_eq (show (unpackMantissa b).toNat = (0#52).toNat from hzero)]
        rfl
      · rw [magnitude_of_pos _ _ hpos, pack_subnormal _ hpos hm]
        congr 1
        exact BitVec.ofNat_toNat _ _
    · have hfraction : BitVec.ofNat 52 (2 ^ 52 + (unpackMantissa b).toNat) = unpackMantissa b := by
        apply BitVec.eq_of_toNat_eq
        rw [BitVec.toNat_ofNat]
        omega
      have hbiased : ((unpackExponent b).toNat : Int) =
          ((unpackExponent b).toNat : Int) - 1075 + 1075 := by omega
      rw [unpack_of_between hlow htop, pack_normal _ _ (by omega) (by omega) hbiased
        (exponent_between hlow htop).2, hfraction]
      conv_rhs => rw [← hparts]
      congr 1
      exact BitVec.ofNat_toNat _ _

/-- Bits are undefined, an infinity or a canonical mantissa and exponent. -/
theorem unpack_bits_cases : UnpackedFloat.unpack .binary64 b = .notANumber ∨
    (∃ s, UnpackedFloat.unpack .binary64 b = .infinity s) ∨
    ∃ s m e, UnpackedFloat.unpack .binary64 b = magnitude s m e ∧ Canonical m e ∧ e ≤ 971 := by
  have hm : (unpackMantissa b).toNat < 2 ^ 52 := (unpackMantissa b).isLt
  by_cases htop : unpackExponent b = -1#11
  · rw [unpack_of_top htop]
    split
    · exact .inr (.inl ⟨_, rfl⟩)
    · exact .inl rfl
  · right
    right
    by_cases hlow : unpackExponent b = 0#11
    · exact ⟨_, _, _, unpack_of_low hlow, ⟨by omega, le_rfl, .inr rfl⟩, by omega⟩
    · have hexponent := exponent_between hlow htop
      rw [unpack_of_between hlow htop]
      refine ⟨_, 2 ^ 52 + (unpackMantissa b).toNat, (unpackExponent b).toNat - 1075,
        (magnitude_of_pos _ _ (by omega)).symm, ⟨by omega, by omega, .inl (by omega)⟩, by omega⟩

/-- What is unpacked from a float packs to this float. -/
theorem pack_unpack (f : Float.Model) : Float.Model.pack f.unpack = f := by
  obtain ⟨⟨b⟩, hvalid⟩ := f
  have hbits : UnpackedFloat.pack .binary64 (UnpackedFloat.unpack .binary64 b) = b :=
    pack_unpack_bits hvalid
  have hword : (⟨UnpackedFloat.pack .binary64 (UnpackedFloat.unpack .binary64 b)⟩ : UInt64) = ⟨b⟩ :=
    congrArg UInt64.ofBitVec hbits
  exact Float.Model.mk.injEq _ _ _ _ ▸ hword

/-- A float is undefined, an infinity or a canonical mantissa and exponent. -/
theorem unpack_cases (f : Float.Model) : f.unpack = .notANumber ∨ (∃ s, f.unpack = .infinity s) ∨
    ∃ s m e, f.unpack = magnitude s m e ∧ Canonical m e ∧ e ≤ 971 :=
  unpack_bits_cases

/-- A float is its word of 64 bits. -/
theorem word_injective : Function.Injective fun x : Float => x.toModel.toBits.toFin := by
  rintro ⟨⟨a, ha⟩⟩ ⟨⟨b, hb⟩⟩ h
  obtain rfl : a = b := UInt64.toFin_inj.1 h
  rfl

end WattPlan.Binary64
