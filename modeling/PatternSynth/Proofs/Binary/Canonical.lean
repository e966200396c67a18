import Mathlib
import PatternSynth.Binary

/-!
# Floats as mantissa and exponent

The finite floats other than the zeros are the pairs of mantissa and exponent that are `Canonical`:
53 bits, or fewer at the least exponent. Reading a float as such a pair and packing the pair undo
one another (`Binary.unpack_pack`, `Binary.pack_unpack`), so the exact value of a float determines
the float (`Binary.ofFloat_injective`).
-/

namespace PatternSynth.Binary

open Float.Model Float.Model.UnpackedFloat

/-- Mantissa and exponent of a finite float other than zero. -/
structure Canonical (m : Nat) (e : Int) : Prop where
  pos : 0 < m
  lt : m < 2 ^ 53
  exponent_ge : -1074 ≤ e
  exponent_le : e ≤ 971
  normal : 2 ^ 52 ≤ m ∨ e = -1074

/-- What unpacking can give. -/
def IsUnpacked : UnpackedFloat → Prop
  | .finite _ m e _ => Canonical m e
  | _ => True

/-! ## Fields of the bit pattern -/

theorem ofBitVec_toBitVec (s : Sign) : Sign.ofBitVec s.toBitVec = s := by
  cases s <;> rfl

theorem toBitVec_ofBitVec (v : BitVec 1) : (Sign.ofBitVec v).toBitVec = v := by
  obtain rfl | rfl : v = 0#1 ∨ v = 1#1 := by
    rcases BitVec.eq_zero_or_eq_one v with h | h
    · exact Or.inl h
    · exact Or.inr h
  · rfl
  · rfl

theorem unpackSign_packComponents (s : Sign) (e : BitVec 11) (m : BitVec 52) :
    unpackSign (packComponents .binary64 s e m) = s.toBitVec := by
  simp only [unpackSign, packComponents, BitVec.extractLsb]
  rw [BitVec.extractLsb'_append_eq_of_le (by omega), BitVec.extractLsb'_append_eq_of_le (by omega)]
  cases s <;> rfl

/-- A bit pattern is made of its three fields. -/
theorem packComponents_unpack (b : BitVec Format.binary64.numBits) :
    packComponents .binary64 (Sign.ofBitVec (unpackSign b)) (unpackExponent b)
      (unpackMantissa b) = b := by
  simp only [packComponents, toBitVec_ofBitVec, unpackSign, unpackExponent, unpackMantissa,
    BitVec.extractLsb]
  ext i hi
  grind

theorem toNat_implicit (v : BitVec 52) : (1#1 ++ v).toNat = 2 ^ 52 + v.toNat := by
  rw [BitVec.toNat_append, ← Nat.shiftLeft_add_eq_or_of_lt v.isLt]
  simp [Nat.shiftLeft_eq]

theorem log2_eq_of_normal {m : Nat} (hlow : 2 ^ 52 ≤ m) (hhigh : m < 2 ^ 53) : m.log2 = 52 := by
  have hge : 52 ≤ m.log2 := (Nat.le_log2 (by omega)).2 hlow
  have hlt : m.log2 < 53 := (Nat.log2_lt (by omega)).2 hhigh
  omega

/-! ## Unpacking -/

theorem exponentBias_binary64 : (Format.binary64.exponentBias : Int) = 1023 := rfl

theorem fractionBits_binary64 : (Format.binary64.mantissaBitsWithoutImplicit : Int) = 52 := rfl

theorem mantissaBits_binary64 : Format.binary64.mantissaBits = 53 := rfl

theorem isUnpacked_unpack (b : BitVec Format.binary64.numBits) :
    IsUnpacked (UnpackedFloat.unpack .binary64 b) := by
  have hmantissa : (unpackMantissa b).toNat < 2 ^ 52 := (unpackMantissa b).isLt
  have hexponent : (unpackExponent b).toNat < 2 ^ 11 := (unpackExponent b).isLt
  rw [UnpackedFloat.unpack]
  split
  · split <;> trivial
  · next hfinite =>
    have hmax : (unpackExponent b).toNat ≠ 2 ^ 11 - 1 := fun h =>
      hfinite (BitVec.toNat_inj.1 (by simpa using h))
    split
    · next hzero =>
      have hexponent0 : (unpackExponent b).toNat = 0 := by rw [hzero]; rfl
      split
      · trivial
      · next hne =>
        have hpos : 0 < (unpackMantissa b).toNat := by
          simpa [BitVec.toNat_pos, BitVec.pos_iff_ne_zero] using hne
        simp only [hexponent0, exponentBias_binary64]
        exact ⟨hpos, by omega, by decide, by decide, Or.inr rfl⟩
    · next hnormal =>
      have hmin : (unpackExponent b).toNat ≠ 0 := fun h =>
        hnormal (BitVec.toNat_inj.1 (by simpa using h))
      simp only [exponentBias_binary64]
      refine ⟨?_, ?_, ?_, ?_, Or.inl ?_⟩
      all_goals first | rw [toNat_implicit]; omega | (push_cast; omega)

/-! ## Packing -/

theorem unpack_packComponents (s : Sign) (e : BitVec 11) (m : BitVec 52) :
    Sign.ofBitVec (unpackSign (packComponents .binary64 s e m)) = s := by
  rw [unpackSign_packComponents, ofBitVec_toBitVec]

theorem unpack_pack_finite (s : Sign) {m : Nat} {e : Int} (hm : 0 < m) (h : Canonical m e) :
    UnpackedFloat.unpack .binary64 (UnpackedFloat.pack .binary64 (.finite s m e hm)) =
      .finite s m e hm := by
  obtain ⟨-, hlt, hge, hle, hnormal⟩ := h
  have hbiased : (e + Format.binary64.exponentBias +
      Format.binary64.mantissaBitsWithoutImplicit).toNat = (e + 1075).toNat := by
    rw [exponentBias_binary64, fractionBits_binary64]
    omega
  rw [UnpackedFloat.pack]
  simp only [hbiased]
  rw [if_neg (by omega)]
  by_cases hlow : 2 ^ 52 ≤ m
  · have hexponent : (BitVec.ofNat 11 (e + 1075).toNat).toNat = (e + 1075).toNat := by
      rw [BitVec.toNat_ofNat, Nat.mod_eq_of_lt (by omega)]
    have hmax : BitVec.ofNat 11 (e + 1075).toNat ≠ -1#11 := by
      intro heq
      have hnat := congrArg BitVec.toNat heq
      rw [hexponent] at hnat
      have hones : (-1#11).toNat = 2047 := rfl
      omega
    have hmin : BitVec.ofNat 11 (e + 1075).toNat ≠ 0#11 := by
      intro heq
      have hnat := congrArg BitVec.toNat heq
      rw [hexponent] at hnat
      have hzero : (0#11).toNat = 0 := rfl
      omega
    have hmantissa : (1#1 ++ BitVec.ofNat 52 m).toNat = m := by
      rw [toNat_implicit, BitVec.toNat_ofNat]
      omega
    rw [if_pos (by rw [log2_eq_of_normal hlow hlt, mantissaBits_binary64]), UnpackedFloat.unpack]
    simp only [unpackMantissa_packComponents, unpackExponent_packComponents,
      unpack_packComponents]
    rw [if_neg hmax, if_neg hmin]
    simp only [hmantissa, hexponent, exponentBias_binary64]
    congr 1
    omega
  · obtain rfl : e = -1074 := hnormal.resolve_left hlow
    have hlog : m.log2 < 52 := (Nat.log2_lt (by omega)).2 (by omega)
    have hmantissa : (BitVec.ofNat 52 m).toNat = m := by
      rw [BitVec.toNat_ofNat, Nat.mod_eq_of_lt (by omega)]
    have hne : BitVec.ofNat 52 m ≠ 0#52 := by
      intro heq
      have hnat := congrArg BitVec.toNat heq
      rw [hmantissa] at hnat
      have hzero : (0#52).toNat = 0 := rfl
      omega
    rw [if_neg (by rw [mantissaBits_binary64]; omega), UnpackedFloat.unpack]
    simp only [unpackMantissa_packComponents, unpackExponent_packComponents,
      unpack_packComponents]
    rw [if_neg (by decide), if_pos trivial, dif_neg hne]
    simp only [hmantissa, exponentBias_binary64]
    rfl

/-- Packing loses nothing of what unpacking can give. -/
theorem unpack_pack {u : UnpackedFloat} (h : IsUnpacked u) :
    UnpackedFloat.unpack .binary64 (UnpackedFloat.pack .binary64 u) = u := by
  cases u with
  | notANumber => rfl
  | infinity s => cases s <;> rfl
  | zero s => cases s <;> rfl
  | finite s m e hm => exact unpack_pack_finite s hm h

theorem packComponents_of_fields {b : BitVec Format.binary64.numBits} {e : BitVec 11}
    {m : BitVec 52} (he : unpackExponent b = e) (hm : unpackMantissa b = m) :
    packComponents .binary64 (Sign.ofBitVec (unpackSign b)) e m = b := by
  rw [← he, ← hm]
  exact packComponents_unpack b

/-- Packing undoes unpacking, for bit patterns whose NaN is the canonical one. -/
theorem pack_unpack {b : BitVec Format.binary64.numBits} (hvalid : Format.binary64.Valid b) :
    UnpackedFloat.pack .binary64 (UnpackedFloat.unpack .binary64 b) = b := by
  have hmantissa : (unpackMantissa b).toNat < 2 ^ 52 := (unpackMantissa b).isLt
  have hexponent : (unpackExponent b).toNat < 2 ^ 11 := (unpackExponent b).isLt
  rw [UnpackedFloat.unpack]
  split
  · next hones =>
    split
    · next hzero => exact packComponents_of_fields hones hzero
    · next hne => exact (hvalid.eq_packedNaN hones hne).symm
  · next hfinite =>
    have hmax : (unpackExponent b).toNat ≠ 2 ^ 11 - 1 := fun h =>
      hfinite (BitVec.toNat_inj.1 (by simpa using h))
    split
    · next hexponent0 =>
      split
      · next hzero => exact packComponents_of_fields hexponent0 hzero
      · next hne =>
        have hpos : 0 < (unpackMantissa b).toNat := by
          simpa [BitVec.toNat_pos, BitVec.pos_iff_ne_zero] using hne
        have hlog : (unpackMantissa b).toNat.log2 < 52 := (Nat.log2_lt (by omega)).2 hmantissa
        have hbiased : (((unpackExponent b).toNat : Int) - (Format.binary64.exponentBias +
            Format.binary64.mantissaBitsWithoutImplicit) + 1 + Format.binary64.exponentBias +
            Format.binary64.mantissaBitsWithoutImplicit).toNat = 1 := by
          rw [hexponent0]
          rfl
        rw [UnpackedFloat.pack]
        simp only [hbiased]
        rw [if_neg (by decide), if_neg (by rw [mantissaBits_binary64]; omega)]
        refine packComponents_of_fields hexponent0 ?_
        rw [BitVec.ofNat_toNat, BitVec.setWidth_eq]
    · next hnormal =>
      have hbiased : (((unpackExponent b).toNat : Int) - (Format.binary64.exponentBias +
          Format.binary64.mantissaBitsWithoutImplicit) + Format.binary64.exponentBias +
          Format.binary64.mantissaBitsWithoutImplicit).toNat = (unpackExponent b).toNat := by
        omega
      have hlog : (1#1 ++ unpackMantissa b).toNat.log2 = 52 := by
        rw [toNat_implicit]
        exact log2_eq_of_normal (by omega) (by omega)
      rw [UnpackedFloat.pack]
      simp only [hbiased]
      rw [if_neg (by omega), if_pos (by rw [hlog, mantissaBits_binary64])]
      refine packComponents_of_fields ?_ ?_
      · rw [BitVec.ofNat_toNat, BitVec.setWidth_eq]
      · have hmod : (2 ^ 52 + (unpackMantissa b).toNat) % 2 ^ 52 = (unpackMantissa b).toNat := by
          omega
        rw [← BitVec.toNat_inj, BitVec.toNat_ofNat, toNat_implicit]
        exact hmod.symm

/-! ## Floats -/

theorem toModel_eq_pack (x : Float) : x.toModel = .pack x.toModel.unpack := by
  obtain ⟨bits, hvalid⟩ := x.toModel
  simp only [Float.Model.pack, Float.Model.unpack, pack_unpack hvalid]

theorem isUnpacked_toModel (x : Float) : IsUnpacked x.toModel.unpack :=
  isUnpacked_unpack _

theorem unpack_ofModel_pack {u : UnpackedFloat} (h : IsUnpacked u) :
    (Float.ofModel (.pack u)).toModel.unpack = u :=
  unpack_pack h

theorem isMinus_inj {s t : Sign} (h : isMinus s = isMinus t) : s = t := by
  cases s <;> cases t <;> first | rfl | cases h

/-- The exact value of a float, with the signs of the zeros, determines the float. -/
theorem ofFloat_injective {x y : Float} (h : ofFloat x = ofFloat y) : x = y := by
  have hunpack : x.toModel.unpack = y.toModel.unpack := by
    simp only [ofFloat] at h
    cases hx : x.toModel.unpack <;> cases hy : y.toModel.unpack <;> rw [hx, hy] at h <;>
      grind [isMinus_inj]
  have hmodel : x.toModel = y.toModel := by
    rw [toModel_eq_pack x, toModel_eq_pack y, hunpack]
  cases x
  cases y
  exact congrArg Float.ofModel hmodel

/-- A finite float is zero, with exponent zero, or canonical. -/
theorem zero_or_canonical {x : Float} {negative : Bool} {m : Nat} {e : Int}
    (h : ofFloat x = .finite negative m e) : m = 0 ∧ e = 0 ∨ Canonical m e := by
  have hunpacked := isUnpacked_toModel x
  simp only [ofFloat] at h
  split at h
  · cases h
  · cases h
  · cases h
    exact Or.inl ⟨rfl, rfl⟩
  · next hx =>
    rw [hx] at hunpacked
    cases h
    exact Or.inr hunpacked

end PatternSynth.Binary
