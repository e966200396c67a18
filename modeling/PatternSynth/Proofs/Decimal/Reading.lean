import PatternSynth.Proofs.Binary.Quotient
import PatternSynth.Proofs.Decimal.Shortest

/-!
# Decimals are read correctly

Reading a decimal gives the float nearest to it (`isNearest_toFloat`). Small decimals are the
quotient or product of two exact floats, and others are divided or multiplied with all their digits.
-/

namespace PatternSynth

namespace Binary

open Float.Model Float.Model.UnpackedFloat

variable {x : Float} {m : Nat} {e : Int}

/-- A number that is a float is kept. -/
theorem IsRounded.eq_of_magnitude {w : ℚ} (h : IsRounded w x) (hcanonical : Canonical m e)
    (hw : w = magnitude m e) : ofFloat x = .finite false m e := by
  obtain ⟨m', e', hcanonical', hrounds, hx⟩ := h
  rw [hw] at hrounds
  obtain ⟨rfl, rfl⟩ := hrounds.unique (rounds_magnitude m e) hcanonical' hcanonical
  exact hx

theorem unpack_of_ofFloat (h : ofFloat x = .finite false m e) (hm : 0 < m) :
    x.toModel.unpack = .finite .positive m e hm := by
  simp only [ofFloat] at h
  split at h
  · cases h
  · cases h
  · injection h with _ hzero _
    omega
  · next s m' e' _ hx =>
    cases s with
    | negative => cases h
    | positive =>
      cases h
      exact hx

/-! ## Whole numbers -/

/-- How far a whole number is shifted to fill a mantissa. -/
def padding (n : Nat) : Nat :=
  52 - n.log2

theorem canonical_padding {n : Nat} (hpos : 0 < n) (hlt : n < 2 ^ 53) :
    Canonical (n <<< padding n) (-(padding n : Int)) ∧ 2 ^ 52 ≤ n <<< padding n := by
  have hlog : n.log2 < 53 := (Nat.log2_lt hpos.ne').2 hlt
  have hlow : 2 ^ 52 ≤ n <<< padding n := by
    calc 2 ^ 52 = 2 ^ n.log2 * 2 ^ padding n := by
          rw [← pow_add]
          congr 1
          unfold padding
          omega
      _ ≤ n * 2 ^ padding n := Nat.mul_le_mul_right _ (Nat.log2_self_le hpos.ne')
      _ = n <<< padding n := (Nat.shiftLeft_eq _ _).symm
  have hhigh : n <<< padding n < 2 ^ 53 := by
    calc n <<< padding n = n * 2 ^ padding n := Nat.shiftLeft_eq _ _
      _ < 2 ^ (n.log2 + 1) * 2 ^ padding n :=
          Nat.mul_lt_mul_of_pos_right Nat.lt_log2_self (by positivity)
      _ = 2 ^ 53 := by
          rw [← pow_add]
          congr 1
          unfold padding
          omega
  refine ⟨⟨by omega, hhigh, ?_, by omega, Or.inl hlow⟩, hlow⟩
  unfold padding
  omega

theorem magnitude_padding (n : Nat) : magnitude (n <<< padding n) (-(padding n : Int)) = n := by
  rw [magnitude, Nat.shiftLeft_eq, zpow_neg, zpow_natCast]
  push_cast
  exact mul_inv_cancel_right₀ (by positivity) _

theorem normalize_nat {n : Nat} (hpos : 0 < n) (hlt : n < 2 ^ 53) :
    UnpackedFloat.normalize .binary64 (n : Int) 0 .positive =
      roundWithAccuracy .binary64 .positive (n <<< padding n) (-(padding n : Int)) .exact := by
  have hgt : compare (n : Int) 0 = .gt := Int.compare_eq_gt.2 (by omega)
  have hpad : (-target n 0).toNat = padding n := by
    have hlog : n.log2 < 53 := (Nat.log2_lt hpos.ne').2 hlt
    unfold target padding
    omega
  simp only [UnpackedFloat.normalize, hgt, UnpackedFloat.round, targetExponent_eq,
    decreaseExponent, Int.toNat_natCast, Int.zero_sub, hpad]

/-- A whole number of at most 53 bits is a float. -/
theorem ofFloat_toFloat_nat {n : Nat} (hpos : 0 < n) (hlt : n < 2 ^ 53) :
    ofFloat n.toUInt64.toFloat = .finite false (n <<< padding n) (-(padding n : Int)) := by
  obtain ⟨hcanonical, hbits⟩ := canonical_padding hpos hlt
  have hnat : n.toUInt64.toNat = n := UInt64.toNat_ofNat_of_lt (by rw [UInt64.size]; omega)
  have htoFloat : n.toUInt64.toFloat = .ofModel (.pack
      (roundWithAccuracy .binary64 .positive (n <<< padding n) (-(padding n : Int)) .exact)) := by
    show Float.ofModel (.pack (.normalize .binary64 (n.toUInt64.toNat : Int) 0 .positive)) = _
    rw [hnat, normalize_nat hpos hlt]
  have hexact : Represents (ExtendedMantissa.ofMantissaAndAccuracy (n <<< padding n) .exact)
      ((n : ℚ) / 2 ^ (-(padding n : Int))) := by
    rw [← magnitude_padding n, magnitude, mul_div_cancel_right₀ _ (unit_pos _).ne']
    simp [Represents, ExtendedMantissa.ofMantissaAndAccuracy]
  have hone : (1 : ℚ) ≤ n := by exact_mod_cast hpos
  have hsize : (n : ℚ) < 2 ^ 53 := by exact_mod_cast hlt
  have hrounded : IsRounded n n.toUInt64.toFloat := by
    rw [htoFloat]
    refine (isNearest_roundWithAccuracy hexact (Or.inr hbits)).rounded ?_ ?_
    · exact least_lt_one.trans_le hone
    · exact hsize.trans two_pow_lt_overflow
  exact hrounded.eq_of_magnitude hcanonical (magnitude_padding n).symm

/-! ## Powers of ten -/

/-- The mantissa of a power of ten. -/
def tenMantissa (k : Nat) : Nat :=
  10 ^ k * 2 ^ 52 / 2 ^ (10 ^ k).log2

theorem ofFloat_powersOfTen : ∀ k : Fin Float.exactlyRepresentablePowersOfTen.size,
    ofFloat Float.exactlyRepresentablePowersOfTen[k] =
        .finite false (tenMantissa k) ((10 ^ k.val).log2 - 52) ∧
      2 ^ 52 ≤ tenMantissa k ∧ tenMantissa k * 2 ^ (10 ^ k.val).log2 = 10 ^ k.val * 2 ^ 52 := by
  decide

/-- The power of ten that the table holds. -/
theorem exists_powerOfTen {k : Nat} (hk : k < Float.exactlyRepresentablePowersOfTen.size) :
    ∃ m e, ∃ hm : 0 < m,
      Float.exactlyRepresentablePowersOfTen[k].toModel.unpack =
        .finite .positive m e hm ∧ magnitude m e = 10 ^ k := by
  obtain ⟨hfloat, hbits, hproduct⟩ := ofFloat_powersOfTen ⟨k, hk⟩
  have hpos : 0 < tenMantissa k := by
    have : 2 ^ 52 ≤ tenMantissa k := hbits
    omega
  refine ⟨tenMantissa k, (10 ^ k).log2 - 52, hpos, unpack_of_ofFloat hfloat hpos, ?_⟩
  have hproductq : (tenMantissa k : ℚ) * 2 ^ (10 ^ k).log2 = 10 ^ k * 2 ^ 52 := by
    exact_mod_cast hproduct
  rw [magnitude, zpow_sub₀ two_ne_zero, zpow_natCast, mul_div_assoc', hproductq]
  exact mul_div_cancel_right₀ _ (by norm_num)

end Binary

namespace Decimal

open Float.Model Float.Model.UnpackedFloat
open Binary (IsNearest overflow magnitude padding)

variable {c : Nat}

/-- Small decimals: the quotient of two floats. -/
theorem isNearest_small_quotient (hpos : 0 < c) (hlt : c < 2 ^ 53) {k : Nat}
    (hk : k < Float.exactlyRepresentablePowersOfTen.size) :
    IsNearest (c / 10 ^ k) (c.toUInt64.toFloat / Float.exactlyRepresentablePowersOfTen[k]) := by
  obtain ⟨m, e, hm, hten, hvalue⟩ := Binary.exists_powerOfTen hk
  obtain ⟨hcanonical, -⟩ := Binary.canonical_padding hpos hlt
  have hc := Binary.unpack_of_ofFloat (Binary.ofFloat_toFloat_nat hpos hlt) hcanonical.pos
  rw [← Binary.magnitude_padding c, ← hvalue]
  have hnearest := Binary.isNearest_div (-(padding c : Int)) e hcanonical.pos hm
  rw [← hc, ← hten] at hnearest
  exact hnearest

/-- Small decimals: the product of two floats. -/
theorem isNearest_small_product (hpos : 0 < c) (hlt : c < 2 ^ 53) {k : Nat}
    (hk : k < Float.exactlyRepresentablePowersOfTen.size) :
    IsNearest (c * 10 ^ k) (c.toUInt64.toFloat * Float.exactlyRepresentablePowersOfTen[k]) := by
  obtain ⟨m, e, hm, hten, hvalue⟩ := Binary.exists_powerOfTen hk
  obtain ⟨hcanonical, hbits⟩ := Binary.canonical_padding hpos hlt
  have hc := Binary.unpack_of_ofFloat (Binary.ofFloat_toFloat_nat hpos hlt) hcanonical.pos
  rw [← Binary.magnitude_padding c, ← hvalue]
  have hnearest := Binary.isNearest_mul (-(padding c : Int)) e hcanonical.pos hm hbits
  rw [← hc, ← hten] at hnearest
  exact hnearest

/-- A decimal with a large exponent is too large for a float. -/
theorem exponent_le (hpos : 0 < c) {k : Int} (hhigh : (c : ℚ) * 10 ^ k < overflow) : k ≤ 2048 := by
  by_contra hlarge
  have hone : (1 : ℚ) ≤ c := by exact_mod_cast hpos
  have hten : overflow ≤ 10 ^ k := by
    calc overflow ≤ 2 ^ 54 * 2 ^ (970 : Int) :=
          mul_le_mul_of_nonneg_right (by norm_num) (Binary.unit_pos 970).le
      _ = 2 ^ (1024 : Int) := by
          rw [← zpow_natCast, ← zpow_add₀ two_ne_zero]
          rfl
      _ ≤ 10 ^ (1024 : Int) := zpow_le_zpow_left₀ (by norm_num) (by norm_num) (by norm_num)
      _ ≤ 10 ^ k := zpow_le_zpow_right₀ (by norm_num) (by omega)
  have hproduct : (10 : ℚ) ^ k ≤ c * 10 ^ k := le_mul_of_one_le_left (by positivity) hone
  linarith

/-- A decimal with a small exponent is below half of the least float. -/
theorem le_exponent {k : Int} (hlow : 2 ^ (-1075 : Int) < (c : ℚ) * 10 ^ k) :
    -(2048 + (c.log2 : Int)) ≤ k := by
  by_contra hsmall
  obtain ⟨n, rfl⟩ : ∃ n : ℕ, k = -n := ⟨(-k).toNat, by omega⟩
  have hc : (c : ℚ) ≤ 2 ^ (c.log2 + 1) := by exact_mod_cast Nat.lt_log2_self.le
  have hn : (2 : ℚ) ^ (c.log2 + 1) * 2 ^ 1075 ≤ 10 ^ n := by
    calc (2 : ℚ) ^ (c.log2 + 1) * 2 ^ 1075 = 2 ^ (c.log2 + 1 + 1075) := (pow_add _ _ _).symm
      _ ≤ 2 ^ n := pow_le_pow_right₀ one_le_two (by omega)
      _ ≤ 10 ^ n := pow_le_pow_left₀ (by norm_num) (by norm_num) n
  have hle : (c : ℚ) * 2 ^ 1075 ≤ 10 ^ n := le_trans (by gcongr) hn
  have hten : (0 : ℚ) < 10 ^ n := by positivity
  have hleast : (c : ℚ) * 10 ^ (-n : Int) ≤ 2 ^ (-1075 : Int) := by
    have htwo : (2 : ℚ) ^ (-1075 : Int) = 1 / 2 ^ 1075 := by
      rw [zpow_neg, one_div]
      rfl
    rw [htwo, zpow_neg, zpow_natCast, ← div_eq_mul_inv, div_le_div_iff₀ hten (by positivity),
      one_mul]
    exact hle
  exact absurd hlow (not_lt.2 hleast)

/-- Other decimals are computed with all their digits. -/
theorem isNearest_ofScientific (c : Nat) (k : Int) :
    IsNearest (c * 10 ^ k) (.ofModel (.ofScientific c k)) := by
  rw [Float.Model.ofScientific, UnpackedFloat.ofScientific]
  by_cases hzero : c = 0
  · rw [dif_pos hzero]
    exact .of_le_least (by simp [hzero]) rfl
  have hpos : 0 < c := Nat.pos_of_ne_zero hzero
  rw [dif_neg hzero]
  by_cases hlarge : k > 2 ^ Format.binary64.exponentBits
  · have hhigh : overflow ≤ (c : ℚ) * 10 ^ k := by
      by_contra hlt
      have := exponent_le hpos (not_le.1 hlt)
      have hlarge : k > 2 ^ 11 := hlarge
      omega
    rw [if_pos hlarge]
    exact .of_overflow_le hhigh rfl
  rw [if_neg hlarge]
  by_cases hsmall : k < -(2 ^ Format.binary64.exponentBits + (c.log2 : Int))
  · have hlow : (c : ℚ) * 10 ^ k ≤ 2 ^ (-1075 : Int) := by
      by_contra hlt
      have := le_exponent (not_le.1 hlt)
      have hsmall : k < -(2 ^ 11 + (c.log2 : Int)) := hsmall
      omega
    rw [if_pos hsmall]
    exact .of_le_least hlow rfl
  rw [if_neg hsmall]
  by_cases hk : 0 ≤ k
  · rw [if_pos hk]
    obtain ⟨n, rfl⟩ := Int.eq_ofNat_of_zero_le hk
    have hc : magnitude (c <<< 53) (-(53 : ℕ)) = c := by
      rw [magnitude, Nat.shiftLeft_eq, zpow_neg, zpow_natCast]
      push_cast
      exact mul_inv_cancel_right₀ (by norm_num) _
    have hten : magnitude (10 ^ n) 0 = 10 ^ (n : Int) := by simp [magnitude]
    have hbits : 2 ^ 52 ≤ c <<< 53 := by
      rw [Nat.shiftLeft_eq]
      omega
    have hmantissa : 0 < c <<< 53 := lt_of_lt_of_le (by decide) hbits
    rw [← hc, ← hten]
    exact Binary.isNearest_mul _ _ hmantissa (by positivity) hbits
  · rw [if_neg hk]
    obtain ⟨n, rfl⟩ : ∃ n : ℕ, k = -n := ⟨(-k).toNat, by omega⟩
    have hquotient : (c : ℚ) * 10 ^ (-n : Int) = magnitude c 0 / magnitude (10 ^ n) 0 := by
      simp [magnitude, div_eq_mul_inv]
    have hn : (-(-(n : Int))).toNat = n := by omega
    rw [hquotient]
    simp only [hn]
    exact Binary.isNearest_div _ _ hpos (by positivity)

/-- The quotients and products of zero in the table are zero. -/
theorem ofFloat_zero_powersOfTen : ∀ k : Fin Float.exactlyRepresentablePowersOfTen.size,
    Binary.ofFloat ((0 : Nat).toUInt64.toFloat / Float.exactlyRepresentablePowersOfTen[k]) =
        .finite false 0 0 ∧
      Binary.ofFloat ((0 : Nat).toUInt64.toFloat * Float.exactlyRepresentablePowersOfTen[k]) =
        .finite false 0 0 := by
  decide

/-- Reading a decimal gives the float nearest to it. -/
theorem isNearest_toFloat (d : Decimal) : IsNearest d.value d.toFloat := by
  obtain ⟨c, k⟩ := d
  simp only [value, toFloat, Float.ofScientific]
  by_cases hfits : c < 2 ^ 53 ∧ k.natAbs ≤ 22
  · have hsize : k.natAbs < Float.exactlyRepresentablePowersOfTen.size := by
      show k.natAbs < 23
      omega
    rw [dif_pos hfits]
    rcases Nat.eq_zero_or_pos c with rfl | hpos
    · -- Zero is the one coefficient that rounds to no positive float.
      obtain ⟨hquotient, hproduct⟩ := ofFloat_zero_powersOfTen ⟨k.natAbs, hsize⟩
      refine .of_le_least (by simp) ?_
      split
      · exact hquotient
      · exact hproduct
    by_cases hneg : k < 0
    · have hquotient : (c : ℚ) * 10 ^ k = c / 10 ^ k.natAbs := by
        obtain ⟨n, rfl⟩ : ∃ n : ℕ, k = -n := ⟨(-k).toNat, by omega⟩
        rw [Int.natAbs_neg, Int.natAbs_natCast, zpow_neg, zpow_natCast, div_eq_mul_inv]
      rw [hquotient]
      simp only [hneg, decide_true, if_true]
      exact isNearest_small_quotient hpos hfits.1 hsize
    · have hproduct : (c : ℚ) * 10 ^ k = c * 10 ^ k.natAbs := by
        obtain ⟨n, rfl⟩ := Int.eq_ofNat_of_zero_le (not_lt.1 hneg)
        rw [Int.natAbs_natCast, zpow_natCast]
      rw [hproduct]
      simp only [hneg, decide_false, Bool.false_eq_true, if_false]
      exact isNearest_small_product hpos hfits.1 hsize
  · rw [dif_neg hfits]
    have hexponent : (if decide (k < 0) = true then Int.negOfNat k.natAbs else Int.ofNat k.natAbs)
        = k := by
      by_cases hneg : k < 0
      · rw [if_pos (decide_eq_true hneg), Int.negOfNat_eq, Int.ofNat_eq_natCast]
        omega
      · rw [if_neg (by simp [hneg]), Int.ofNat_eq_natCast]
        omega
    simp only [hexponent]
    exact isNearest_ofScientific c k

end Decimal

end PatternSynth
