import PatternSynth.Proofs.Binary.Nearest

/-!
# Products and quotients are correctly rounded

A positive float `IsRounded` from a number if the number rounds to it. `IsNearest` adds what becomes
of numbers outside the range of floats: they give zero or infinity. This holds of the product and of
the quotient of two floats, and of more: their mantissas may have any number of bits, as long as
there are enough for a product to fill a mantissa.
-/

namespace PatternSynth.Binary

open Float.Model Float.Model.UnpackedFloat

/-- The least number that is too large for a float. -/
def overflow : ℚ :=
  (2 ^ 54 - 1) * 2 ^ (970 : Int)

theorem least_lt_one : (2 : ℚ) ^ (-1075 : Int) < 1 := by
  rw [← zpow_zero (2 : ℚ)]
  exact zpow_lt_zpow_right₀ one_lt_two (by norm_num)

theorem two_pow_lt_overflow : (2 : ℚ) ^ 53 < overflow := by
  have hpow : (1 : ℚ) ≤ 2 ^ (970 : Int) := one_le_zpow₀ one_le_two (by norm_num)
  calc (2 : ℚ) ^ 53 < (2 ^ 54 - 1) * 1 := by norm_num
    _ ≤ overflow := mul_le_mul_of_nonneg_left hpow (by norm_num)

/-- The positive float that a number rounds to. -/
def IsRounded (w : ℚ) (x : Float) : Prop :=
  ∃ m e, Canonical m e ∧ Rounds w m e ∧ ofFloat x = .finite false m e

/-- A number that rounds to a float is below the overflow only if the exponent fits. -/
theorem Rounds.exponent_le {w : ℚ} {m : Nat} {e : Int} (h : Rounds w m e) (hm : 2 ^ 52 ≤ m)
    (hw : w < overflow) : e ≤ 971 := by
  by_contra hexponent
  have hm52 : (2 : ℚ) ^ 52 ≤ m := by exact_mod_cast hm
  have hunit : (2 : ℚ) ^ (972 : Int) ≤ 2 ^ e := zpow_le_zpow_right₀ one_le_two (by omega)
  have hfour : (2 : ℚ) ^ (972 : Int) = 4 * 2 ^ (970 : Int) := by
    rw [show (972 : Int) = 2 + 970 by norm_num, zpow_add₀ two_ne_zero]
    norm_num
  have hlow : (2 ^ 52 - 1 / 4 : ℚ) ≤ m - gapBelow m e / 2 := by
    unfold gapBelow
    split
    · linarith
    · next hpower =>
      have hm53 : 2 ^ 52 + 1 ≤ m := by omega
      have hm53 : (2 : ℚ) ^ 52 + 1 ≤ m := by exact_mod_cast hm53
      linarith
  have hnonneg : (0 : ℚ) ≤ m - gapBelow m e / 2 := le_trans (by norm_num) hlow
  have hbound : overflow ≤ w := by
    calc overflow = (2 ^ 52 - 1 / 4) * 2 ^ (972 : Int) := by
          rw [overflow, hfour]
          ring
      _ ≤ (m - gapBelow m e / 2) * 2 ^ e := mul_le_mul hlow hunit (unit_pos 972).le hnonneg
      _ ≤ w := h.low
  linarith

/-- Packing what a number rounds to. -/
theorem isRounded_pack {w : ℚ} {m : Nat} {e : Int} (hpos : 0 < m) (hlt : m < 2 ^ 53)
    (hmin : -1074 ≤ e) (hnormal : 2 ^ 52 ≤ m ∨ e = -1074) (hrounds : Rounds w m e)
    (hw : w < overflow) :
    IsRounded w (.ofModel (.pack (.finite .positive m e hpos))) := by
  have hmax : e ≤ 971 := by
    rcases hnormal with hm | he
    · exact hrounds.exponent_le hm hw
    · omega
  have hcanonical : Canonical m e := ⟨hpos, hlt, hmin, hmax, hnormal⟩
  refine ⟨m, e, hcanonical, hrounds, ?_⟩
  rw [ofFloat, unpack_ofModel_pack (u := .finite .positive m e hpos) hcanonical]
  rfl

/-- A float is in the range of floats, and so is what rounds to it. -/
theorem Rounds.lt_overflow {w : ℚ} {m : Nat} {e : Int} (h : Rounds w m e) (hlt : m < 2 ^ 53)
    (he : e ≤ 971) : w < overflow := by
  have hunit := unit_pos e
  have hpow : (2 : ℚ) ^ e ≤ 2 ^ (971 : Int) := zpow_le_zpow_right₀ one_le_two he
  have hend : overflow = (2 ^ 53 - 1 / 2) * 2 ^ (971 : Int) := by
    rw [overflow, show (971 : Int) = 970 + 1 by norm_num, zpow_add_one₀ two_ne_zero]
    ring
  have hbound : (2 ^ 53 - 1 / 2 : ℚ) * 2 ^ e ≤ overflow := by
    rw [hend]
    exact mul_le_mul_of_nonneg_left hpow (by norm_num)
  rcases Nat.mod_two_eq_zero_or_one m with heven | hodd
  · have hm : m + 2 ≤ 2 ^ 53 := by omega
    have hm : (m : ℚ) + 2 ≤ 2 ^ 53 := by exact_mod_cast hm
    calc w ≤ (m + 1 / 2) * 2 ^ e := h.high
      _ < (2 ^ 53 - 1 / 2) * 2 ^ e := mul_lt_mul_of_pos_right (by linarith) hunit
      _ ≤ overflow := hbound
  · have hm : (m : ℚ) + 1 ≤ 2 ^ 53 := by exact_mod_cast hlt
    calc w < (m + 1 / 2) * 2 ^ e := (h.odd hodd).2
      _ ≤ (2 ^ 53 - 1 / 2) * 2 ^ e := mul_le_mul_of_nonneg_right (by linarith) hunit.le
      _ ≤ overflow := hbound

theorem Rounds.least_lt {w : ℚ} {m : Nat} {e : Int} (h : Rounds w m e) (hpos : 0 < m)
    (he : -1074 ≤ e) : 2 ^ (-1075 : Int) < w := by
  have hunit := unit_pos e
  have hgap := gapBelow_le_one m e
  have hhalf : (2 : ℚ) ^ (-1075 : Int) ≤ 1 / 2 * 2 ^ e := by
    calc (2 : ℚ) ^ (-1075 : Int) = 1 / 2 * 2 ^ (-1074 : Int) := by
          rw [show (-1074 : Int) = -1075 + 1 by norm_num, zpow_add_one₀ two_ne_zero]
          ring
      _ ≤ 1 / 2 * 2 ^ e :=
          mul_le_mul_of_nonneg_left (zpow_le_zpow_right₀ one_le_two he) (by norm_num)
  rcases (show m = 1 ∨ 2 ≤ m by omega) with rfl | htwo
  · have hlow := (h.odd rfl).1
    push_cast at hlow
    nlinarith
  · have htwo : (2 : ℚ) ≤ m := by exact_mod_cast htwo
    nlinarith [h.low]

/-! ## Every number has a nearest float -/

/-- The float nearest to a number that is not negative, ties to the even mantissa. Up to half of the
least float it is zero, and from the overflow on it is infinite. -/
structure IsNearest (w : ℚ) (x : Float) : Prop where
  zero : w ≤ 2 ^ (-1075 : Int) → ofFloat x = .finite false 0 0
  rounded : 2 ^ (-1075 : Int) < w → w < overflow → IsRounded w x
  infinite : overflow ≤ w → ofFloat x = .infinite false

theorem IsNearest.unique {w : ℚ} {x y : Float} (hx : IsNearest w x) (hy : IsNearest w y) :
    x = y := by
  apply ofFloat_injective
  rcases le_or_gt w (2 ^ (-1075 : Int)) with hsmall | hlow
  · rw [hx.zero hsmall, hy.zero hsmall]
  rcases le_or_gt overflow w with hlarge | hhigh
  · rw [hx.infinite hlarge, hy.infinite hlarge]
  obtain ⟨m, e, hcanonical, hrounds, hx⟩ := hx.rounded hlow hhigh
  obtain ⟨m', e', hcanonical', hrounds', hy⟩ := hy.rounded hlow hhigh
  obtain ⟨rfl, rfl⟩ := hrounds.unique hrounds' hcanonical hcanonical'
  rw [hx, hy]

theorem least_lt_overflow : (2 : ℚ) ^ (-1075 : Int) < overflow := by
  calc (2 : ℚ) ^ (-1075 : Int) < 1 := least_lt_one
    _ < 2 ^ 53 := by norm_num
    _ < overflow := two_pow_lt_overflow

theorem IsNearest.of_le_least {w : ℚ} {x : Float} (hw : w ≤ 2 ^ (-1075 : Int))
    (hx : ofFloat x = .finite false 0 0) : IsNearest w x where
  zero _ := hx
  rounded hlow _ := absurd hlow (not_lt.2 hw)
  infinite hhigh := absurd (least_lt_overflow.trans_le (hhigh.trans hw)) (lt_irrefl _)

theorem IsNearest.of_overflow_le {w : ℚ} {x : Float} (hw : overflow ≤ w)
    (hx : ofFloat x = .infinite false) : IsNearest w x where
  zero hle := absurd (least_lt_overflow.trans_le (hw.trans hle)) (lt_irrefl _)
  rounded _ hhigh := absurd hhigh (not_lt.2 hw)
  infinite _ := hx

/-- A float with a too large exponent is packed as infinity. -/
theorem pack_of_lt_exponent (s : Sign) {m : Nat} {e : Int} (hm : 0 < m) (he : 971 < e) :
    Float.Model.pack (.finite s m e hm) = .pack (.infinity s) := by
  have hbiased : 2 ^ Format.binary64.exponentBits ≤ (e + Format.binary64.exponentBias +
      Format.binary64.mantissaBitsWithoutImplicit).toNat + 1 := by
    rw [exponentBias_binary64, fractionBits_binary64]
    show 2048 ≤ _
    omega
  have hpack : UnpackedFloat.pack .binary64 (.finite s m e hm) =
      UnpackedFloat.pack .binary64 (.infinity s) := by
    rw [UnpackedFloat.pack]
    exact if_pos hbiased
  simp only [Float.Model.pack, hpack]

theorem isNearest_roundWithAccuracy {m : Nat} {e : Int} {acc : Accuracy} {w : ℚ}
    (hrepresents : Represents (ExtendedMantissa.ofMantissaAndAccuracy m acc) (w / 2 ^ e))
    (htarget : e ≤ -1074 ∨ 2 ^ 52 ≤ m) :
    IsNearest w (.ofModel (.pack (roundWithAccuracy .binary64 .positive m e acc))) := by
  have hfits : e ≤ target m e := by
    unfold target
    rcases htarget with he | hm
    · omega
    · have : 52 ≤ m.log2 := (Nat.le_log2 (by omega)).2 hm
      omega
  refine ⟨fun hsmall => ?_, fun hlow hhigh => ?_, fun hlarge => ?_⟩
  · rw [roundWithAccuracy_eq_zero .positive hrepresents hfits hsmall]
    rfl
  · obtain ⟨M, E, hM, heq, hlt, hmin, hnormal, hrounds⟩ :=
      rounds_roundWithAccuracy .positive hrepresents hfits hlow
    rw [heq]
    exact isRounded_pack hM hlt hmin hnormal hrounds hhigh
  · obtain ⟨M, E, hM, heq, hlt, -, -, hrounds⟩ :=
      rounds_roundWithAccuracy .positive hrepresents hfits (least_lt_overflow.trans_le hlarge)
    have hexponent : 971 < E := by
      by_contra hle
      exact absurd (hrounds.lt_overflow hlt (by omega)) (not_lt.2 hlarge)
    rw [heq, pack_of_lt_exponent .positive hM hexponent]
    rfl

/-! ## Products -/

variable {m₁ m₂ : Nat} (e₁ e₂ : Int)

theorem isNearest_mul (h₁ : 0 < m₁) (h₂ : 0 < m₂) (hbits : 2 ^ 52 ≤ m₁) :
    IsNearest (magnitude m₁ e₁ * magnitude m₂ e₂)
      (.ofModel (.pack (UnpackedFloat.mul .binary64 (.finite .positive m₁ e₁ h₁)
        (.finite .positive m₂ e₂ h₂)))) := by
  have hexact : Represents (ExtendedMantissa.ofMantissaAndAccuracy (m₁ * m₂) .exact)
      (magnitude m₁ e₁ * magnitude m₂ e₂ / 2 ^ (e₁ + e₂)) := by
    have hproduct : magnitude m₁ e₁ * magnitude m₂ e₂ = (m₁ * m₂ : ℕ) * 2 ^ (e₁ + e₂) := by
      rw [magnitude, magnitude, zpow_add₀ two_ne_zero]
      push_cast
      ring
    rw [hproduct, mul_div_cancel_right₀ _ (unit_pos _).ne']
    simp [Represents, ExtendedMantissa.ofMantissaAndAccuracy]
  exact isNearest_roundWithAccuracy hexact (Or.inr (le_mul_of_le_of_one_le hbits h₂))

/-! ## Quotients -/

/-- What the remainder of a division says about the quotient. -/
theorem represents_div (m : Nat) {n : Nat} (hn : 0 < n) :
    Represents (ExtendedMantissa.ofMantissaAndAccuracy (m / n) (accuracyOfFraction (m % n) n))
      ((m : ℚ) / n) := by
  have hnq : (0 : ℚ) < n := by exact_mod_cast hn
  have hquotient : (m : ℚ) / n = (m / n : ℕ) + ((m % n : ℕ) : ℚ) / n := by
    rw [div_eq_iff hnq.ne', add_mul, div_mul_cancel₀ _ hnq.ne']
    have := Nat.div_add_mod m n
    rw [mul_comm] at this
    exact_mod_cast this.symm
  have hlt : ((m % n : ℕ) : ℚ) / n < 1 := by
    rw [div_lt_one hnq]
    exact_mod_cast Nat.mod_lt m hn
  rw [hquotient, accuracyOfFraction]
  split
  · next hzero => simp [Represents, ExtendedMantissa.ofMantissaAndAccuracy, hzero]
  · next hpos =>
    have hposq : (0 : ℚ) < ((m % n : ℕ) : ℚ) / n :=
      div_pos (by exact_mod_cast Nat.pos_of_ne_zero hpos) hnq
    rcases lt_trichotomy (2 * (m % n)) n with hless | hhalf | hmore
    · have hlessq : ((m % n : ℕ) : ℚ) / n < 1 / 2 := by
        rw [div_lt_div_iff₀ hnq two_pos]
        exact_mod_cast by omega
      rw [Nat.compare_eq_lt.2 hless]
      simpa [Represents, ExtendedMantissa.ofMantissaAndAccuracy] using ⟨hposq, by linarith⟩
    · have hhalfq : ((m % n : ℕ) : ℚ) / n = 1 / 2 := by
        rw [div_eq_div_iff hnq.ne' two_ne_zero]
        exact_mod_cast by omega
      rw [Nat.compare_eq_eq.2 hhalf, hhalfq]
      simp [Represents, ExtendedMantissa.ofMantissaAndAccuracy]
    · have hmoreq : 1 / 2 < ((m % n : ℕ) : ℚ) / n := by
        rw [div_lt_div_iff₀ two_pos hnq]
        exact_mod_cast by omega
      rw [Nat.compare_eq_gt.2 hmore]
      simp only [Represents, ExtendedMantissa.ofMantissaAndAccuracy, if_true]
      constructor <;> linarith

/-- The quotient is computed with enough bits, and the remainder says how it is cut off. -/
theorem represents_divCore (h₁ : 0 < m₁) (h₂ : 0 < m₂) :
    let quotient := divCore .binary64 m₁ e₁ m₂ e₂
    Represents (ExtendedMantissa.ofMantissaAndAccuracy quotient.1 quotient.2.2)
        (magnitude m₁ e₁ / magnitude m₂ e₂ / 2 ^ quotient.2.1) ∧
      (quotient.2.1 ≤ -1074 ∨ 2 ^ 52 ≤ quotient.1) := by
  -- The exponent of the quotient, and how far the dividend is shifted for it.
  let e := min (e₁ - e₂)
    (max (totalExponent m₁ e₁ - totalExponent m₂ e₂ - (53 : ℕ)) (-1074))
  let shift := (e₁ - e₂ - e).toNat
  have hshift : (shift : Int) = e₁ - e₂ - e := Int.toNat_of_nonneg (by omega)
  have hvalue : magnitude m₁ e₁ / magnitude m₂ e₂ / 2 ^ e = ((m₁ <<< shift : ℕ) : ℚ) / m₂ := by
    have hm₂ : (m₂ : ℚ) ≠ 0 := by exact_mod_cast h₂.ne'
    have hpow : (2 : ℚ) ^ e₁ = 2 ^ shift * 2 ^ e₂ * 2 ^ e := by
      rw [← zpow_natCast, hshift, ← zpow_add₀ two_ne_zero, ← zpow_add₀ two_ne_zero]
      congr 1
      ring
    rw [magnitude, magnitude, Nat.shiftLeft_eq, hpow]
    push_cast
    have hunit := (unit_pos e).ne'
    have hunit₂ := (unit_pos e₂).ne'
    field_simp
  have hrepresents := represents_div (m₁ <<< shift) h₂
  rw [← hvalue] at hrepresents
  refine ⟨hrepresents, ?_⟩
  by_cases hleast : e ≤ -1074
  · exact Or.inl hleast
  · refine Or.inr ((Nat.le_div_iff_mul_le h₂).2 ?_)
    have hbits : m₂.log2 + 1 + 52 ≤ m₁.log2 + shift := by
      have he : e ≤ max (totalExponent m₁ e₁ - totalExponent m₂ e₂ - (53 : ℕ)) (-1074) :=
        min_le_right _ _
      unfold totalExponent at he
      omega
    have hm₂ : m₂ < 2 ^ (m₂.log2 + 1) := Nat.lt_log2_self
    have hm₁ : 2 ^ m₁.log2 ≤ m₁ := Nat.log2_self_le h₁.ne'
    calc 2 ^ 52 * m₂ ≤ 2 ^ 52 * 2 ^ (m₂.log2 + 1) := Nat.mul_le_mul_left _ hm₂.le
      _ = 2 ^ (m₂.log2 + 1 + 52) := by rw [← pow_add, Nat.add_comm]
      _ ≤ 2 ^ (m₁.log2 + shift) := Nat.pow_le_pow_right two_pos hbits
      _ = 2 ^ m₁.log2 * 2 ^ shift := pow_add _ _ _
      _ ≤ m₁ * 2 ^ shift := Nat.mul_le_mul_right _ hm₁
      _ = m₁ <<< shift := (Nat.shiftLeft_eq m₁ shift).symm

theorem isNearest_div (h₁ : 0 < m₁) (h₂ : 0 < m₂) :
    IsNearest (magnitude m₁ e₁ / magnitude m₂ e₂)
      (.ofModel (.pack (UnpackedFloat.div .binary64 (.finite .positive m₁ e₁ h₁)
        (.finite .positive m₂ e₂ h₂)))) := by
  obtain ⟨hrepresents, hbits⟩ := represents_divCore e₁ e₂ h₁ h₂
  exact isNearest_roundWithAccuracy hrepresents hbits

end PatternSynth.Binary
