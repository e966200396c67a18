import PatternSynth.Proofs.Binary.Rounding

/-!
# Rounding a mantissa

Float operations compute a mantissa with two more bits: whether at least half a unit was cut off,
and whether anything else was. These bits are enough to round to the nearest float, ties to even
(`rounds_roundWithAccuracy`), and the result is the float that the exact number `Rounds` to.
-/

namespace PatternSynth.Binary

open Float.Model Float.Model.UnpackedFloat

/-! ## The nearest whole number -/

/-- The whole number is nearest to the number, and it is even if another one is as near. -/
structure NearestEven (v : ℚ) (n : Nat) : Prop where
  low : n - 1 / 2 ≤ v
  high : v ≤ n + 1 / 2
  odd : n % 2 = 1 → (n : ℚ) - 1 / 2 < v ∧ v < n + 1 / 2

theorem NearestEven.not_lt {v : ℚ} {n n' : Nat} (h : NearestEven v n) (h' : NearestEven v n') :
    ¬ n < n' := by
  intro hlt
  have hle : (n : ℚ) + 1 ≤ n' := by exact_mod_cast hlt
  have hhigh := h.high
  have hlow := h'.low
  have hnext : n' = n + 1 := by
    have : (n' : ℚ) ≤ n + 1 := by linarith
    have : n' ≤ n + 1 := by exact_mod_cast this
    omega
  rcases Nat.mod_two_eq_zero_or_one n with heven | hodd
  · have := (h'.odd (by omega)).1
    linarith
  · have := (h.odd hodd).2
    linarith

theorem NearestEven.unique {v : ℚ} {n n' : Nat} (h : NearestEven v n) (h' : NearestEven v n') :
    n = n' := by
  have := h.not_lt h'
  have := h'.not_lt h
  omega

/-! ## Mantissas with two more bits -/

/-- The number that is cut off to the mantissa, with half a unit in the round bit and anything else
in the sticky bit. -/
def Represents (em : ExtendedMantissa) (v : ℚ) : Prop :=
  let half : ℚ := if em.roundBit then 1 / 2 else 0
  if em.stickyBit then em.mantissa + half < v ∧ v < em.mantissa + half + 1 / 2
  else v = em.mantissa + half

theorem Represents.shiftRightOne {em : ExtendedMantissa} {v : ℚ} (h : Represents em v) :
    Represents em.shiftRightOne (v / 2) := by
  obtain ⟨m, r, s⟩ := em
  have hmod : ((m % 2 : ℕ) : ℚ) + 2 * ((m / 2 : ℕ) : ℚ) = m := by exact_mod_cast Nat.mod_add_div m 2
  rcases Nat.mod_two_eq_zero_or_one m with hm | hm <;> rw [hm] at hmod <;> cases r <;> cases s <;>
    simp [Represents, ExtendedMantissa.shiftRightOne, hm] at h ⊢ <;>
    first | linarith | (constructor <;> linarith)

theorem Represents.shiftRight {em : ExtendedMantissa} {v : ℚ} (h : Represents em v) (n : Nat) :
    Represents (em >>> n) (v / 2 ^ n) := by
  show Represents (n.repeat ExtendedMantissa.shiftRightOne em) _
  induction n with
  | zero => simpa [Nat.repeat] using h
  | succ n ih =>
    rw [pow_succ, ← div_div]
    exact ih.shiftRightOne

theorem Represents.floor {em : ExtendedMantissa} {v : ℚ} (h : Represents em v) :
    (em.mantissa : ℚ) ≤ v ∧ v < em.mantissa + 1 := by
  obtain ⟨m, r, s⟩ := em
  cases r <;> cases s <;> simp [Represents] at h ⊢ <;> constructor <;> linarith

theorem Represents.roundedMantissa {em : ExtendedMantissa} {v : ℚ} (h : Represents em v) :
    NearestEven v em.roundedMantissa := by
  obtain ⟨m, r, s⟩ := em
  cases r with
  | false =>
    have hround : ExtendedMantissa.roundedMantissa ⟨m, false, s⟩ = m := by cases s <;> rfl
    rw [hround]
    cases s <;> simp [Represents] at h <;> constructor <;>
      first | linarith | (intro _; constructor <;> linarith)
  | true =>
    cases s with
    | true =>
      have hround : ExtendedMantissa.roundedMantissa ⟨m, true, true⟩ = m + 1 := rfl
      simp [Represents] at h
      rw [hround]
      constructor <;> push_cast <;> first | linarith | (intro _; constructor <;> linarith)
    | false =>
      -- A tie: the even neighbour is the mantissa or the next one.
      have hround : ExtendedMantissa.roundedMantissa ⟨m, true, false⟩ = m + m % 2 := rfl
      simp [Represents] at h
      rw [hround]
      rcases Nat.mod_two_eq_zero_or_one m with hm | hm <;> rw [hm]
      · constructor <;> push_cast <;> first | linarith | omega
      · constructor <;> push_cast <;> first | linarith | omega

/-! ## Rounding to a float -/

/-- The exponent that a number with this mantissa and exponent is given as a float. -/
def target (m : Nat) (e : Int) : Int :=
  max (m.log2 + 1 + e - 53) (-1074)

theorem targetExponent_eq (m : Nat) (e : Int) :
    Format.binary64.targetExponent (totalExponent m e) = target m e := rfl

theorem shiftToTargetExponent_eq (m : Nat) (e : Int) (acc : Accuracy) :
    shiftToTargetExponent .binary64 m e acc =
      (ExtendedMantissa.ofMantissaAndAccuracy m acc >>> (target m e - e).toNat,
        e + (target m e - e).toNat) := rfl

theorem mantissa_ofMantissaAndAccuracy (m : Nat) (acc : Accuracy) :
    (ExtendedMantissa.ofMantissaAndAccuracy m acc).mantissa = m := by
  rcases acc with _ | _ | _ | _ <;> rfl

/-- In units of its target exponent, a number is below `2 ^ 53`, and at least `2 ^ 52` unless the
exponent is the least one. -/
theorem scaled_bounds {m : Nat} {e : Int} {v : ℚ} (hfloor : (m : ℚ) ≤ v ∧ v < m + 1) {k : Nat}
    (hk : target m e = e + k) :
    v / 2 ^ k < 2 ^ 53 ∧ (-1074 < target m e → 2 ^ 52 ≤ v / 2 ^ k) := by
  have hpow : (0 : ℚ) < 2 ^ k := by positivity
  constructor
  · have hlt : (m : ℚ) + 1 ≤ 2 ^ (m.log2 + 1) := by
      have : m < 2 ^ (m.log2 + 1) := Nat.lt_log2_self
      exact_mod_cast this
    have hle : (2 : ℚ) ^ (m.log2 + 1) ≤ 2 ^ (53 + k) := by
      refine pow_le_pow_right₀ one_le_two ?_
      unfold target at hk
      omega
    rw [div_lt_iff₀ hpow, ← pow_add]
    linarith [hfloor.2]
  · intro hnormal
    have hlog : m.log2 = 52 + k := by
      unfold target at hk hnormal
      omega
    have hge : (2 : ℚ) ^ (52 + k) ≤ m := by
      have hm : m ≠ 0 := by
        rintro rfl
        rw [Nat.log2_zero] at hlog
        omega
      have := Nat.log2_self_le hm
      rw [hlog] at this
      exact_mod_cast this
    rw [le_div_iff₀ hpow, ← pow_add]
    linarith [hfloor.1]

/-- What becomes of a rounded mantissa: it may have got one bit more, and then its exponent is one
more. -/
theorem roundWithAccuracy_eq (s : Sign) {m : Nat} {e : Int} {acc : Accuracy} {k R : Nat}
    (hk : target m e = e + k)
    (hR : (ExtendedMantissa.ofMantissaAndAccuracy m acc >>> k).roundedMantissa = R) (hpos : 0 < R) :
    (R < 2 ^ 53 → roundWithAccuracy .binary64 s m e acc = .finite s R (e + k) hpos) ∧
    (R = 2 ^ 53 →
      roundWithAccuracy .binary64 s m e acc = .finite s (2 ^ 52) (e + k + 1) (by decide)) := by
  have hshift : (target m e - e).toNat = k := by omega
  have hmin : -1074 ≤ e + k := by
    unfold target at hk
    omega
  constructor
  · intro hlt
    have hlog : R.log2 < 53 := (Nat.log2_lt hpos.ne').2 hlt
    have hagain : (target R (e + k) - (e + k)).toNat = 0 := by
      unfold target
      omega
    have hmantissa :
        (ExtendedMantissa.ofMantissaAndAccuracy R Accuracy.exact >>> 0).mantissa = R := rfl
    simp only [roundWithAccuracy, shiftToTargetExponent_eq, hshift, hR, hagain, hmantissa,
      dif_neg hpos.ne', Nat.cast_zero, add_zero]
  · intro heq
    have hagain : (target R (e + k) - (e + k)).toNat = 1 := by
      rw [heq, target, Nat.log2_two_pow]
      omega
    have hmantissa :
        (ExtendedMantissa.ofMantissaAndAccuracy R Accuracy.exact >>> 1).mantissa = 2 ^ 52 := by
      rw [heq]
      rfl
    simp only [roundWithAccuracy, shiftToTargetExponent_eq, hshift, hR, hagain, hmantissa,
      Nat.cast_one]
    rfl

section Scaled

variable {x : ℚ} {R : Nat} {t : Int}

theorem NearestEven.le_two_pow (h : NearestEven x R) (hupper : x < 2 ^ 53) : R ≤ 2 ^ 53 := by
  have hlow := h.low
  have hlt : (R : ℚ) < 2 ^ 53 + 1 := by linarith
  have hlt : R < 2 ^ 53 + 1 := by exact_mod_cast hlt
  omega

theorem NearestEven.two_pow_le (h : NearestEven x R) (hlower : 2 ^ 52 ≤ x) : 2 ^ 52 ≤ R := by
  have hhigh := h.high
  have hlt : (2 : ℚ) ^ 52 < R + 1 := by linarith
  have hlt : 2 ^ 52 < R + 1 := by exact_mod_cast hlt
  omega

/-- A number rounds to zero only up to half of the least float. -/
theorem NearestEven.pos_iff (h : NearestEven x R) (ht : -1074 ≤ t)
    (hnormal : -1074 < t → 2 ^ 52 ≤ x) : 0 < R ↔ 2 ^ (-1075 : Int) < x * 2 ^ t := by
  have hunit := unit_pos (-1075)
  have hhalf : (2 : ℚ) ^ (-1074 : Int) = 2 ^ (-1075 : Int) * 2 := by
    rw [← zpow_add_one₀ two_ne_zero]
    norm_num
  constructor
  · intro hpos
    have hone : (1 : ℚ) ≤ R := by exact_mod_cast hpos
    have habove : 1 / 2 < x := by
      rcases (show R = 1 ∨ 2 ≤ R by omega) with rfl | htwo
      · have := (h.odd rfl).1
        push_cast at this
        linarith
      · have htwo : (2 : ℚ) ≤ R := by exact_mod_cast htwo
        linarith [h.low]
    have hpow : (2 : ℚ) ^ (-1074 : Int) ≤ 2 ^ t := zpow_le_zpow_right₀ one_le_two ht
    nlinarith
  · intro hlow
    by_contra hzero
    obtain rfl : R = 0 := by omega
    have hhigh := h.high
    push_cast at hhigh
    have hleast : t = -1074 := by
      by_contra hne
      have := hnormal (by omega)
      linarith
    rw [hleast, hhalf] at hlow
    nlinarith

theorem rounds_of_nearestEven (h : NearestEven x R) (hnormal : -1074 < t → 2 ^ 52 ≤ x) :
    Rounds (x * 2 ^ t) R t := by
  have hunit := unit_pos t
  have hhigh : x * 2 ^ t ≤ (R + 1 / 2) * 2 ^ t := mul_le_mul_of_nonneg_right h.high hunit.le
  by_cases hpower : R = 2 ^ 52 ∧ -1074 < t
  · have hx := hnormal hpower.2
    have hR : (R : ℚ) = 2 ^ 52 := by exact_mod_cast hpower.1
    refine ⟨?_, hhigh, fun hodd => ?_⟩
    · rw [gapBelow, if_pos hpower]
      exact mul_le_mul_of_nonneg_right (by linarith) hunit.le
    · rw [hpower.1] at hodd
      exact absurd hodd (by decide)
  · have hgap : gapBelow R t = 1 := if_neg hpower
    refine ⟨?_, hhigh, fun hodd => ?_⟩
    · rw [hgap]
      exact mul_le_mul_of_nonneg_right h.low hunit.le
    · rw [hgap]
      exact ⟨mul_lt_mul_of_pos_right (h.odd hodd).1 hunit,
        mul_lt_mul_of_pos_right (h.odd hodd).2 hunit⟩

/-- A mantissa that is rounded up to one bit more. -/
theorem rounds_of_carry (h : NearestEven x (2 ^ 53)) (ht : -1074 ≤ t) :
    Rounds (x * 2 ^ t) (2 ^ 52) (t + 1) := by
  have hunit := unit_pos t
  have hdouble : (2 : ℚ) ^ (t + 1) = 2 * 2 ^ t := by
    rw [zpow_add_one₀ two_ne_zero, mul_comm]
  obtain ⟨hlow, hhigh, -⟩ := h
  push_cast at hlow hhigh
  refine ⟨?_, ?_, fun hodd => absurd hodd (by decide)⟩
  · rw [gapBelow, if_pos ⟨rfl, by omega⟩, hdouble]
    push_cast
    nlinarith
  · rw [hdouble]
    push_cast
    nlinarith

end Scaled

/-- A number in units of its target exponent, and its rounded mantissa. -/
theorem Represents.exists_scaled {m : Nat} {e : Int} {acc : Accuracy} {w : ℚ}
    (hw : Represents (ExtendedMantissa.ofMantissaAndAccuracy m acc) (w / 2 ^ e))
    (htarget : e ≤ target m e) :
    ∃ (k R : ℕ) (x : ℚ), target m e = e + k ∧
      (ExtendedMantissa.ofMantissaAndAccuracy m acc >>> k).roundedMantissa = R ∧
      w = x * 2 ^ (e + k : Int) ∧ NearestEven x R ∧ x < 2 ^ 53 ∧ (-1074 < e + k → 2 ^ 52 ≤ x) := by
  obtain ⟨k, hk⟩ := Int.le.dest htarget
  refine ⟨k, _, w / 2 ^ e / 2 ^ k, hk.symm, rfl, ?_, (hw.shiftRight k).roundedMantissa, ?_⟩
  · rw [div_div, ← zpow_natCast, ← zpow_add₀ two_ne_zero, div_mul_cancel₀ w (unit_pos _).ne']
  · have hfloor := hw.floor
    rw [mantissa_ofMantissaAndAccuracy] at hfloor
    rw [hk]
    exact scaled_bounds hfloor hk.symm

/-- A number above half of the least float rounds to the float that is computed from its mantissa,
apart from a too large exponent. -/
theorem rounds_roundWithAccuracy (s : Sign) {m : Nat} {e : Int} {acc : Accuracy} {w : ℚ}
    (hw : Represents (ExtendedMantissa.ofMantissaAndAccuracy m acc) (w / 2 ^ e))
    (htarget : e ≤ target m e) (hlow : 2 ^ (-1075 : Int) < w) :
    ∃ M E, ∃ hM : 0 < M, roundWithAccuracy .binary64 s m e acc = .finite s M E hM ∧
      M < 2 ^ 53 ∧ -1074 ≤ E ∧ (2 ^ 52 ≤ M ∨ E = -1074) ∧ Rounds w M E := by
  obtain ⟨k, R, x, hk, hR, rfl, hnearest, hupper, hnormal⟩ := hw.exists_scaled htarget
  have hmin : -1074 ≤ e + k := hk ▸ le_max_right _ _
  have hpos : 0 < R := (hnearest.pos_iff hmin hnormal).2 hlow
  obtain ⟨hfits, hcarry⟩ := roundWithAccuracy_eq s hk hR hpos
  rcases (hnearest.le_two_pow hupper).lt_or_eq with hlt | heq
  · refine ⟨R, e + k, hpos, hfits hlt, hlt, hmin, ?_, rounds_of_nearestEven hnearest hnormal⟩
    by_cases hexponent : -1074 < e + k
    · exact Or.inl (hnearest.two_pow_le (hnormal hexponent))
    · exact Or.inr (by omega)
  · exact ⟨2 ^ 52, e + k + 1, by decide, hcarry heq, by decide, by omega, Or.inl (le_refl _),
      rounds_of_carry (heq ▸ hnearest) hmin⟩

/-- Other numbers round to zero. -/
theorem roundWithAccuracy_eq_zero (s : Sign) {m : Nat} {e : Int} {acc : Accuracy} {w : ℚ}
    (hw : Represents (ExtendedMantissa.ofMantissaAndAccuracy m acc) (w / 2 ^ e))
    (htarget : e ≤ target m e) (hhigh : w ≤ 2 ^ (-1075 : Int)) :
    roundWithAccuracy .binary64 s m e acc = .zero s := by
  obtain ⟨k, R, x, hk, hR, rfl, hnearest, -, hnormal⟩ := hw.exists_scaled htarget
  have hzero : R = 0 := by
    by_contra hne
    have hlow := (hnearest.pos_iff (hk ▸ le_max_right _ _) hnormal).1 (Nat.pos_of_ne_zero hne)
    exact absurd hhigh (not_le.2 hlow)
  have hshift : (target m e - e).toNat = k := by omega
  have hmantissa (n : Nat) :
      (ExtendedMantissa.ofMantissaAndAccuracy 0 Accuracy.exact >>> n).mantissa = 0 := by
    have hexact : Represents (ExtendedMantissa.ofMantissaAndAccuracy 0 .exact) 0 := by
      simp [Represents, ExtendedMantissa.ofMantissaAndAccuracy]
    have hfloor := (hexact.shiftRight n).floor.1
    rw [zero_div] at hfloor
    exact Nat.le_zero.1 (by exact_mod_cast hfloor)
  simp only [roundWithAccuracy, shiftToTargetExponent_eq, hshift, hR, hzero, hmantissa,
    dif_pos trivial]

end PatternSynth.Binary
