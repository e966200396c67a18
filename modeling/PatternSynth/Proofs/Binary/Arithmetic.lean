import PatternSynth.Proofs.Binary.Value

/-!
# The arithmetic of floats

A float operation computes with exact numbers and rounds once. `RoundsTo` says what is known of a
rounded number: it is finite iff the number is below the overflow, and no float is closer. Sums,
differences, products and quotients of finite floats round in this way (`roundsTo_add`,
`roundsTo_sub`, `roundsTo_mul`, `roundsTo_div`).
-/

namespace PatternSynth.Binary

open Float.Model Float.Model.UnpackedFloat

/-! ## Rounding to the closest float -/

/-- No float is closer to the first number than the second one is. -/
def Closest (w q : ℚ) : Prop :=
  ∀ z : Float, z.isFinite = true → |w - q| ≤ |w - real z|

theorem Closest.neg {w q : ℚ} (h : Closest w q) : Closest (-w) (-q) := by
  intro z hz
  have hneg := h (-z) ((isFinite_neg z).trans hz)
  rw [real_neg hz] at hneg
  rw [← abs_neg, ← abs_neg (-w - real z)]
  convert hneg using 2 <;> ring

theorem Closest.signed {w q : ℚ} (h : Closest w q) (s : Sign) :
    Closest (signed s w) (Binary.signed s q) := by
  cases s with
  | negative => exact h.neg
  | positive => exact h

/-- No float is closer than zero to a number up to half of the least float. -/
theorem closest_zero {w : ℚ} (hnonneg : 0 ≤ w) (hsmall : w ≤ 2 ^ (-1075 : Int)) : Closest w 0 := by
  intro z hz
  rw [sub_zero, abs_of_nonneg hnonneg]
  rcases le_or_gt (real z) 0 with hreal | hreal
  · exact le_trans (by linarith) (le_abs_self (w - real z))
  · have hleast := least_le_real hz hreal
    have hhalf : (2 : ℚ) ^ (-1074 : Int) = 2 * 2 ^ (-1075 : Int) := by
      rw [show (-1074 : Int) = -1075 + 1 by norm_num, zpow_add_one₀ two_ne_zero, mul_comm]
    exact le_trans (by linarith) (neg_le_abs (w - real z))

/-- No float is closer than the one that the number rounds to. -/
theorem Rounds.closest {w : ℚ} {m : Nat} {e : Int} (hw : Rounds w m e) (h : Canonical m e) :
    Closest w (magnitude m e) := by
  intro z hz
  rcases le_or_gt (real z) 0 with hreal | hreal
  · -- Zero is no closer, since a rounded number is at most twice as large as the number.
    have hdouble : magnitude m e ≤ 2 * w := by
      have hone : (1 : ℚ) ≤ m := by exact_mod_cast h.pos
      have hgap := gapBelow_le_one m e
      have hhalf : (m : ℚ) * 2 ^ e ≤ 2 * ((m - gapBelow m e / 2) * 2 ^ e) := by
        nlinarith [unit_pos e]
      have hlow := hw.low
      rw [magnitude]
      linarith
    have hmagnitude := magnitude_pos h.pos e
    calc |w - magnitude m e| ≤ w := abs_le.2 ⟨by linarith, by linarith⟩
      _ ≤ w - real z := by linarith
      _ ≤ |w - real z| := le_abs_self _
  · obtain ⟨m', e', h', hz⟩ := canonical_of_real_pos hz hreal
    rw [hz]
    exact hw.nearest h h'

/-- The float is what the number rounds to, up to the sign of a zero. -/
structure RoundsTo (w : ℚ) (x : Float) : Prop where
  isFinite_iff : x.isFinite = true ↔ |w| < overflow
  closest : x.isFinite = true → Closest w (real x)

theorem abs_signed (s : Sign) (q : ℚ) : |signed s q| = |q| := by
  cases s with
  | negative => exact abs_neg q
  | positive => rfl

theorem abs_signed_of_nonneg (s : Sign) {q : ℚ} (hq : 0 ≤ q) : |signed s q| = q :=
  (abs_signed s q).trans (abs_of_nonneg hq)

theorem overflow_pos : 0 < overflow :=
  (by norm_num : (0 : ℚ) < 2 ^ 53).trans two_pow_lt_overflow

theorem roundsTo_zero (s : Sign) {w : ℚ} (hnonneg : 0 ≤ w) (hsmall : w ≤ 2 ^ (-1075 : Int)) :
    RoundsTo (signed s w) (.ofModel (.pack (.zero s))) := by
  have hunpack := unpack_ofModel_pack (u := .zero s) trivial
  have hfinite : (Float.ofModel (.pack (.zero s))).isFinite = true :=
    congrArg UnpackedFloat.isFinite hunpack
  have hreal : real (.ofModel (.pack (.zero s))) = signed s 0 := by
    rw [real_of_unpack_zero hunpack]
    cases s <;> simp [signed]
  refine ⟨iff_of_true hfinite ?_, fun _ => ?_⟩
  · rw [abs_signed_of_nonneg s hnonneg]
    exact hsmall.trans_lt least_lt_overflow
  · rw [hreal]
    exact (closest_zero hnonneg hsmall).signed s

theorem roundsTo_infinity (s : Sign) {w : ℚ} (hlarge : overflow ≤ w) :
    RoundsTo (signed s w) (.ofModel (.pack (.infinity s))) := by
  have hunpack := unpack_ofModel_pack (u := .infinity s) trivial
  have hinfinite : (Float.ofModel (.pack (.infinity s))).isFinite = false :=
    congrArg UnpackedFloat.isFinite hunpack
  refine ⟨iff_of_false (Bool.not_eq_true _ ▸ hinfinite) ?_, fun h => ?_⟩
  · rw [abs_signed_of_nonneg s (overflow_pos.le.trans hlarge)]
    exact not_lt.2 hlarge
  · exact absurd h (Bool.not_eq_true _ ▸ hinfinite)

theorem roundsTo_finite (s : Sign) {w : ℚ} {m : Nat} {e : Int} (hm : 0 < m) (h : Canonical m e)
    (hrounds : Rounds w m e) (hpos : 0 < w) :
    RoundsTo (signed s w) (.ofModel (.pack (.finite s m e hm))) := by
  have hunpack := unpack_ofModel_pack (u := .finite s m e hm) h
  have hfinite : (Float.ofModel (.pack (.finite s m e hm))).isFinite = true :=
    congrArg UnpackedFloat.isFinite hunpack
  have hreal := real_of_unpack hunpack
  refine ⟨iff_of_true hfinite ?_, fun _ => ?_⟩
  · rw [abs_signed_of_nonneg s hpos.le]
    exact hrounds.lt_overflow h.lt h.exponent_le
  · rw [hreal]
    exact (hrounds.closest h).signed s

/-- Rounding a mantissa that has enough bits. -/
theorem roundsTo_roundWithAccuracy (s : Sign) {m : Nat} {e : Int} {acc : Accuracy} {w : ℚ}
    (hrepresents : Represents (ExtendedMantissa.ofMantissaAndAccuracy m acc) (w / 2 ^ e))
    (htarget : e ≤ -1074 ∨ 2 ^ 52 ≤ m) :
    RoundsTo (signed s w) (.ofModel (.pack (roundWithAccuracy .binary64 s m e acc))) := by
  have hfits : e ≤ target m e := by
    unfold target
    rcases htarget with he | hm
    · omega
    · have : 52 ≤ m.log2 := (Nat.le_log2 (by omega)).2 hm
      omega
  have hnonneg : 0 ≤ w := by
    have hfloor := hrepresents.floor.1
    rw [mantissa_ofMantissaAndAccuracy, le_div_iff₀ (unit_pos e)] at hfloor
    exact le_trans (mul_nonneg (Nat.cast_nonneg m) (unit_pos e).le) hfloor
  rcases le_or_gt w (2 ^ (-1075 : Int)) with hsmall | hlow
  · rw [roundWithAccuracy_eq_zero s hrepresents hfits hsmall]
    exact roundsTo_zero s hnonneg hsmall
  obtain ⟨M, E, hM, heq, hlt, hmin, hnormal, hrounds⟩ :=
    rounds_roundWithAccuracy s hrepresents hfits hlow
  rw [heq]
  rcases le_or_gt overflow w with hlarge | hhigh
  · have hexponent : 971 < E := by
      by_contra hle
      exact absurd (hrounds.lt_overflow hlt (by omega)) (not_lt.2 hlarge)
    rw [pack_of_lt_exponent s hM hexponent]
    exact roundsTo_infinity s hlarge
  · have hmax : E ≤ 971 := by
      rcases hnormal with hm | he
      · exact hrounds.exponent_le hm hhigh
      · omega
    exact roundsTo_finite s hM ⟨hM, hlt, hmin, hmax, hnormal⟩ hrounds ((unit_pos _).trans hlow)

/-- Rounding any mantissa. -/
theorem roundsTo_round (s : Sign) {m : Nat} (hm : 0 < m) (e : Int) :
    RoundsTo (signed s (magnitude m e))
      (.ofModel (.pack (UnpackedFloat.round .binary64 s m e))) := by
  let k := (e - target m e).toNat
  have hround : UnpackedFloat.round .binary64 s m e =
      roundWithAccuracy .binary64 s (m <<< k) (e - k) .exact := rfl
  have hexact : Represents (ExtendedMantissa.ofMantissaAndAccuracy (m <<< k) .exact)
      (magnitude m e / 2 ^ (e - k : Int)) := by
    have hshift := magnitude_add m (e - k) k
    rw [sub_add_cancel] at hshift
    rw [hshift, mul_div_cancel_right₀ _ (unit_pos _).ne', Nat.shiftLeft_eq]
    simp [Represents, ExtendedMantissa.ofMantissaAndAccuracy]
  rw [hround]
  refine roundsTo_roundWithAccuracy s hexact ?_
  by_cases hleast : e - k ≤ -1074
  · exact Or.inl hleast
  · have hlog : 52 ≤ m.log2 + k := by
      have hk : (k : Int) = max (e - target m e) 0 := Int.toNat_eq_max _
      unfold target at hk
      omega
    refine Or.inr ?_
    calc 2 ^ 52 ≤ 2 ^ (m.log2 + k) := Nat.pow_le_pow_right two_pos hlog
      _ = 2 ^ m.log2 * 2 ^ k := pow_add _ _ _
      _ ≤ m * 2 ^ k := Nat.mul_le_mul_right _ (Nat.log2_self_le hm.ne')
      _ = m <<< k := (Nat.shiftLeft_eq m k).symm

theorem roundsTo_normalize (n e : Int) (s : Sign) :
    RoundsTo (n * 2 ^ e) (.ofModel (.pack (UnpackedFloat.normalize .binary64 n e s))) := by
  rw [UnpackedFloat.normalize]
  rcases lt_trichotomy n 0 with hneg | rfl | hpos
  · rw [compare_lt_iff_lt.2 hneg]
    have hround := roundsTo_round .negative (m := (-n).toNat) (by omega) e
    have hvalue : signed .negative (magnitude (-n).toNat e) = n * 2 ^ e := by
      have htoNat : (((-n).toNat : ℕ) : ℚ) = -n := by
        have : (((-n).toNat : ℕ) : Int) = -n := Int.toNat_of_nonneg (by omega)
        exact_mod_cast this
      rw [signed, magnitude, htoNat]
      ring
    rwa [hvalue] at hround
  · rw [compare_eq_iff_eq.2 rfl]
    have hzero := roundsTo_zero s le_rfl (unit_pos (-1075)).le
    have hvalue : signed s 0 = ((0 : Int) : ℚ) * 2 ^ e := by cases s <;> simp [signed]
    rwa [hvalue] at hzero
  · rw [compare_gt_iff_gt.2 hpos]
    have hround := roundsTo_round .positive (m := n.toNat) (by omega) e
    have hvalue : signed .positive (magnitude n.toNat e) = n * 2 ^ e := by
      have htoNat : ((n.toNat : ℕ) : ℚ) = n := by
        have : ((n.toNat : ℕ) : Int) = n := Int.toNat_of_nonneg hpos.le
        exact_mod_cast this
      rw [signed, magnitude, htoNat]
    rwa [hvalue] at hround

/-! ## What follows from rounding -/

namespace RoundsTo

variable {w : ℚ} {x z z' : Float}

/-- A number between two floats is rounded to a float between them. -/
theorem between (h : RoundsTo w x) (hz : z.isFinite = true) (hz' : z'.isFinite = true)
    (hlow : real z ≤ w) (hhigh : w ≤ real z') :
    x.isFinite = true ∧ real z ≤ real x ∧ real x ≤ real z' := by
  have hrange : |w| < overflow := by
    have hz := abs_lt.1 (abs_real_lt hz)
    have hz' := abs_lt.1 (abs_real_lt hz')
    exact abs_lt.2 ⟨by linarith, by linarith⟩
  have hfinite := h.isFinite_iff.2 hrange
  have hclosest := h.closest hfinite z hz
  have hclosest' := h.closest hfinite z' hz'
  rw [abs_of_nonneg (sub_nonneg.2 hlow), abs_le] at hclosest
  rw [abs_of_nonpos (sub_nonpos.2 hhigh), abs_le] at hclosest'
  exact ⟨hfinite, by linarith, by linarith⟩

/-- The number of a float is kept. -/
theorem exact (h : RoundsTo w x) (hz : z.isFinite = true) (hw : w = real z) :
    x.isFinite = true ∧ real x = w := by
  obtain ⟨hfinite, hlow, hhigh⟩ := h.between hz hz hw.ge hw.le
  exact ⟨hfinite, hw ▸ le_antisymm hhigh hlow⟩

/-- A number that is no larger than a float is rounded to one that is no larger. -/
theorem abs_real_le (h : RoundsTo w x) (hz : z.isFinite = true) (hw : |w| ≤ |real z|) :
    x.isFinite = true ∧ |real x| ≤ |real z| := by
  obtain ⟨hlow, hhigh⟩ := abs_le.1 hw
  have hneg := real_neg hz
  rcases le_total 0 (real z) with hpos | hneg'
  · rw [abs_of_nonneg hpos] at hlow hhigh ⊢
    obtain ⟨hfinite, hlow', hhigh'⟩ :=
      h.between ((isFinite_neg z).trans hz) hz (hneg.trans_le hlow) hhigh
    exact ⟨hfinite, abs_le.2 ⟨hneg ▸ hlow', hhigh'⟩⟩
  · rw [abs_of_nonpos hneg'] at hlow hhigh ⊢
    obtain ⟨hfinite, hlow', hhigh'⟩ :=
      h.between hz ((isFinite_neg z).trans hz) (by linarith) (hhigh.trans hneg.ge)
    exact ⟨hfinite, abs_le.2 ⟨by linarith, hneg ▸ hhigh'⟩⟩

/-- A rounded number is at most twice as large as the number. -/
theorem double (h : RoundsTo w x) : |real x| ≤ 2 * |w| := by
  by_cases hfinite : x.isFinite = true
  · have hzero := h.closest hfinite 0 rfl
    rw [real_of_unpack_zero (x := 0) (s := .positive) rfl, sub_zero, abs_sub_comm] at hzero
    have htriangle := abs_add_le (real x - w) w
    rw [sub_add_cancel] at htriangle
    linarith
  · rw [real_of_not_isFinite (Bool.not_eq_true _ ▸ hfinite), abs_zero]
    positivity

end RoundsTo

/-! ## The four operations -/

variable {x y : Float}

theorem eq_ofModel_pack (x : Float) : x = .ofModel (.pack x.toModel.unpack) :=
  congrArg Float.ofModel (toModel_eq_pack x)

/-- A float rounds to itself. -/
theorem roundsTo_real (hx : x.isFinite = true) : RoundsTo (real x) x := by
  rcases finite_cases hx with ⟨s, hzero⟩ | ⟨s, m, e, hm, hfinite, hcanonical⟩
  · have hself := roundsTo_zero s le_rfl (unit_pos (-1075)).le
    rw [← hzero, ← eq_ofModel_pack] at hself
    have hvalue : real x = signed s 0 := by
      rw [real_of_unpack_zero hzero]
      cases s <;> simp [signed]
    rwa [hvalue]
  · have hself := roundsTo_finite s hm hcanonical (rounds_magnitude m e) (magnitude_pos hm e)
    rw [← hfinite, ← eq_ofModel_pack] at hself
    rwa [real_of_unpack hfinite]

/-- A mantissa in smaller units. -/
theorem apply_shiftLeft (s : Sign) (m : Nat) {e unit : Int} (h : unit ≤ e) :
    (s.apply ((m <<< (e - unit).toNat : ℕ) : Int) : ℚ) * 2 ^ unit = signed s (magnitude m e) := by
  obtain ⟨d, rfl⟩ := Int.le.dest h
  have hd : (unit + d - unit).toNat = d := by omega
  rw [hd, magnitude_add, Nat.shiftLeft_eq]
  cases s with
  | negative => rw [Sign.apply, signed, Int.cast_neg, Int.cast_natCast, neg_mul]
  | positive => rw [Sign.apply, signed, Int.cast_natCast]

theorem roundsTo_signed_zero (s : Sign) : RoundsTo 0 (.ofModel (.pack (.zero s))) := by
  have hzero := roundsTo_zero s le_rfl (unit_pos (-1075)).le
  have hvalue : signed s 0 = 0 := by cases s <;> simp [signed]
  rwa [hvalue] at hzero

theorem roundsTo_add (hx : x.isFinite = true) (hy : y.isFinite = true) :
    RoundsTo (real x + real y) (x + y) := by
  have hadd : x + y =
      .ofModel (.pack (UnpackedFloat.add .binary64 x.toModel.unpack y.toModel.unpack)) := rfl
  rcases finite_cases hx with ⟨s, hzero⟩ | ⟨s, m, e, hm, hfinite, -⟩ <;>
    rcases finite_cases hy with ⟨s', hzero'⟩ | ⟨s', m', e', hm', hfinite', -⟩
  · rw [real_of_unpack_zero hzero, real_of_unpack_zero hzero', add_zero, hadd, hzero, hzero']
    cases s <;> cases s' <;> exact roundsTo_signed_zero _
  · have hsum : x + y = y := by
      rw [hadd, hzero, hfinite', eq_ofModel_pack y, hfinite']
      rfl
    rw [real_of_unpack_zero hzero, zero_add, hsum]
    exact roundsTo_real hy
  · have hsum : x + y = x := by
      rw [hadd, hfinite, hzero', eq_ofModel_pack x, hfinite]
      rfl
    rw [real_of_unpack_zero hzero', add_zero, hsum]
    exact roundsTo_real hx
  · let unit := min e e'
    let n := s.apply ((m <<< (e - unit).toNat : ℕ) : Int) +
      s'.apply ((m' <<< (e' - unit).toNat : ℕ) : Int)
    have hsum : x + y = .ofModel (.pack (UnpackedFloat.normalize .binary64 n unit .positive)) := by
      rw [hadd, hfinite, hfinite']
      rfl
    have hvalue : (n : ℚ) * 2 ^ unit = real x + real y := by
      rw [real_of_unpack hfinite, real_of_unpack hfinite', Int.cast_add, add_mul,
        apply_shiftLeft s m (min_le_left e e'), apply_shiftLeft s' m' (min_le_right e e')]
    rw [hsum, ← hvalue]
    exact roundsTo_normalize n unit .positive

/-- A difference is the sum with the negated float. -/
theorem float_sub_eq_add_neg (x y : Float) : x - y = x + -y := by
  have hunpacked (u v : UnpackedFloat) :
      UnpackedFloat.sub .binary64 u v = UnpackedFloat.add .binary64 u v.neg := by
    cases u with
    | notANumber => cases v <;> rfl
    | infinity s => cases v <;> rfl
    | zero s => cases v <;> rfl
    | finite s m e hm =>
      cases v with
      | notANumber | infinity s' | zero s' => rfl
      | finite s' m' e' hm' =>
        have hneg (n : Int) : (-s').apply n = -s'.apply n := by
          cases s' with
          | negative => exact (Int.neg_neg n).symm
          | positive => rfl
        simp only [UnpackedFloat.sub, UnpackedFloat.neg, UnpackedFloat.add, hneg,
          Int.sub_eq_add_neg]
  change Float.ofModel (.pack (UnpackedFloat.sub .binary64 x.toModel.unpack y.toModel.unpack)) =
    .ofModel (.pack (UnpackedFloat.add .binary64 x.toModel.unpack (-y).toModel.unpack))
  rw [unpack_neg, hunpacked]

theorem roundsTo_sub (hx : x.isFinite = true) (hy : y.isFinite = true) :
    RoundsTo (real x - real y) (x - y) := by
  have hsum := roundsTo_add hx ((isFinite_neg y).trans hy)
  rwa [real_neg hy, ← float_sub_eq_add_neg, ← sub_eq_add_neg] at hsum

theorem signed_mul_signed (s s' : Sign) (p q : ℚ) :
    signed s p * signed s' q = signed (s * s') (p * q) := by
  cases s <;> cases s' <;> simp only [signed] <;> ring

theorem roundsTo_mul (hx : x.isFinite = true) (hy : y.isFinite = true) :
    RoundsTo (real x * real y) (x * y) := by
  have hmul : x * y =
      .ofModel (.pack (UnpackedFloat.mul .binary64 x.toModel.unpack y.toModel.unpack)) := rfl
  rcases finite_cases hx with ⟨s, hzero⟩ | ⟨s, m, e, hm, hfinite, h⟩ <;>
    rcases finite_cases hy with ⟨s', hzero'⟩ | ⟨s', m', e', hm', hfinite', h'⟩
  · rw [real_of_unpack_zero hzero, zero_mul, hmul, hzero, hzero']
    exact roundsTo_signed_zero _
  · rw [real_of_unpack_zero hzero, zero_mul, hmul, hzero, hfinite']
    exact roundsTo_signed_zero _
  · rw [real_of_unpack_zero hzero', mul_zero, hmul, hfinite, hzero']
    exact roundsTo_signed_zero _
  · have hexact : Represents (ExtendedMantissa.ofMantissaAndAccuracy (m * m') .exact)
        (magnitude m e * magnitude m' e' / 2 ^ (e + e')) := by
      have hproduct : magnitude m e * magnitude m' e' = (m * m' : ℕ) * 2 ^ (e + e') := by
        rw [magnitude, magnitude, zpow_add₀ two_ne_zero]
        push_cast
        ring
      rw [hproduct, mul_div_cancel_right₀ _ (unit_pos _).ne']
      simp [Represents, ExtendedMantissa.ofMantissaAndAccuracy]
    have hbits : e + e' ≤ -1074 ∨ 2 ^ 52 ≤ m * m' := by
      rcases h.normal with hnormal | hleast
      · exact Or.inr (le_mul_of_le_of_one_le hnormal hm')
      · rcases h'.normal with hnormal' | hleast'
        · exact Or.inr (hnormal'.trans (Nat.le_mul_of_pos_left m' hm))
        · exact Or.inl (by omega)
    rw [real_of_unpack hfinite, real_of_unpack hfinite', signed_mul_signed, hmul, hfinite, hfinite']
    exact roundsTo_roundWithAccuracy (s * s') hexact hbits

theorem signed_div_signed (s s' : Sign) (p q : ℚ) :
    signed s p / signed s' q = signed (s / s') (p / q) := by
  cases s <;> cases s' <;> simp only [signed, neg_div, div_neg, neg_neg] <;> rfl

theorem roundsTo_div (hx : x.isFinite = true) (hy : y.isFinite = true) (hne : real y ≠ 0) :
    RoundsTo (real x / real y) (x / y) := by
  have hdiv : x / y =
      .ofModel (.pack (UnpackedFloat.div .binary64 x.toModel.unpack y.toModel.unpack)) := rfl
  rcases finite_cases hy with ⟨s', hzero'⟩ | ⟨s', m', e', hm', hfinite', -⟩
  · exact absurd (real_of_unpack_zero hzero') hne
  rcases finite_cases hx with ⟨s, hzero⟩ | ⟨s, m, e, hm, hfinite, -⟩
  · rw [real_of_unpack_zero hzero, zero_div, hdiv, hzero, hfinite']
    exact roundsTo_signed_zero _
  · obtain ⟨hrepresents, hbits⟩ := represents_divCore e e' hm hm'
    rw [real_of_unpack hfinite, real_of_unpack hfinite', signed_div_signed, hdiv, hfinite, hfinite']
    exact roundsTo_roundWithAccuracy (s / s') hrepresents hbits

/-! ## Absolute values -/

theorem unpack_abs (x : Float) : x.abs.toModel.unpack = x.toModel.unpack.abs := by
  refine unpack_ofModel_pack ?_
  have hunpacked := isUnpacked_toModel x
  cases hx : x.toModel.unpack <;> rw [hx] at hunpacked <;> exact hunpacked

theorem real_abs (hx : x.isFinite = true) : x.abs.isFinite = true ∧ real x.abs = |real x| := by
  rcases finite_cases hx with ⟨s, hzero⟩ | ⟨s, m, e, hm, hfinite, -⟩
  · have habs : x.abs.toModel.unpack = .zero .positive := by
      rw [unpack_abs, hzero]
      rfl
    refine ⟨congrArg UnpackedFloat.isFinite habs, ?_⟩
    rw [real_of_unpack_zero habs, real_of_unpack_zero hzero, abs_zero]
  · have habs : x.abs.toModel.unpack = .finite .positive m e hm := by
      rw [unpack_abs, hfinite]
      rfl
    refine ⟨congrArg UnpackedFloat.isFinite habs, ?_⟩
    rw [real_of_unpack habs, real_of_unpack hfinite, abs_signed_of_nonneg s (magnitude_pos hm e).le,
      signed]

/-! ## Whole numbers of units -/

/-- A whole number of at most 53 bits is computed without rounding, in any unit. -/
theorem real_normalize {n : Int} (hn : n.natAbs < 2 ^ 53) {e : Int} (hge : -1074 ≤ e)
    (hle : e ≤ 971) (s : Sign) :
    let z := Float.ofModel (.pack (UnpackedFloat.normalize .binary64 n e s))
    z.isFinite = true ∧ real z = n * 2 ^ e := by
  intro z
  obtain ⟨y, hy, hreal⟩ := exists_real (if n < 0 then .negative else .positive) hn hge hle
  refine (roundsTo_normalize n e s).exact hy (Eq.symm ?_)
  have habs : ((n.natAbs : ℕ) : ℚ) = |(n : ℚ)| := by
    rw [Nat.cast_natAbs]
    exact Int.cast_abs
  rw [hreal, magnitude, habs]
  by_cases hneg : n < 0
  · have hneg' : (n : ℚ) < 0 := by exact_mod_cast hneg
    rw [if_pos hneg, signed, abs_of_neg hneg']
    ring
  · have hnonneg : (0 : ℚ) ≤ n := by exact_mod_cast not_lt.1 hneg
    rw [if_neg hneg, signed, abs_of_nonneg hnonneg]

/-- The nearest float to a value. -/
theorem roundsTo_toFloat (negative : Bool) (m : Nat) (e : Int) :
    RoundsTo (Binary.finite negative m e).toRat (Binary.finite negative m e).toFloat := by
  rw [toRat_finite]
  cases negative with
  | false =>
    have hrounds := roundsTo_normalize m e .positive
    rwa [Int.cast_natCast] at hrounds
  | true =>
    have hrounds := roundsTo_normalize (-m) e .negative
    rwa [Int.cast_neg, Int.cast_natCast, neg_mul] at hrounds

/-- A value with at most 53 bits is a float. -/
theorem real_toFloat_finite (negative : Bool) {m : Nat} {e : Int} (hm : m < 2 ^ 53)
    (hge : -1074 ≤ e) (hle : e ≤ 971) :
    (Binary.finite negative m e).toFloat.isFinite = true ∧
      real (Binary.finite negative m e).toFloat = (Binary.finite negative m e).toRat := by
  obtain ⟨z, hz, hreal⟩ := exists_real (signOf negative) hm hge hle
  refine (roundsTo_toFloat negative m e).exact hz ?_
  rw [hreal, toRat_finite]
  cases negative <;> rfl

/-- A whole number of at most 53 bits is not rounded. -/
theorem RoundsTo.whole {k : ℤ} (h : RoundsTo k x) (hk : k.natAbs < 2 ^ 53) :
    x.isFinite = true ∧ real x = k := by
  obtain ⟨hfinite, hreal⟩ := real_normalize hk (e := 0) (by norm_num) (by norm_num) .positive
  rw [zpow_zero, mul_one] at hreal
  exact h.exact hfinite hreal.symm

/-! ## Infinities and NaN stay -/

theorem isFinite_ofModel_pack {u : UnpackedFloat} (h : IsUnpacked u) :
    (Float.ofModel (.pack u)).isFinite = u.isFinite :=
  congrArg UnpackedFloat.isFinite (unpack_ofModel_pack h)

theorem isFinite_add_eq_false (hx : x.isFinite = true) (hy : y.isFinite = false) :
    (x + y).isFinite = false := by
  change (Float.ofModel (.pack
    (UnpackedFloat.add .binary64 x.toModel.unpack y.toModel.unpack))).isFinite = false
  rcases finite_cases hx with ⟨s, hx⟩ | ⟨s, m, e, hm, hx, -⟩ <;>
    rcases infinite_cases hy with hy | ⟨s', hy⟩ <;> rw [hx, hy] <;>
    exact isFinite_ofModel_pack trivial

theorem isFinite_mul_eq_false (hx : x.isFinite = false) (hy : y.isFinite = true)
    (hne : real y ≠ 0) : (x * y).isFinite = false := by
  change (Float.ofModel (.pack
    (UnpackedFloat.mul .binary64 x.toModel.unpack y.toModel.unpack))).isFinite = false
  rcases finite_cases hy with ⟨s', hzero⟩ | ⟨s', m, e, hm, hy, -⟩
  · exact absurd (real_of_unpack_zero hzero) hne
  rcases infinite_cases hx with hx | ⟨s, hx⟩ <;> rw [hx, hy] <;>
    exact isFinite_ofModel_pack trivial

end PatternSynth.Binary
