import PatternSynth.Proofs.Binary.Arithmetic

/-!
# Whole parts and remainders

Rounding toward zero and the remainder of a division are exact (`real_roundTowardZero`,
`real_remainder`). The Euclidean remainder moves a negative remainder up by the divisor, which may
round, but not for whole numbers and a divisor of at most 53 bits (`real_euclideanRemainder`).
-/

namespace PatternSynth.Binary

open Float.Model Float.Model.UnpackedFloat

variable {x y : Float}

/-! ## Rounding toward zero -/

theorem towardZero_toRat {negative : Bool} {m : Nat} {e : Int} (he : 0 ≤ e) :
    (towardZero (Binary.finite negative m e).toRat : ℚ) = (Binary.finite negative m e).toRat := by
  obtain ⟨n, rfl⟩ := Int.eq_ofNat_of_zero_le he
  have hwhole : (Binary.finite negative m n).toRat =
      ((if negative then -(m * 2 ^ n) else m * 2 ^ n : ℤ) : ℚ) := by
    rw [toRat_finite, magnitude, zpow_natCast]
    cases negative <;> simp
  rw [hwhole, towardZero_intCast]

/-- Rounding toward zero is exact. -/
theorem real_roundTowardZero (hx : x.isFinite = true) :
    (roundTowardZero x).isFinite = true ∧ real (roundTowardZero x) = towardZero (real x) := by
  obtain ⟨negative, m, e, hfloat, hm, -, -⟩ := ofFloat_of_isFinite hx
  have hround : roundTowardZero x = (Binary.finite negative (wholePart m e) 0).toFloat := by
    rw [roundTowardZero, hfloat]
  have hwhole : (Binary.finite negative (wholePart m e) 0).toRat = towardZero (real x) := by
    rw [← truncate_ofFloat, hfloat, toRat_finite, magnitude, zpow_zero, mul_one]
    cases negative <;> simp [truncate]
  rw [hround, ← hwhole]
  rcases le_or_gt 0 e with he | he
  · refine (roundsTo_toFloat negative (wholePart m e) 0).exact hx ?_
    rw [hwhole, real, hfloat, towardZero_toRat he]
  · refine real_toFloat_finite negative ?_ (by norm_num) (by norm_num)
    rw [wholePart, if_neg (not_le.2 he)]
    exact (Nat.shiftRight_le m _).trans_lt hm

/-! ## The remainder of a division -/

/-- What is left of `m * 2 ^ e` after division by `n * 2 ^ f`, in units of `2 ^ min e f`. -/
def unitsBeyond (m : Nat) (e : Int) (n : Nat) (f : Int) : Nat :=
  (m <<< (e - min e f).toNat) % (n <<< (f - min e f).toNat)

theorem unitsBeyond_lt {m n : Nat} (hm : m < 2 ^ 53) (hn : n < 2 ^ 53) (hpos : 0 < n) (e f : Int) :
    unitsBeyond m e n f < 2 ^ 53 := by
  unfold unitsBeyond
  rcases le_total e f with he | he
  · rw [min_eq_left he, sub_self]
    exact (Nat.mod_le _ _).trans_lt hm
  · rw [min_eq_right he, sub_self]
    exact (Nat.mod_lt _ hpos).trans hn

theorem unitsBeyond_mul (m : Nat) (e : Int) (n : Nat) (f : Int) :
    (unitsBeyond m e n f : ℚ) * 2 ^ min e f =
      magnitude m e - magnitude n f * ⌊magnitude m e / magnitude n f⌋ := by
  let unit := min e f
  let N := m <<< (e - unit).toNat
  let D := n <<< (f - unit).toNat
  have hN : (N : ℚ) * 2 ^ unit = magnitude m e := by
    have hshift := apply_shiftLeft .positive m (min_le_left e f)
    rwa [Sign.apply, signed, Int.cast_natCast] at hshift
  have hD : (D : ℚ) * 2 ^ unit = magnitude n f := by
    have hshift := apply_shiftLeft .positive n (min_le_right e f)
    rwa [Sign.apply, signed, Int.cast_natCast] at hshift
  have hfloor : ((N / D : ℕ) : ℤ) = ⌊magnitude m e / magnitude n f⌋ := by
    have hquotient : magnitude m e / magnitude n f = ((N : ℤ) : ℚ) / (D : ℕ) := by
      rw [← hN, ← hD, mul_div_mul_right _ _ (unit_pos unit).ne', Int.cast_natCast]
    rw [hquotient, Rat.floor_intCast_div_natCast]
    rfl
  have hdiv : (N : ℚ) = (N % D : ℕ) + D * (N / D : ℕ) := by
    exact_mod_cast (Nat.mod_add_div N D).symm
  calc ((N % D : ℕ) : ℚ) * 2 ^ unit = N * 2 ^ unit - D * 2 ^ unit * (N / D : ℕ) := by
        rw [hdiv]
        ring
    _ = magnitude m e - magnitude n f * ⌊magnitude m e / magnitude n f⌋ := by
        rw [hN, hD, ← hfloor, Int.cast_natCast]

/-- The remainder is exact. -/
theorem real_remainder (hx : x.isFinite = true) (hy : y.isFinite = true) (hne : real y ≠ 0) :
    (remainder x y).isFinite = true ∧
      real (remainder x y) = real x - real y * towardZero (real x / real y) := by
  obtain ⟨negative, m, e, hfloat, hm, hge, hle⟩ := ofFloat_of_isFinite hx
  obtain ⟨negative', n, f, hfloat', hn, hge', hle'⟩ := ofFloat_of_isFinite hy
  have hvalue : real x = if negative then -magnitude m e else magnitude m e := by
    rw [real, hfloat, toRat_finite]
  have hvalue' : real y = if negative' then -magnitude n f else magnitude n f := by
    rw [real, hfloat', toRat_finite]
  have hpos : 0 < n := by
    refine Nat.pos_of_ne_zero fun hzero => hne ?_
    rw [hvalue', hzero, magnitude, Nat.cast_zero, zero_mul]
    simp
  have hremainder : remainder x y =
      (Binary.finite negative (unitsBeyond m e n f) (min e f)).toFloat := by
    rw [remainder, hfloat, hfloat']
    exact if_neg hpos.ne'
  obtain ⟨hfinite, hreal⟩ := real_toFloat_finite negative (unitsBeyond_lt hm hn hpos e f)
    (le_min hge hge') ((min_le_left e f).trans hle)
  have hnonneg : 0 ≤ magnitude m e / magnitude n f :=
    div_nonneg (mul_nonneg (Nat.cast_nonneg m) (unit_pos e).le) (magnitude_pos hpos f).le
  have hbeyond : magnitude (unitsBeyond m e n f) (min e f) = _ := unitsBeyond_mul m e n f
  rw [hremainder]
  refine ⟨hfinite, hreal.trans ?_⟩
  rw [toRat_finite, hbeyond, hvalue, hvalue', ← towardZero_of_nonneg hnonneg]
  cases negative <;> cases negative' <;>
    simp only [if_true, if_false, Bool.false_eq_true, neg_div, div_neg, neg_neg, towardZero_neg,
      Int.cast_neg] <;> ring

/-! ## The Euclidean remainder of whole numbers -/

theorem towardZero_div (a : ℤ) {b : ℤ} (hb : 0 < b) : towardZero (a / b) = a.tdiv b := by
  obtain ⟨n, rfl⟩ := Int.eq_ofNat_of_zero_le hb.le
  have hfloor (c : ℕ) : towardZero ((c : ℤ) / (n : ℤ) : ℚ) = (c : ℤ).tdiv n := by
    rw [towardZero_of_nonneg (by positivity), Int.tdiv_eq_ediv_of_nonneg (by positivity)]
    exact Rat.floor_intCast_div_natCast c n
  rcases le_total 0 a with ha | ha
  · obtain ⟨c, rfl⟩ := Int.eq_ofNat_of_zero_le ha
    exact hfloor c
  · obtain ⟨c, rfl⟩ : ∃ c : ℕ, a = -c := ⟨a.natAbs, by omega⟩
    rw [Int.cast_neg, neg_div, towardZero_neg, hfloor, Int.neg_tdiv]

/-- A remainder that is moved up by the divisor is exact for whole numbers. -/
theorem real_euclideanRemainder {a b : ℤ} (hx : x.isFinite = true) (hy : y.isFinite = true)
    (ha : real x = a) (hb : real y = b) (hpos : 0 < b) (hlt : b < 2 ^ 53) :
    (euclideanRemainder x y).isFinite = true ∧ real (euclideanRemainder x y) = (a % b : ℤ) := by
  have hne : real y ≠ 0 := by
    rw [hb]
    exact_mod_cast hpos.ne'
  obtain ⟨hfinite, hreal⟩ := real_remainder hx hy hne
  have hdiv := Int.mul_tdiv_add_tmod a b
  have htmod : real (remainder x y) = (a.tmod b : ℤ) := by
    rw [hreal, ha, hb, towardZero_div a hpos]
    nth_rewrite 1 [← hdiv]
    push_cast
    ring
  have hmod : a % b = a.tmod b % b := by
    nth_rewrite 1 [← hdiv]
    exact Int.mul_add_emod_self_left b _ _
  have hlow := Int.lt_tmod_of_pos a hpos
  have hhigh := Int.tmod_lt_of_pos a hpos
  have hzero : (0 : Float).isFinite = true := rfl
  unfold euclideanRemainder
  dsimp only
  split
  · next hneg =>
    rw [lt_iff hfinite hzero, real_zero, htmod, Int.cast_lt_zero] at hneg
    obtain ⟨habs, hsize⟩ := real_abs hy
    have hsum := roundsTo_add hfinite habs
    rw [htmod, hsize, hb, abs_of_pos (by exact_mod_cast hpos), ← Int.cast_add] at hsum
    rw [hmod, ← Int.add_emod_right, Int.emod_eq_of_lt (by omega) (by omega)]
    exact hsum.whole (by omega)
  · next hneg =>
    rw [lt_iff hfinite hzero, real_zero, htmod, Int.cast_lt_zero, not_lt] at hneg
    rw [hmod, Int.emod_eq_of_lt hneg hhigh]
    exact ⟨hfinite, htmod⟩

end PatternSynth.Binary
