import PatternSynth.Proofs.Binary.Quotient

/-!
# The numbers that floats stand for

`Binary.real` is the exact number behind a finite float. Negation and comparison of floats are
those of numbers (`real_neg`, `lt_iff`, `le_iff`), every whole number of units of at most 53 bits is
the number of some float (`exists_real`), and the whole part of a float is that of its number
(`truncate_ofFloat`).
-/

namespace PatternSynth.Binary

open Float.Model Float.Model.UnpackedFloat

/-- The number that a float stands for; zero where there is no real value. -/
def real (x : Float) : ℚ :=
  (ofFloat x).toRat

/-- A number with a sign in front. -/
def signed (s : Sign) (q : ℚ) : ℚ :=
  match s with
  | .negative => -q
  | .positive => q

theorem toRat_finite (negative : Bool) (m : Nat) (e : Int) :
    (Binary.finite negative m e).toRat = if negative then -magnitude m e else magnitude m e := by
  have hmagnitude : ((m <<< e.toNat : Nat) : ℚ) / ((1 <<< (-e).toNat : Nat) : ℚ) =
      magnitude m e := by
    rw [Nat.shiftLeft_eq, Nat.shiftLeft_eq, magnitude]
    rcases le_total 0 e with he | he
    · obtain ⟨n, rfl⟩ := Int.eq_ofNat_of_zero_le he
      simp
    · obtain ⟨n, rfl⟩ : ∃ n : ℕ, e = -n := ⟨(-e).toNat, by omega⟩
      simp [div_eq_mul_inv]
  cases negative with
  | false =>
    change mkRat ((m <<< e.toNat : Nat) : Int) (1 <<< (-e).toNat) = magnitude m e
    rw [Rat.mkRat_eq_div, ← hmagnitude]
    norm_cast
  | true =>
    change mkRat (-((m <<< e.toNat : Nat) : Int)) (1 <<< (-e).toNat) = -magnitude m e
    rw [Rat.mkRat_eq_div, ← hmagnitude, Int.cast_neg, neg_div]
    norm_cast

/-! ## Finite floats -/

variable {x y : Float}

theorem real_of_unpack {s : Sign} {m : Nat} {e : Int} {hm : 0 < m}
    (h : x.toModel.unpack = .finite s m e hm) : real x = signed s (magnitude m e) := by
  rw [real, ofFloat, h]
  cases s <;> exact toRat_finite _ m e

theorem real_of_unpack_zero {s : Sign} (h : x.toModel.unpack = .zero s) : real x = 0 := by
  rw [real, ofFloat, h]
  cases s <;> rfl

theorem real_zero : real 0 = 0 :=
  real_of_unpack_zero (s := .positive) rfl

/-- A finite float is a zero, or it has a canonical mantissa and exponent. -/
theorem finite_cases (h : x.isFinite = true) :
    (∃ s, x.toModel.unpack = .zero s) ∨
      ∃ s m e, ∃ hm : 0 < m, x.toModel.unpack = .finite s m e hm ∧ Canonical m e := by
  have hunpacked := isUnpacked_toModel x
  change x.toModel.unpack.isFinite = true at h
  cases hx : x.toModel.unpack with
  | zero s => exact Or.inl ⟨s, rfl⟩
  | finite s m e hm =>
    rw [hx] at hunpacked
    exact Or.inr ⟨s, m, e, hm, rfl, hunpacked⟩
  | infinity s =>
    rw [hx] at h
    cases h
  | notANumber =>
    rw [hx] at h
    cases h

theorem ofFloat_of_isFinite (h : x.isFinite = true) : ∃ negative m e,
    ofFloat x = .finite negative m e ∧ m < 2 ^ 53 ∧ -1074 ≤ e ∧ e ≤ 971 := by
  rcases finite_cases h with ⟨s, hx⟩ | ⟨s, m, e, hm, hx, hcanonical⟩
  · exact ⟨isMinus s, 0, 0, by rw [ofFloat, hx], by norm_num, by norm_num, by norm_num⟩
  · exact ⟨isMinus s, m, e, by rw [ofFloat, hx], hcanonical.lt, hcanonical.exponent_ge,
      hcanonical.exponent_le⟩

theorem isFinite_of_ofFloat {negative : Bool} {m : Nat} {e : Int}
    (h : ofFloat x = .finite negative m e) : x.isFinite = true := by
  change x.toModel.unpack.isFinite = true
  rw [ofFloat] at h
  cases hx : x.toModel.unpack with
  | zero s => rfl
  | finite s m e hm => rfl
  | infinity s =>
    rw [hx] at h
    cases h
  | notANumber =>
    rw [hx] at h
    cases h

theorem infinite_cases (h : x.isFinite = false) :
    x.toModel.unpack = .notANumber ∨ ∃ s, x.toModel.unpack = .infinity s := by
  change x.toModel.unpack.isFinite = false at h
  cases hx : x.toModel.unpack with
  | notANumber => exact Or.inl rfl
  | infinity s => exact Or.inr ⟨s, rfl⟩
  | zero s =>
    rw [hx] at h
    cases h
  | finite s m e hm =>
    rw [hx] at h
    cases h

theorem real_of_not_isFinite (h : x.isFinite = false) : real x = 0 := by
  rcases infinite_cases h with hx | ⟨s, hx⟩ <;> rw [real, ofFloat, hx] <;> rfl

theorem magnitude_pos {m : Nat} (hm : 0 < m) (e : Int) : 0 < magnitude m e :=
  mul_pos (by exact_mod_cast hm) (unit_pos e)

/-- A positive number behind a float has its mantissa and exponent. -/
theorem canonical_of_real_pos (h : x.isFinite = true) (hpos : 0 < real x) :
    ∃ m e, Canonical m e ∧ real x = magnitude m e := by
  rcases finite_cases h with ⟨s, hx⟩ | ⟨s, m, e, hm, hx, hcanonical⟩
  · rw [real_of_unpack_zero hx] at hpos
    exact absurd hpos (lt_irrefl 0)
  · have hreal := real_of_unpack hx
    cases s with
    | positive => exact ⟨m, e, hcanonical, hreal⟩
    | negative =>
      have hmagnitude := magnitude_pos hm e
      rw [hreal, signed] at hpos
      linarith

/-! ## Negation -/

theorem isUnpacked_neg {u : UnpackedFloat} (h : IsUnpacked u) : IsUnpacked u.neg := by
  cases u <;> exact h

theorem unpack_neg (x : Float) : (-x).toModel.unpack = x.toModel.unpack.neg :=
  unpack_ofModel_pack (isUnpacked_neg (isUnpacked_toModel x))

theorem isFinite_neg (x : Float) : (-x).isFinite = x.isFinite := by
  change (-x).toModel.unpack.isFinite = x.toModel.unpack.isFinite
  rw [unpack_neg]
  cases x.toModel.unpack <;> rfl

theorem signed_neg (s : Sign) (q : ℚ) : signed (-s) q = -signed s q := by
  cases s with
  | negative => exact (neg_neg q).symm
  | positive => rfl

theorem real_neg (h : x.isFinite = true) : real (-x) = -real x := by
  rcases finite_cases h with ⟨s, hx⟩ | ⟨s, m, e, hm, hx, -⟩
  · have hneg : (-x).toModel.unpack = .zero (-s) := by
      rw [unpack_neg, hx]
      rfl
    rw [real_of_unpack_zero hx, real_of_unpack_zero hneg, neg_zero]
  · have hneg : (-x).toModel.unpack = .finite (-s) m e hm := by
      rw [unpack_neg, hx]
      rfl
    rw [real_of_unpack hx, real_of_unpack hneg, signed_neg]

/-! ## Comparison -/

theorem then_compare_eq {m m' : Nat} {e e' : Int} (h : Canonical m e) (h' : Canonical m' e') :
    (compare e e').then (compare m m') = compare (magnitude m e) (magnitude m' e') := by
  rcases lt_trichotomy (magnitude m e) (magnitude m' e') with hlt | heq | hgt
  · rw [compare_lt_iff_lt.2 hlt]
    rcases (exponent_le_of_lt h h' hlt).lt_or_eq with he | rfl
    · rw [compare_lt_iff_lt.2 he]
      rfl
    · have hm : m < m' := by
        have := lt_of_mul_lt_mul_right hlt (unit_pos e).le
        exact_mod_cast this
      rw [compare_eq_iff_eq.2 rfl, compare_lt_iff_lt.2 hm]
      rfl
  · obtain ⟨rfl, rfl⟩ := eq_of_magnitude_eq h h' heq
    rw [compare_eq_iff_eq.2 rfl, compare_eq_iff_eq.2 rfl, compare_eq_iff_eq.2 rfl]
    rfl
  · rw [compare_gt_iff_gt.2 hgt]
    rcases (exponent_le_of_lt h' h hgt).lt_or_eq with he | rfl
    · rw [compare_gt_iff_gt.2 he]
      rfl
    · have hm : m' < m := by
        have := lt_of_mul_lt_mul_right hgt (unit_pos e').le
        exact_mod_cast this
      rw [compare_eq_iff_eq.2 rfl, compare_gt_iff_gt.2 hm]
      rfl

theorem swap_compare (p q : ℚ) : (compare p q).swap = compare (-p) (-q) := by
  rcases lt_trichotomy p q with hlt | rfl | hgt
  · rw [compare_lt_iff_lt.2 hlt, compare_gt_iff_gt.2 (neg_lt_neg hlt)]
    rfl
  · rw [compare_eq_iff_eq.2 rfl, compare_eq_iff_eq.2 rfl]
    rfl
  · rw [compare_gt_iff_gt.2 hgt, compare_lt_iff_lt.2 (neg_lt_neg hgt)]
    rfl

/-- Floats are compared as the numbers that they stand for. -/
theorem compare_unpack (hx : x.isFinite = true) (hy : y.isFinite = true) :
    x.toModel.unpack.compare y.toModel.unpack = some (compare (real x) (real y)) := by
  rcases finite_cases hx with ⟨s, hx⟩ | ⟨s, m, e, hm, hx, h⟩ <;>
    rcases finite_cases hy with ⟨s', hy⟩ | ⟨s', m', e', hm', hy, h'⟩
  · rw [real_of_unpack_zero hx, real_of_unpack_zero hy, hx, hy]
    exact congrArg some (compare_eq_iff_eq.2 rfl).symm
  · have hpos := magnitude_pos hm' e'
    rw [real_of_unpack_zero hx, real_of_unpack hy, hx, hy]
    cases s' with
    | positive => exact congrArg some (compare_lt_iff_lt.2 hpos).symm
    | negative => exact congrArg some (compare_gt_iff_gt.2 (neg_neg_of_pos hpos)).symm
  · have hpos := magnitude_pos hm e
    rw [real_of_unpack hx, real_of_unpack_zero hy, hx, hy]
    cases s with
    | positive => exact congrArg some (compare_gt_iff_gt.2 hpos).symm
    | negative => exact congrArg some (compare_lt_iff_lt.2 (neg_neg_of_pos hpos)).symm
  · have hpos := magnitude_pos hm e
    have hpos' := magnitude_pos hm' e'
    have hcompare := then_compare_eq h h'
    rw [real_of_unpack hx, real_of_unpack hy, hx, hy]
    cases s with
    | positive =>
      cases s' with
      | positive => exact congrArg some hcompare
      | negative =>
        exact congrArg some (compare_gt_iff_gt.2 ((neg_neg_of_pos hpos').trans hpos)).symm
    | negative =>
      cases s' with
      | positive =>
        exact congrArg some (compare_lt_iff_lt.2 ((neg_neg_of_pos hpos).trans hpos')).symm
      | negative =>
        exact congrArg some ((congrArg Ordering.swap hcompare).trans (swap_compare _ _))

theorem lt_iff (hx : x.isFinite = true) (hy : y.isFinite = true) : x < y ↔ real x < real y := by
  have hlt : x < y ↔ x.toModel.unpack.lt y.toModel.unpack = true :=
    ⟨fun h => of_decide_eq_true h, fun h => decide_eq_true h⟩
  rw [hlt, UnpackedFloat.lt, compare_unpack hx hy, ← compare_lt_iff_lt]
  cases compare (real x) (real y) <;> decide

theorem le_iff (hx : x.isFinite = true) (hy : y.isFinite = true) : x ≤ y ↔ real x ≤ real y := by
  have hle : x ≤ y ↔ x.toModel.unpack.le y.toModel.unpack = true :=
    ⟨fun h => of_decide_eq_true h, fun h => decide_eq_true h⟩
  rw [hle, UnpackedFloat.le, compare_unpack hx hy, ← compare_le_iff_le]
  cases compare (real x) (real y) <;> decide

/-! ## The range of floats -/

/-- A finite float is below the overflow. -/
theorem abs_real_lt (h : x.isFinite = true) : |real x| < overflow := by
  rcases finite_cases h with ⟨s, hx⟩ | ⟨s, m, e, hm, hx, hcanonical⟩
  · rw [real_of_unpack_zero hx, abs_zero]
    exact (by norm_num : (0 : ℚ) < 2 ^ 53).trans two_pow_lt_overflow
  · have hlt := (rounds_magnitude m e).lt_overflow hcanonical.lt hcanonical.exponent_le
    have hpos := magnitude_pos hm e
    rw [real_of_unpack hx]
    cases s with
    | positive => rwa [signed, abs_of_pos hpos]
    | negative => rwa [signed, abs_neg, abs_of_pos hpos]

/-- The least positive float. -/
theorem least_le_real (h : x.isFinite = true) (hpos : 0 < real x) :
    2 ^ (-1074 : Int) ≤ real x := by
  obtain ⟨m, e, hcanonical, hreal⟩ := canonical_of_real_pos h hpos
  have hone : (1 : ℚ) ≤ m := by exact_mod_cast hcanonical.pos
  rw [hreal, magnitude]
  calc (2 : ℚ) ^ (-1074 : Int) ≤ 2 ^ e := zpow_le_zpow_right₀ one_le_two hcanonical.exponent_ge
    _ ≤ m * 2 ^ e := le_mul_of_one_le_left (unit_pos e).le hone

/-- A mantissa of at most 53 bits can be made canonical. -/
theorem exists_canonical {m : Nat} {e : Int} (hpos : 0 < m) (hlt : m < 2 ^ 53) (hge : -1074 ≤ e)
    (hle : e ≤ 971) : ∃ m' e', Canonical m' e' ∧ magnitude m' e' = magnitude m e := by
  have hlog : m.log2 < 53 := (Nat.log2_lt hpos.ne').2 hlt
  -- Shift until the mantissa is full or the exponent is the least one.
  obtain ⟨k, hk⟩ : ∃ k : ℕ, (k : Int) = min (52 - m.log2 : Int) (e + 1074) :=
    ⟨(min (52 - m.log2 : Int) (e + 1074)).toNat, Int.toNat_of_nonneg (by omega)⟩
  have hhigh : m * 2 ^ k < 2 ^ 53 := by
    calc m * 2 ^ k < 2 ^ (m.log2 + 1) * 2 ^ k :=
          Nat.mul_lt_mul_of_pos_right Nat.lt_log2_self (by positivity)
      _ = 2 ^ (m.log2 + 1 + k) := (pow_add _ _ _).symm
      _ ≤ 2 ^ 53 := Nat.pow_le_pow_right two_pos (by omega)
  have hnormal : 2 ^ 52 ≤ m * 2 ^ k ∨ e - k = -1074 := by
    by_cases hfull : (52 - m.log2 : Int) ≤ e + 1074
    · refine Or.inl ?_
      calc 2 ^ 52 = 2 ^ m.log2 * 2 ^ k := by
            rw [← pow_add]
            congr 1
            omega
        _ ≤ m * 2 ^ k := Nat.mul_le_mul_right _ (Nat.log2_self_le hpos.ne')
    · exact Or.inr (by omega)
  refine ⟨m * 2 ^ k, e - k, ⟨by positivity, hhigh, by omega, by omega, hnormal⟩, ?_⟩
  have hshift := magnitude_add m (e - k) k
  rw [sub_add_cancel] at hshift
  exact hshift.symm

/-- A number of units of at most 53 bits is the number of some float. -/
theorem exists_real (s : Sign) {m : Nat} {e : Int} (hlt : m < 2 ^ 53) (hge : -1074 ≤ e)
    (hle : e ≤ 971) : ∃ z : Float, z.isFinite = true ∧ real z = signed s (magnitude m e) := by
  rcases Nat.eq_zero_or_pos m with rfl | hpos
  · refine ⟨0, rfl, ?_⟩
    rw [real_of_unpack_zero (s := .positive) rfl, magnitude, Nat.cast_zero, zero_mul]
    cases s <;> simp [signed]
  · obtain ⟨m', e', hcanonical, hmagnitude⟩ := exists_canonical hpos hlt hge hle
    have hunpack := unpack_ofModel_pack (u := .finite s m' e' hcanonical.pos) hcanonical
    refine ⟨.ofModel (.pack (.finite s m' e' hcanonical.pos)), ?_, ?_⟩
    · exact congrArg UnpackedFloat.isFinite hunpack
    · rw [real_of_unpack hunpack, hmagnitude]

/-! ## Rounding toward zero -/

/-- The whole number next to the number, on the side of zero. -/
def towardZero (q : ℚ) : ℤ :=
  if 0 ≤ q then ⌊q⌋ else ⌈q⌉

theorem towardZero_neg (q : ℚ) : towardZero (-q) = -towardZero q := by
  unfold towardZero
  rcases lt_trichotomy q 0 with hneg | rfl | hpos
  · rw [if_pos (by linarith), if_neg (not_le.2 hneg), Int.floor_neg]
  · simp
  · rw [if_neg (by linarith), if_pos hpos.le, Int.ceil_neg]

theorem towardZero_of_nonneg {q : ℚ} (hq : 0 ≤ q) : towardZero q = ⌊q⌋ :=
  if_pos hq

@[simp] theorem towardZero_intCast (k : ℤ) : towardZero k = k := by
  simp [towardZero]

theorem wholePart_eq_floor (m : Nat) (e : Int) : (wholePart m e : ℤ) = ⌊magnitude m e⌋ := by
  unfold wholePart magnitude
  rcases le_or_gt 0 e with he | he
  · obtain ⟨n, rfl⟩ := Int.eq_ofNat_of_zero_le he
    rw [if_pos he, Int.toNat_natCast, Nat.shiftLeft_eq, zpow_natCast]
    have hcast : (m : ℚ) * 2 ^ n = ((m * 2 ^ n : ℕ) : ℚ) := by push_cast; rfl
    rw [hcast, Int.floor_natCast]
  · obtain ⟨n, rfl⟩ : ∃ n : ℕ, e = -n := ⟨(-e).toNat, by omega⟩
    rw [if_neg (not_le.2 he), neg_neg, Int.toNat_natCast, Nat.shiftRight_eq_div_pow, zpow_neg,
      zpow_natCast, ← div_eq_mul_inv]
    have hfloor := Rat.floor_intCast_div_natCast (m : ℤ) (2 ^ n)
    push_cast at hfloor ⊢
    exact hfloor.symm

/-- The whole part of a float is that of its number. -/
theorem truncate_ofFloat (x : Float) : (ofFloat x).truncate = towardZero (real x) := by
  unfold real
  cases ofFloat x with
  | nan => simp [truncate, toRat, towardZero]
  | infinite negative => simp [truncate, toRat, towardZero]
  | finite negative m e =>
    have hnonneg : 0 ≤ magnitude m e := mul_nonneg (Nat.cast_nonneg m) (unit_pos e).le
    rw [toRat_finite]
    cases negative with
    | false =>
      change (wholePart m e : ℤ) = towardZero (magnitude m e)
      rw [towardZero_of_nonneg hnonneg, wholePart_eq_floor]
    | true =>
      change -(wholePart m e : ℤ) = towardZero (-magnitude m e)
      rw [towardZero_neg, towardZero_of_nonneg hnonneg, wholePart_eq_floor]

end PatternSynth.Binary
