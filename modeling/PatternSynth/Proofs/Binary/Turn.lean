import PatternSynth.Proofs.Binary.Remainder

/-!
# Fractions of a turn

The remainder modulo one is exact (`real_remainder_one`), so `fractionalTurn` rounds only when it
moves a negative remainder up by one. What it gives lies between zero and one, and it is one for the
negative numbers that are just below a whole number (`fractionalTurn_spec`).
-/

namespace PatternSynth.Binary

open Float.Model Float.Model.UnpackedFloat

variable {x : Float}

/-! ## The remainder modulo one -/

theorem real_one : real 1 = 1 := by decide +kernel

/-- The remainder modulo one is what the number is beyond its whole part. -/
theorem real_remainder_one (hx : x.isFinite = true) :
    (remainder x 1).isFinite = true ∧
      real (remainder x 1) = real x - towardZero (real x) := by
  obtain ⟨hfinite, hreal⟩ := real_remainder hx (y := 1) rfl (by rw [real_one]; exact one_ne_zero)
  rw [real_one, div_one, one_mul] at hreal
  exact ⟨hfinite, hreal⟩

/-! ## One turn -/

/-- Floats with the same number are the same, except for the two zeros. -/
theorem eq_of_real_eq {y : Float} (hx : x.isFinite = true) (hy : y.isFinite = true)
    (hne : real x ≠ 0) (h : real x = real y) : x = y := by
  rcases finite_cases hx with ⟨s, hzero⟩ | ⟨s, m, e, hm, hfinite, hcanonical⟩
  · exact absurd (real_of_unpack_zero hzero) hne
  rcases finite_cases hy with ⟨s', hzero'⟩ | ⟨s', m', e', hm', hfinite', hcanonical'⟩
  · exact absurd (h.trans (real_of_unpack_zero hzero')) hne
  have hpos := magnitude_pos hm e
  have hpos' := magnitude_pos hm' e'
  rw [real_of_unpack hfinite, real_of_unpack hfinite'] at h
  have hsign : s = s' := by
    cases s <;> cases s' <;> simp only [signed] at h <;> first | rfl | linarith
  subst hsign
  have hmagnitude : magnitude m e = magnitude m' e' := by
    cases s with
    | negative => exact neg_inj.1 h
    | positive => exact h
  obtain ⟨rfl, rfl⟩ := eq_of_magnitude_eq hcanonical hcanonical' hmagnitude
  rw [eq_ofModel_pack x, eq_ofModel_pack y, hfinite, hfinite']

/-- The largest float below one. -/
theorem real_le_of_lt_one (hx : x.isFinite = true) (h : real x < 1) :
    real x ≤ 1 - 2 ^ (-53 : Int) := by
  rcases le_or_gt (real x) 0 with hreal | hreal
  · have : (2 : ℚ) ^ (-53 : Int) ≤ 1 := by norm_num
    linarith
  · obtain ⟨m, e, hcanonical, hx⟩ := canonical_of_real_pos hx hreal
    have hone : Canonical (2 ^ 52) (-52) := by constructor <;> norm_num
    have hvalue : magnitude (2 ^ 52) (-52) = 1 := by
      rw [magnitude]
      norm_num
    rw [hx] at h ⊢
    have hle := magnitude_le_of_lt hcanonical hone (hvalue.symm ▸ h)
    refine hle.trans_eq ?_
    rw [gapBelow, if_pos ⟨rfl, by norm_num⟩]
    norm_num

/-- A negative number that lies at most `2 ^ -54` below a whole number. -/
def JustBelow (q : ℚ) : Prop :=
  q < 0 ∧ q < ⌈q⌉ ∧ ⌈q⌉ - q ≤ 2 ^ (-54 : Int)

/-- The midpoint of one and the float below is rounded up. -/
theorem add_one_of_midpoint (hx : x.isFinite = true) (h : real x = -2 ^ (-54 : Int)) :
    x + 1 = 1 := by
  have hmidpoint : real (Binary.finite true 1 (-54)).toFloat = -2 ^ (-54 : Int) := by
    decide +kernel
  have hne : real x ≠ 0 := by
    rw [h]
    norm_num
  rw [eq_of_real_eq hx (by decide +kernel) hne (h.trans hmidpoint.symm)]
  decide +kernel

/-- A negative fraction is moved up by one. The sum is one only for the fractions that are at most
half the gap below one. -/
theorem add_one_spec (hx : x.isFinite = true) (hlow : -1 ≤ real x) (hneg : real x < 0) :
    (x + 1).isFinite = true ∧ 0 ≤ real (x + 1) ∧ real (x + 1) ≤ 1 ∧
      (real (x + 1) = 1 ↔ -2 ^ (-54 : Int) ≤ real x) := by
  have hsum := roundsTo_add hx (y := 1) rfl
  rw [real_one] at hsum
  have hzero : (0 : Float).isFinite = true := rfl
  have hone : (1 : Float).isFinite = true := rfl
  obtain ⟨hfinite, hnonneg, hle⟩ := hsum.between hzero hone (by rw [real_zero]; linarith)
    (by rw [real_one]; linarith)
  rw [real_zero] at hnonneg
  rw [real_one] at hle
  have hhalf : (2 : ℚ) ^ (-53 : Int) = 2 * 2 ^ (-54 : Int) := by norm_num
  refine ⟨hfinite, hnonneg, hle, ?_⟩
  rcases lt_trichotomy (real x) (-2 ^ (-54 : Int)) with hbelow | hmidpoint | habove
  · refine iff_of_false (fun hone => ?_) (not_le.2 hbelow)
    obtain ⟨z, hz, hreal⟩ := exists_real .positive (m := 2 ^ 53 - 1) (e := -53) (by norm_num)
      (by norm_num) (by norm_num)
    have hz' : real z = 1 - 2 ^ (-53 : Int) := by
      rw [hreal, signed, magnitude]
      norm_num
    have hclosest := hsum.closest hfinite z hz
    rw [hone, hz', add_sub_cancel_right, abs_of_neg hneg] at hclosest
    have hunit := unit_pos (-54)
    rcases abs_cases (real x + 1 - (1 - 2 ^ (-53 : Int))) with ⟨habs, -⟩ | ⟨habs, -⟩ <;>
      linarith
  · rw [add_one_of_midpoint hx hmidpoint, real_one]
    exact iff_of_true rfl hmidpoint.ge
  · refine iff_of_true ?_ habove.le
    by_contra hne
    have hgap := real_le_of_lt_one hfinite (lt_of_le_of_ne hle hne)
    have hclosest := hsum.closest hfinite 1 rfl
    rw [real_one, add_sub_cancel_right, abs_of_neg hneg] at hclosest
    have habs := le_abs_self (real x + 1 - real (x + 1))
    linarith

/-- A fraction of a turn lies between zero and one. It is one for the negative numbers that are just
below a whole number, and else it is less. -/
theorem fractionalTurn_spec (hx : x.isFinite = true) :
    (fractionalTurn x).isFinite = true ∧ 0 ≤ real (fractionalTurn x) ∧
      real (fractionalTurn x) ≤ 1 ∧ (real (fractionalTurn x) = 1 ↔ JustBelow (real x)) := by
  obtain ⟨hfinite, hreal⟩ := real_remainder_one hx
  have hzero : (0 : Float).isFinite = true := rfl
  have hone : (1 : Float).isFinite = true := rfl
  unfold fractionalTurn
  split
  · next hinside =>
    rw [Bool.and_eq_true, decide_eq_true_iff, decide_eq_true_iff, le_iff hzero hx, lt_iff hx hone,
      real_zero, real_one] at hinside
    exact ⟨hx, hinside.1, hinside.2.le,
      iff_of_false hinside.2.ne fun h => absurd h.1 (not_lt.2 hinside.1)⟩
  · have habs : (1 : Float).abs = 1 := rfl
    simp only [euclideanRemainder, habs]
    rcases lt_or_ge (real x) 0 with hneg | hnonneg
    · have hwhole : towardZero (real x) = ⌈real x⌉ := if_neg (not_le.2 hneg)
      rw [hwhole] at hreal
      have hceil := Int.ceil_lt_add_one (real x)
      have hceil' := Int.le_ceil (real x)
      split
      · next hlt =>
        rw [lt_iff hfinite hzero, real_zero] at hlt
        obtain ⟨hsum, hlow, hhigh, hiff⟩ := add_one_spec hfinite (by linarith) hlt
        refine ⟨hsum, hlow, hhigh, hiff.trans ?_⟩
        rw [hreal] at hlt ⊢
        exact ⟨fun h => ⟨hneg, by linarith, by linarith⟩, fun h => by linarith [h.2.2]⟩
      · next hlt =>
        rw [lt_iff hfinite hzero, real_zero, not_lt] at hlt
        refine ⟨hfinite, hlt, by linarith, iff_of_false ?_ fun h => ?_⟩
        · intro h
          linarith
        · linarith [h.2.1]
    · have hwhole : towardZero (real x) = ⌊real x⌋ := towardZero_of_nonneg hnonneg
      rw [hwhole] at hreal
      have hfloor := Int.floor_le (real x)
      have hfloor' := Int.lt_floor_add_one (real x)
      have hge : ¬ remainder x 1 < 0 := by
        rw [lt_iff hfinite hzero, real_zero]
        linarith
      rw [if_neg hge]
      exact ⟨hfinite, by linarith, by linarith,
        iff_of_false (by linarith) fun h => absurd h.1 (not_lt.2 hnonneg)⟩

end PatternSynth.Binary
