import PatternSynth.Proofs.Binary.Canonical

/-!
# The numbers that round to a float

A number `Rounds` to a float if it lies in the interval around the float that ends halfway to its
neighbours, with the ends iff the mantissa is even. No number rounds to two floats
(`Rounds.unique`), and no float is nearer to a number than the one it rounds to
(`Rounds.nearest`).
-/

namespace PatternSynth.Binary

/-- The number `m * 2 ^ e`. -/
def magnitude (m : Nat) (e : Int) : ℚ :=
  m * 2 ^ e

/-- How far the next smaller float is, in units in the last place. A power of two has half the gap
below it, unless its exponent is the least one. -/
def gapBelow (m : Nat) (e : Int) : ℚ :=
  if m = 2 ^ 52 ∧ -1074 < e then 1 / 2 else 1

/-- The number rounds to the float. -/
structure Rounds (v : ℚ) (m : Nat) (e : Int) : Prop where
  low : (m - gapBelow m e / 2) * 2 ^ e ≤ v
  high : v ≤ (m + 1 / 2) * 2 ^ e
  odd : m % 2 = 1 → (m - gapBelow m e / 2) * 2 ^ e < v ∧ v < (m + 1 / 2) * 2 ^ e

theorem unit_pos (e : Int) : (0 : ℚ) < 2 ^ e :=
  zpow_pos two_pos e

theorem gapBelow_pos (m : Nat) (e : Int) : 0 < gapBelow m e := by
  unfold gapBelow
  split <;> norm_num

theorem gapBelow_le_one (m : Nat) (e : Int) : gapBelow m e ≤ 1 := by
  unfold gapBelow
  split <;> norm_num

/-- Every float rounds to itself. -/
theorem rounds_magnitude (m : Nat) (e : Int) : Rounds (magnitude m e) m e := by
  have hunit := unit_pos e
  have hgap := gapBelow_pos m e
  unfold magnitude
  refine ⟨?_, ?_, fun _ => ⟨?_, ?_⟩⟩ <;> nlinarith

/-! ## The gaps between floats -/

variable {m m' : Nat} {e e' : Int}

/-- Of two floats, the smaller one has no larger exponent. -/
theorem exponent_le_of_lt (h : Canonical m e) (h' : Canonical m' e')
    (hlt : magnitude m e < magnitude m' e') : e ≤ e' := by
  by_contra hexp
  have hnormal : 2 ^ 52 ≤ m := h.normal.resolve_right fun he => by
    have := h'.exponent_ge
    omega
  have hm : (2 : ℚ) ^ 52 ≤ m := by exact_mod_cast hnormal
  have hm' : (m' : ℚ) < 2 ^ 53 := by exact_mod_cast h'.lt
  have hunit : (2 : ℚ) ^ (e' + 1) ≤ 2 ^ e := zpow_le_zpow_right₀ one_le_two (by omega)
  rw [zpow_add_one₀ two_ne_zero] at hunit
  have hpos := unit_pos e'
  unfold magnitude at hlt
  nlinarith

theorem magnitude_add (m : Nat) (e : Int) (d : Nat) :
    magnitude m (e + d) = (m * 2 ^ d : ℕ) * 2 ^ e := by
  unfold magnitude
  rw [zpow_add₀ two_ne_zero, zpow_natCast]
  push_cast
  ring

/-- A larger float is at least a unit larger. -/
theorem magnitude_ge_of_lt (h : Canonical m e) (h' : Canonical m' e')
    (hlt : magnitude m e < magnitude m' e') : ((m + 1 : ℕ) : ℚ) * 2 ^ e ≤ magnitude m' e' := by
  obtain ⟨d, rfl⟩ := Int.le.dest (exponent_le_of_lt h h' hlt)
  rw [magnitude_add] at hlt ⊢
  have hnat : m < m' * 2 ^ d := by
    have := lt_of_mul_lt_mul_right hlt (unit_pos e).le
    exact_mod_cast this
  have hle : ((m + 1 : ℕ) : ℚ) ≤ (m' * 2 ^ d : ℕ) := by exact_mod_cast hnat
  exact mul_le_mul_of_nonneg_right hle (unit_pos e).le

/-- A smaller float is at least the gap smaller. -/
theorem magnitude_le_of_lt (h : Canonical m e) (h' : Canonical m' e')
    (hlt : magnitude m e < magnitude m' e') :
    magnitude m e ≤ (m' - gapBelow m' e') * 2 ^ e' := by
  obtain ⟨d, rfl⟩ := Int.le.dest (exponent_le_of_lt h h' hlt)
  have hunit : (2 : ℚ) ^ (e + d) = 2 ^ d * 2 ^ e := by
    rw [zpow_add₀ two_ne_zero, zpow_natCast, mul_comm]
  have hnat : m < m' * 2 ^ d := by
    rw [magnitude_add] at hlt
    have := lt_of_mul_lt_mul_right hlt (unit_pos e).le
    exact_mod_cast this
  have hm : (m : ℚ) ≤ 2 ^ 53 - 1 := by
    have : m ≤ 2 ^ 53 - 1 := by have := h.lt; omega
    have : ((m : ℕ) : ℚ) ≤ ((2 ^ 53 - 1 : ℕ) : ℚ) := by exact_mod_cast this
    norm_num at this ⊢
    exact this
  -- In units of the smaller float, whose exponent is `d` less.
  suffices (m : ℚ) ≤ (m' - gapBelow m' (e + d)) * 2 ^ d by
    rw [hunit, ← mul_assoc]
    exact mul_le_mul_of_nonneg_right this (unit_pos e).le
  have hd : (1 : ℚ) ≤ 2 ^ d := one_le_pow₀ one_le_two
  by_cases hpower : m' = 2 ^ 52 ∧ -1074 < e + d
  · -- The larger float is a power of two, so the smaller one has a smaller exponent.
    have hd0 : d ≠ 0 := by
      rintro rfl
      obtain ⟨rfl, hexp⟩ := hpower
      have := h.normal
      omega
    have hd2 : (2 : ℚ) ≤ 2 ^ d := by
      calc (2 : ℚ) = 2 ^ 1 := (pow_one 2).symm
        _ ≤ 2 ^ d := pow_le_pow_right₀ one_le_two (Nat.one_le_iff_ne_zero.2 hd0)
    rw [gapBelow, if_pos hpower, hpower.1]
    push_cast
    nlinarith
  · rw [gapBelow, if_neg hpower]
    by_cases hd0 : d = 0
    · subst hd0
      have : (m : ℚ) + 1 ≤ m' := by
        have : m + 1 ≤ m' := by omega
        exact_mod_cast this
      simp only [pow_zero, mul_one]
      linarith
    · have hm' : 2 ^ 52 + 1 ≤ m' := by
        have hnormal : 2 ^ 52 ≤ m' := h'.normal.resolve_right fun he => by
          have := h.exponent_ge
          omega
        have hne : m' ≠ 2 ^ 52 := fun heq => hpower ⟨heq, by have := h.exponent_ge; omega⟩
        omega
      have hm'' : (2 : ℚ) ^ 52 + 1 ≤ m' := by exact_mod_cast hm'
      have hd2 : (2 : ℚ) ≤ 2 ^ d := by
        calc (2 : ℚ) = 2 ^ 1 := (pow_one 2).symm
          _ ≤ 2 ^ d := pow_le_pow_right₀ one_le_two (Nat.one_le_iff_ne_zero.2 hd0)
      nlinarith

/-! ## Rounding -/

variable {v : ℚ}

/-- A larger float is at least as far from the number as the float that the number rounds to. -/
theorem Rounds.midpoint_above (hv : Rounds v m e) (h : Canonical m e) (h' : Canonical m' e')
    (hlt : magnitude m e < magnitude m' e') : 2 * v ≤ magnitude m e + magnitude m' e' := by
  have hspace := magnitude_ge_of_lt h h' hlt
  have hhigh := hv.high
  push_cast at hspace
  unfold magnitude at hspace ⊢
  linarith

/-- A smaller float is at least as far from the number as the float that the number rounds to. -/
theorem Rounds.midpoint_below (hv : Rounds v m' e') (h : Canonical m e) (h' : Canonical m' e')
    (hlt : magnitude m e < magnitude m' e') : magnitude m e + magnitude m' e' ≤ 2 * v := by
  have hspace := magnitude_le_of_lt h h' hlt
  have hlow := hv.low
  unfold magnitude at hspace ⊢
  linarith

/-- No float is nearer to a number than the one that the number rounds to. -/
theorem Rounds.nearest (hv : Rounds v m e) (h : Canonical m e) (h' : Canonical m' e') :
    |v - magnitude m e| ≤ |v - magnitude m' e'| := by
  rcases lt_trichotomy (magnitude m e) (magnitude m' e') with hlt | heq | hgt
  · have hmid := hv.midpoint_above h h' hlt
    rw [abs_le]
    have habs := neg_le_abs (v - magnitude m' e')
    constructor <;> linarith
  · rw [heq]
  · have hmid := hv.midpoint_below h' h hgt
    rw [abs_le]
    have habs := le_abs_self (v - magnitude m' e')
    constructor <;> linarith

/-- A number that rounds to two floats is the end of both intervals, and then both mantissas are
even although the larger float is one unit above the smaller one. -/
theorem Rounds.magnitude_not_lt (hv : Rounds v m e) (hv' : Rounds v m' e') (h : Canonical m e)
    (h' : Canonical m' e') : ¬ magnitude m e < magnitude m' e' := by
  intro hlt
  have habove := hv.midpoint_above h h' hlt
  have hbelow := hv'.midpoint_below h h' hlt
  have hmid : 2 * v = magnitude m e + magnitude m' e' := le_antisymm habove hbelow
  have hspace := magnitude_ge_of_lt h h' hlt
  have hspace' := magnitude_le_of_lt h h' hlt
  have hend : magnitude m' e' = ((m + 1 : ℕ) : ℚ) * 2 ^ e := by
    refine le_antisymm ?_ hspace
    have hhigh := hv.high
    push_cast
    unfold magnitude at hmid ⊢
    linarith
  have heven : m % 2 ≠ 1 := by
    intro hodd
    have hstrict := (hv.odd hodd).2
    unfold magnitude at hmid hspace
    push_cast at hspace
    linarith
  have heven' : m' % 2 ≠ 1 := by
    intro hodd
    have hstrict := (hv'.odd hodd).1
    unfold magnitude at hmid hspace'
    linarith
  obtain ⟨d, rfl⟩ := Int.le.dest (exponent_le_of_lt h h' hlt)
  rw [magnitude_add] at hend
  have hnat : m' * 2 ^ d = m + 1 := by
    have := mul_right_cancel₀ (unit_pos e).ne' hend
    exact_mod_cast this
  have hmod : (m' * 2 ^ d) % 2 = 0 := by
    rw [Nat.mul_mod, show m' % 2 = 0 by omega, Nat.zero_mul, Nat.zero_mod]
  omega

theorem eq_of_magnitude_eq (h : Canonical m e) (h' : Canonical m' e')
    (heq : magnitude m e = magnitude m' e') : m = m' ∧ e = e' := by
  wlog hle : e ≤ e' generalizing m m' e e'
  · obtain ⟨hm, he⟩ := this h' h heq.symm (by omega)
    exact ⟨hm.symm, he.symm⟩
  obtain ⟨d, rfl⟩ := Int.le.dest hle
  have hnat : m = m' * 2 ^ d := by
    rw [magnitude_add] at heq
    have := mul_right_cancel₀ (unit_pos e).ne' heq
    exact_mod_cast this
  by_cases hd : d = 0
  · subst hd
    exact ⟨by simpa using hnat, by simp⟩
  · have hm' : 2 ^ 52 ≤ m' := h'.normal.resolve_right fun he => by
      have := h.exponent_ge
      omega
    have hd2 : 2 ^ 1 ≤ 2 ^ d := Nat.pow_le_pow_right two_pos (Nat.one_le_iff_ne_zero.2 hd)
    have hprod := Nat.mul_le_mul hm' hd2
    have := h.lt
    omega

/-- A number rounds to one float at most. -/
theorem Rounds.unique (hv : Rounds v m e) (hv' : Rounds v m' e') (h : Canonical m e)
    (h' : Canonical m' e') : m = m' ∧ e = e' := by
  refine eq_of_magnitude_eq h h' (le_antisymm ?_ ?_)
  · exact not_lt.1 (hv'.magnitude_not_lt hv h' h)
  · exact not_lt.1 (hv.magnitude_not_lt hv' h h')

end PatternSynth.Binary
