import PatternSynth.Decimal.Shortest
import PatternSynth.Proofs.Binary.Rounding

/-!
# The shortest decimal rounds to its float

The search for a short decimal compares whole numbers only. Its test says that a point of a grid
rounds to the float (`Interval.holds_around`), so whatever the search finds does
(`rounds_shortest`).
-/

namespace PatternSynth.Decimal

open Binary (Rounds magnitude gapBelow)

/-- The number that a decimal stands for. -/
def value (d : Decimal) : ℚ :=
  d.coefficient * 10 ^ d.exponent

/-- A power with an integer exponent as a quotient of powers with natural exponents. -/
theorem pow_toNat {b : ℚ} (hb : b ≠ 0) (k : Int) : b ^ k.toNat = b ^ k * b ^ (-k).toNat := by
  rw [← zpow_natCast, ← zpow_natCast, ← zpow_add₀ hb]
  congr 1
  omega

namespace Interval

/-- What turns the numbers of the test into whole numbers. -/
def scale (i : Interval) (k : Int) : ℚ :=
  2 ^ (2 - i.exponent) * i.scaleDen k

theorem scale_pos (i : Interval) (k : Int) : 0 < i.scale k := by
  have hden : 0 < i.scaleDen k := by
    rw [scaleDen, Nat.shiftLeft_eq, Nat.pow_eq]
    positivity
  unfold scale
  positivity

theorem point_eq (i : Interval) (k : Int) (c : Nat) :
    ((c * i.scaleNum k : ℕ) : ℚ) = c * 10 ^ k * i.scale k := by
  have hneg : i.exponent - 2 = -(2 - i.exponent) := by ring
  simp only [scale, scaleNum, scaleDen, Nat.shiftLeft_eq, Nat.pow_eq, hneg]
  push_cast
  rw [pow_toNat (by norm_num) k, pow_toNat two_ne_zero (2 - i.exponent)]
  ring

theorem bound_eq (i : Interval) (k : Int) (quarters : Nat) :
    ((quarters * i.scaleDen k : ℕ) : ℚ) = quarters / 4 * 2 ^ i.exponent * i.scale k := by
  have hunit : (2 : ℚ) ^ i.exponent * 2 ^ (2 - i.exponent) = 4 := by
    rw [← zpow_add₀ two_ne_zero]
    norm_num
  rw [scale, mul_assoc, ← mul_assoc ((2 : ℚ) ^ i.exponent), hunit]
  push_cast
  ring

theorem bound_le_point_iff (i : Interval) (k : Int) (c quarters : Nat) :
    quarters * i.scaleDen k ≤ c * i.scaleNum k ↔
      (quarters : ℚ) / 4 * 2 ^ i.exponent ≤ c * 10 ^ k := by
  rw [← Nat.cast_le (α := ℚ), bound_eq, point_eq, mul_le_mul_iff_left₀ (i.scale_pos k)]

theorem point_le_bound_iff (i : Interval) (k : Int) (c quarters : Nat) :
    c * i.scaleNum k ≤ quarters * i.scaleDen k ↔
      (c : ℚ) * 10 ^ k ≤ quarters / 4 * 2 ^ i.exponent := by
  rw [← Nat.cast_le (α := ℚ), bound_eq, point_eq, mul_le_mul_iff_left₀ (i.scale_pos k)]

/-- The ends of the interval around a float. -/
theorem ends_around {m : Nat} (hm : 0 < m) (e : Int) :
    ((4 * m - (around m e).below : ℕ) : ℚ) / 4 = m - gapBelow m e / 2 ∧
      ((4 * m + 2 : ℕ) : ℚ) / 4 = m + 1 / 2 := by
  have hbelow : (around m e).below = if m = 2 ^ 52 ∧ -1074 < e then 1 else 2 := by
    simp [around]
  have hle : (around m e).below ≤ 4 * m := by
    rw [hbelow]
    split <;> omega
  constructor
  · rw [Nat.cast_sub hle, hbelow, gapBelow]
    split
    · push_cast
      ring
    · push_cast
      ring
  · push_cast
    ring

/-- The test of the search: the point of the grid rounds to the float. -/
theorem holds_around {m : Nat} (hm : 0 < m) (e k : Int) (c : Nat) :
    (around m e).holds k c = true ↔ Rounds (c * 10 ^ k) m e := by
  obtain ⟨hlow, hhigh⟩ := ends_around hm e
  have hmantissa : (around m e).mantissa = m := rfl
  have hexponent : (around m e).exponent = e := rfl
  simp only [holds, hmantissa]
  split
  · next heven =>
    rw [Bool.and_eq_true, decide_eq_true_eq, decide_eq_true_eq, bound_le_point_iff,
      point_le_bound_iff, hlow, hhigh, hexponent]
    exact ⟨fun h => ⟨h.1, h.2, fun hodd => by omega⟩, fun h => ⟨h.low, h.high⟩⟩
  · next hodd =>
    rw [Bool.and_eq_true, decide_eq_true_eq, decide_eq_true_eq, ← not_le, ← not_le,
      bound_le_point_iff, point_le_bound_iff, hlow, hhigh, hexponent, not_le, not_le]
    exact ⟨fun h => ⟨h.1.le, h.2.le, fun _ => h⟩, fun h => h.odd (by omega)⟩

/-! ## The search -/

theorem nearer_eq (i : Interval) (tie : Tie) (k : Int) (c : Nat) :
    i.nearer tie k c = c ∨ i.nearer tie k c = c + 1 := by
  simp only [nearer]
  split
  · exact Or.inl rfl
  · split
    · exact Or.inr rfl
    · cases tie with
      | up => exact Or.inr rfl
      | even =>
        show c + c % 2 = c ∨ c + c % 2 = c + 1
        omega

theorem holds_of_candidate {i : Interval} {tie : Tie} {k : Int} {c : Nat}
    (h : i.candidate tie k = some c) : i.holds k c = true := by
  simp only [candidate] at h
  split at h
  · next hlower hupper =>
    cases h
    rcases i.nearer_eq tie k (i.lowerNeighbour k) with hc | hc <;> rw [hc]
    · exact hlower
    · exact hupper
  · next hlower _ =>
    cases h
    exact hlower
  · next _ hupper =>
    cases h
    exact hupper
  · cases h

theorem value_exactly (i : Interval) : i.exactly.value = magnitude i.mantissa i.exponent := by
  unfold exactly magnitude
  split
  · next hexponent =>
    obtain ⟨n, hn⟩ := Int.eq_ofNat_of_zero_le hexponent
    rw [hn]
    simp [value, Nat.shiftLeft_eq]
  · have hfive : (5 : ℚ) ^ (-i.exponent).toNat * 10 ^ i.exponent = 2 ^ i.exponent := by
      have hten : (10 : ℚ) ^ i.exponent = 5 ^ i.exponent * 2 ^ i.exponent := by
        rw [← mul_zpow]
        norm_num
      have hneg : ((-i.exponent).toNat : Int) = -i.exponent := by omega
      rw [hten, ← mul_assoc, ← zpow_natCast, hneg, ← zpow_add₀ (by norm_num)]
      simp
    simp only [value, Nat.pow_eq]
    push_cast
    rw [mul_assoc, hfive]

theorem rounds_search {m : Nat} (hm : 0 < m) (e : Int) (tie : Tie) (steps : Nat) (k : Int) :
    Rounds ((around m e).search tie steps k).value m e := by
  induction steps generalizing k with
  | zero =>
    rw [search, value_exactly]
    exact Binary.rounds_magnitude m e
  | succ steps ih =>
    rw [search]
    split
    · next c hc => exact (holds_around hm e k c).1 (holds_of_candidate hc)
    · exact ih (k - 1)

end Interval

/-- The shortest decimal rounds to the float that it stands for. -/
theorem rounds_shortest {m : Nat} (hm : 0 < m) (e : Int) (tie : Tie) :
    Rounds (shortest tie m e).value m e :=
  Interval.rounds_search hm e tie _ _

end PatternSynth.Decimal
