import Mathlib.Data.Int.ModEq
import PatternSynth.Proofs.Binary.Remainder
import PatternSynth.Proofs.Number.Coercion

/-!
# The bitwise words

A number is read as a 32-bit integer by a few operations on floats: its whole part, a remainder that
is made non-negative, and a fold of the upper half. None of them rounds, so that the integer is the
whole part modulo `2 ^ 32` (`toInt32_eq_ofInt`). The bitwise words are the operations on
two's-complement patterns of 32 bits (`onNumbers_eq_pattern`). Their results are whole numbers that
are read as themselves (`toInt32_ofInt`).
-/

namespace PatternSynth

namespace Binary

open Float.Model Float.Model.UnpackedFloat

/-! ## Whole numbers as floats -/

theorem real_ofNat {n : Nat} (hn : n < 2 ^ 53) :
    (Float.ofNat n).isFinite = true ∧ real (Float.ofNat n) = n := by
  rcases Nat.eq_zero_or_pos n with rfl | hpos
  · exact ⟨rfl, real_of_unpack_zero (s := .positive) rfl⟩
  have hnearest := Decimal.isNearest_toFloat ⟨n, 0⟩
  have hvalue : (Decimal.mk n 0).value = n := by simp [Decimal.value]
  rw [hvalue] at hnearest
  have hone : (1 : ℚ) ≤ n := by exact_mod_cast hpos
  have hsize : (n : ℚ) < 2 ^ 53 := by exact_mod_cast hn
  have hrounded : IsRounded n (Float.ofNat n) :=
    hnearest.rounded (least_lt_one.trans_le hone) (hsize.trans two_pow_lt_overflow)
  have hfloat := hrounded.eq_of_magnitude (canonical_padding hpos hn).1 (magnitude_padding n).symm
  refine ⟨isFinite_of_ofFloat hfloat, ?_⟩
  rw [real, hfloat, toRat_finite, if_neg Bool.false_ne_true, magnitude_padding]

/-- A whole number of at most 53 bits is a float. -/
theorem real_ofInt {k : ℤ} (hk : k.natAbs < 2 ^ 53) :
    (Float.ofInt k).isFinite = true ∧ real (Float.ofInt k) = k := by
  cases k with
  | ofNat n => exact real_ofNat hk
  | negSucc n =>
    obtain ⟨hfinite, hreal⟩ := real_ofNat (n := n + 1) hk
    refine ⟨(isFinite_neg _).trans hfinite, ?_⟩
    change real (-Float.ofNat (n + 1)) = _
    rw [real_neg hfinite, hreal, Int.cast_negSucc]

end Binary

open Binary

/-! ## Reading modulo `2 ^ 32` -/

theorem real_two_pow_31 : real 2147483648 = (2 ^ 31 : ℤ) := by decide +kernel

theorem real_two_pow_32 : real 4294967296 = (2 ^ 32 : ℤ) := by decide +kernel

/-- A whole number within the range is cast to itself. -/
theorem toInt_castInt32 {x : Float} {k : ℤ} (hx : x.isFinite = true) (hreal : real x = k)
    (hlow : -2 ^ 31 ≤ k) (hhigh : k < 2 ^ 31) : (castInt32 x).toInt = k := by
  obtain ⟨negative, m, e, hfloat, -⟩ := ofFloat_of_isFinite hx
  have htruncate : (ofFloat x).truncate = k := by
    rw [truncate_ofFloat, hreal, towardZero_intCast]
  have hclamp : (ofFloat x).clamp truncate Int32.minValue.toInt Int32.maxValue.toInt = k := by
    rw [hfloat] at htruncate ⊢
    change max (-2147483648) (min 2147483647 (truncate _)) = k
    omega
  rw [castInt32, hclamp, Int32.toInt_ofInt_of_le hlow hhigh]

/-- The remainder of the whole part modulo `2 ^ 32` is computed without rounding. -/
theorem real_wrapped {x : Float} (hx : x.isFinite = true) :
    (euclideanRemainder (roundTowardZero x) 4294967296).isFinite = true ∧
      real (euclideanRemainder (roundTowardZero x) 4294967296) =
        (towardZero (real x) % 2 ^ 32 : ℤ) := by
  obtain ⟨hfinite, hreal⟩ := real_roundTowardZero hx
  exact real_euclideanRemainder hfinite rfl hreal real_two_pow_32 (by norm_num) (by norm_num)

/-- A finite number is read as the integer of the range that is its whole part modulo `2 ^ 32`. -/
theorem toInt_toInt32 {x : Float} (hx : x.isFinite = true) :
    (toInt32 x).toInt = (towardZero (real x)).bmod (2 ^ 32) := by
  obtain ⟨hfinite, hreal⟩ := real_wrapped hx
  have hlow := Int.emod_nonneg (towardZero (real x)) (b := 2 ^ 32) (by norm_num)
  have hhigh := Int.emod_lt_of_pos (towardZero (real x)) (b := 2 ^ 32) (by norm_num)
  rw [toInt32, if_pos hx, Int.bmod_def]
  dsimp only
  split
  · next hupper =>
    rw [le_iff rfl hfinite, hreal, real_two_pow_31, Int.cast_le] at hupper
    have hdiff := roundsTo_sub hfinite (y := 4294967296) rfl
    rw [hreal, real_two_pow_32, ← Int.cast_sub] at hdiff
    obtain ⟨hfinite', hreal'⟩ := hdiff.whole (by omega)
    rw [toInt_castInt32 hfinite' hreal' (by omega) (by omega)]
    omega
  · next hlower =>
    rw [le_iff rfl hfinite, hreal, real_two_pow_31, Int.cast_le, not_le] at hlower
    rw [toInt_castInt32 hfinite hreal (by omega) hlower]
    omega

/-- Every number is read as its whole part modulo `2 ^ 32`, and as zero where it has none. -/
theorem toInt32_eq_ofInt (x : Float) : toInt32 x = Int32.ofInt (towardZero (real x)) := by
  by_cases hx : x.isFinite = true
  · rw [← Int32.toInt_inj, toInt_toInt32 hx, Int32.toInt_ofInt]
    rfl
  · rw [toInt32, if_neg hx, real_of_not_isFinite (Bool.not_eq_true _ ▸ hx)]
    rfl

/-- The number is read as its whole part, moved by a multiple of `2 ^ 32` into the range of 32-bit
integers. -/
theorem toInt32_eq_iff (x : Float) (k : ℤ) : (toInt32 x).toInt = k ↔
    -2 ^ 31 ≤ k ∧ k < 2 ^ 31 ∧ k ≡ towardZero (real x) [ZMOD 2 ^ 32] := by
  rw [toInt32_eq_ofInt, Int32.toInt_ofInt, Int.bmod_def, Int.ModEq]
  change (if towardZero (real x) % 2 ^ 32 < (2 ^ 32 + 1) / 2 then towardZero (real x) % 2 ^ 32
    else towardZero (real x) % 2 ^ 32 - 2 ^ 32) = k ↔ _
  split <;> constructor <;> omega

/-- The pattern that a number is read as. -/
theorem toBitVec_toInt32 (x : Float) :
    (toInt32 x).toBitVec = BitVec.ofInt 32 (towardZero (real x)) := by
  rw [toInt32_eq_ofInt, Int32.toBitVec_ofInt]

/-- A 32-bit integer is a float that is read as the integer. -/
theorem toInt32_ofInt (i : Int32) : toInt32 (Float.ofInt i.toInt) = i := by
  have hlow := i.le_toInt
  have hhigh := i.toInt_lt
  obtain ⟨-, hreal⟩ := real_ofInt (k := i.toInt) (by omega)
  rw [← Int32.toInt_inj, toInt32_eq_iff, hreal, towardZero_intCast]
  exact ⟨hlow, hhigh, rfl⟩

namespace Operator

/-! ## Operations on patterns -/

/-- What a bitwise word makes of two whole numbers: a pattern of 32 bits. -/
def pattern? (op : Operator) (a b : ℤ) : Option (BitVec 32) :=
  match op with
  | and => some (BitVec.ofInt 32 a &&& BitVec.ofInt 32 b)
  | or => some (BitVec.ofInt 32 a ||| BitVec.ofInt 32 b)
  | xor => some (BitVec.ofInt 32 a ^^^ BitVec.ofInt 32 b)
  | shiftLeft => some (BitVec.ofInt 32 a <<< (b % 32).toNat)
  | shiftRight => some ((BitVec.ofInt 32 a).sshiftRight (b % 32).toNat)
  | _ => none

/-- A shift count is the whole part modulo 32, whatever its sign. -/
theorem toNat_shiftCount (x : Float) :
    (shiftCount x).toNat = (towardZero (real x) % 32).toNat := by
  have hbits : (toInt32 x).toUInt32.toNat = (towardZero (real x) % 2 ^ 32).toNat := by
    change (toInt32 x).toBitVec.toNat = _
    rw [toBitVec_toInt32, BitVec.toNat_ofInt]
    rfl
  rw [shiftCount, UInt32.toNat_and, hbits]
  change _ &&& (2 ^ 5 - 1) = _
  rw [Nat.and_two_pow_sub_one_eq_mod]
  omega

/-- A shift by so little goes as far as it says. -/
theorem smod_of_lt {n : BitVec 32} (h : n.toNat < 32) : n.smod 32 = n := by
  have hcount : n.toInt = n.toNat := BitVec.toInt_eq_toNat_of_lt (by omega)
  have hmodulus : (32 : BitVec 32).toInt = 32 := rfl
  refine BitVec.eq_of_toInt_eq ?_
  rw [BitVec.toInt_smod, hcount, hmodulus]
  exact Int.fmod_eq_of_lt (by omega) (by omega)

theorem toNat_smod_shiftCount (x : Float) :
    ((shiftCount x).toInt32.toBitVec.smod 32).toNat = (towardZero (real x) % 32).toNat := by
  have hcount : (shiftCount x).toInt32.toBitVec.toNat = _ := toNat_shiftCount x
  rw [smod_of_lt (by omega), hcount]

/-- A bitwise word gives the number of its pattern. -/
theorem onNumbers_eq_pattern {op : Operator} {a b : Float} {bits : BitVec 32}
    (h : op.pattern? (towardZero (real a)) (towardZero (real b)) = some bits) :
    op.onNumbers a b = Float.ofInt bits.toInt := by
  have hleft := toBitVec_toInt32 a
  have hright := toBitVec_toInt32 b
  have hcount := toNat_smod_shiftCount b
  cases op with
  | and | or | xor =>
    cases h
    rw [← hleft, ← hright]
    rfl
  | shiftLeft | shiftRight =>
    cases h
    rw [← hleft, ← hcount]
    rfl
  | _ => cases h

theorem exists_pattern {op : Operator} (hop : op ∈ [and, or, xor, shiftLeft, shiftRight])
    (a b : ℤ) : ∃ bits, op.pattern? a b = some bits := by
  cases op with
  | and | or | xor | shiftLeft | shiftRight => exact ⟨_, rfl⟩
  | _ => simp at hop

/-- The bitwise words are 32-bit two's-complement arithmetic on every input: a finite number is read
as the one 32-bit integer that is congruent to its whole part, any other as zero, and a word gives
the number of the pattern that it makes, which is read as itself again. -/
theorem bitwise_twosComplement :
    (∀ x : Float, x.isFinite = true → ∀ k : ℤ, (toInt32 x).toInt = k ↔
      -2 ^ 31 ≤ k ∧ k < 2 ^ 31 ∧ k ≡ towardZero (real x) [ZMOD 2 ^ 32]) ∧
    (∀ x : Float, x.isFinite = false → toInt32 x = 0) ∧
    ∀ op ∈ [and, or, xor, shiftLeft, shiftRight], ∀ (lhs : Value) (rhs : Option Value),
      ∃ bits y,
        op.pattern? (towardZero (real lhs.toNumber))
            (towardZero (real ((rhs.map Value.toNumber).getD Number.nan))) = some bits ∧
          op.apply lhs rhs = .number y ∧ y.isFinite = true ∧ real y = bits.toInt ∧
          (toInt32 y).toBitVec = bits ∧ Float.ofInt (toInt32 y).toInt = y := by
  refine ⟨fun x _ => toInt32_eq_iff x, fun x hx => ?_, fun op hop lhs rhs => ?_⟩
  · rw [← Int32.toInt_inj, toInt32_eq_iff, real_of_not_isFinite hx]
    exact ⟨by decide, by decide, rfl⟩
  · obtain ⟨bits, hbits⟩ := exists_pattern hop (towardZero (real lhs.toNumber))
      (towardZero (real ((rhs.map Value.toNumber).getD Number.nan)))
    have hne : op ≠ add := by
      rintro rfl
      simp at hop
    have hresult : op.apply lhs rhs = .number (Float.ofInt bits.toInt) := by
      rw [apply_of_ne_add hne, onNumbers_eq_pattern hbits]
    obtain ⟨hfinite, hreal⟩ := real_ofInt (k := bits.toInt) (by
      have hlow := BitVec.le_two_mul_toInt (x := bits)
      have hhigh := BitVec.two_mul_toInt_lt (x := bits)
      omega)
    have hread : toInt32 (Float.ofInt bits.toInt) = Int32.ofBitVec bits :=
      toInt32_ofInt (.ofBitVec bits)
    refine ⟨bits, _, hbits, hresult, hfinite, hreal, congrArg Int32.toBitVec hread, ?_⟩
    rw [hread]
    rfl

/-- A number below the range wraps around, and a negative count shifts by its remainder. -/
theorem bitwise_twosComplement_shift :
    (-4294967295.5 : Float).isFinite = true ∧ (toInt32 (-4294967295.5)).toInt = 1 ∧
      shiftLeft.apply (.text "7.9") (some (.number (-31))) = .number 14 := by
  have hfinite : (-4294967295.5 : Float).isFinite = true := by decide
  refine ⟨hfinite, (bitwise_twosComplement.1 _ hfinite 1).2 (by decide +kernel), ?_⟩
  obtain ⟨bits, y, hbits, happly, -, -, hpattern, hy⟩ :=
    bitwise_twosComplement.2.2 shiftLeft (by decide) (.text "7.9") (some (.number (-31)))
  have hfourteen : bits = 14 := by
    refine Option.some_inj.1 (hbits.symm.trans ?_)
    decide +kernel
  have hread : (toInt32 y).toInt = 14 := by
    rw [← Int32.toInt_toBitVec, hpattern, hfourteen]
    rfl
  rw [happly, ← hy, hread]
  rfl

end Operator

end PatternSynth
