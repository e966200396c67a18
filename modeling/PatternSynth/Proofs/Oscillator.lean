import PatternSynth.Oscillator
import PatternSynth.Proofs.Binary.Turn

/-!
# Oscillators stay between minus one and one

At every phase, each waveform that is heard as an oscillator gives a number between minus one and
one (`Waveform.within_shape`), and so does the noise generator in every state
(`Noise.within_next`). The sine is the library's; that it keeps to these bounds is an assumption
(`SineWithin`).
-/

namespace PatternSynth

namespace Binary

open Float.Model Float.Model.UnpackedFloat

/-- The float is finite and lies between two numbers. -/
def Within (low high : ℚ) (x : Float) : Prop :=
  x.isFinite = true ∧ low ≤ real x ∧ real x ≤ high

instance (low high : ℚ) (x : Float) : Decidable (Within low high x) :=
  inferInstanceAs (Decidable (_ ∧ _ ∧ _))

/-- The number of some float. -/
def IsFloat (q : ℚ) : Prop :=
  ∃ z : Float, z.isFinite = true ∧ real z = q

variable {x c : Float} {low high low' high' : ℚ}

theorem RoundsTo.within {w : ℚ} (h : RoundsTo w x) (hlow : IsFloat low) (hhigh : IsFloat high)
    (hle : low ≤ w) (hge : w ≤ high) : Within low high x := by
  obtain ⟨z, hz, rfl⟩ := hlow
  obtain ⟨z', hz', rfl⟩ := hhigh
  exact h.between hz hz' hle hge

theorem Within.mul (h : Within low high x) (hc : c.isFinite = true) (hpos : 0 ≤ real c)
    (hlow : IsFloat low') (hhigh : IsFloat high') (hle : low' ≤ low * real c)
    (hge : high * real c ≤ high') : Within low' high' (x * c) :=
  (roundsTo_mul h.1 hc).within hlow hhigh (hle.trans (mul_le_mul_of_nonneg_right h.2.1 hpos))
    ((mul_le_mul_of_nonneg_right h.2.2 hpos).trans hge)

theorem Within.add (h : Within low high x) (hc : c.isFinite = true) (hlow : IsFloat low')
    (hhigh : IsFloat high') (hle : low' ≤ low + real c) (hge : high + real c ≤ high') :
    Within low' high' (x + c) :=
  (roundsTo_add h.1 hc).within hlow hhigh (hle.trans (by linarith [h.2.1]))
    (le_trans (by linarith [h.2.2]) hge)

theorem Within.sub (h : Within low high x) (hc : c.isFinite = true) (hlow : IsFloat low')
    (hhigh : IsFloat high') (hle : low' ≤ low - real c) (hge : high - real c ≤ high') :
    Within low' high' (x - c) :=
  (roundsTo_sub h.1 hc).within hlow hhigh (hle.trans (by linarith [h.2.1]))
    (le_trans (by linarith [h.2.2]) hge)

theorem Within.abs {b : ℚ} (h : Within (-b) b x) : Within 0 b x.abs := by
  obtain ⟨hfinite, hreal⟩ := real_abs h.1
  exact ⟨hfinite, hreal ▸ abs_nonneg _, hreal ▸ abs_le.2 h.2⟩

/-! ## Small numbers -/

theorem real_two : real 2 = 2 := by decide +kernel

theorem real_four : real 4 = 4 := by decide +kernel

theorem real_minus_one : real (-1) = -1 := by decide +kernel

theorem isFloat_zero : IsFloat 0 := ⟨0, rfl, real_zero⟩

theorem isFloat_one : IsFloat 1 := ⟨1, rfl, real_one⟩

theorem isFloat_minus_one : IsFloat (-1) := ⟨-1, rfl, real_minus_one⟩

theorem isFloat_two : IsFloat 2 := ⟨2, rfl, real_two⟩

end Binary

open Binary

namespace Noise

open Float.Model Float.Model.UnpackedFloat

/-! ## Noise -/

/-- The bits of a float from one to two. -/
theorem toNat_bits (x : UInt64) :
    ((0x3ff0000000000000 : UInt64) ||| (x >>> 12)).toNat = 2 ^ 52 * 1023 + x.toNat / 2 ^ 12 := by
  have hlt : x.toNat / 2 ^ 12 < 2 ^ 52 := by
    have := x.toNat_lt
    omega
  rw [UInt64.toNat_or, UInt64.toNat_shiftRight, Nat.shiftRight_eq_div_pow,
    Nat.two_pow_add_eq_or_of_lt hlt]
  rfl

theorem within_ofBits (x : UInt64) : Within 1 (2 - 2 ^ (-52 : Int))
    (Float.ofBits ((0x3ff0000000000000 : UInt64) ||| (x >>> 12))) := by
  have hbits := toNat_bits x
  have hlt : x.toNat / 2 ^ 12 < 2 ^ 52 := by
    have := x.toNat_lt
    omega
  generalize (0x3ff0000000000000 : UInt64) ||| (x >>> 12) = b at hbits
  generalize x.toNat / 2 ^ 12 = n at hbits hlt
  have hmantissa : (@unpackMantissa .binary64 b.toBitVec).toNat = n := by
    change b.toBitVec.toNat >>> 0 % 2 ^ 52 = _
    rw [UInt64.toNat_toBitVec, hbits]
    omega
  have hexponent : @unpackExponent .binary64 b.toBitVec = 1023#11 := by
    refine BitVec.eq_of_toNat_eq ?_
    change b.toBitVec.toNat >>> 52 % 2 ^ 11 = 1023
    rw [UInt64.toNat_toBitVec, hbits, Nat.shiftRight_eq_div_pow]
    omega
  have hsign : @unpackSign .binary64 b.toBitVec = 0#1 := by
    refine BitVec.eq_of_toNat_eq ?_
    change b.toBitVec.toNat >>> 63 % 2 ^ 1 = 0
    rw [UInt64.toNat_toBitVec, hbits, Nat.shiftRight_eq_div_pow]
    omega
  have hunpack : (Float.ofBits b).toModel.unpack =
      .finite .positive (2 ^ 52 + n) (-52) (by omega) := by
    refine (unpack_ofModel_pack (isUnpacked_unpack b.toBitVec)).trans ?_
    rw [UnpackedFloat.unpack]
    simp only [hexponent, hsign]
    rw [if_neg (by decide), if_neg (by decide)]
    congr 1
    rw [toNat_implicit, hmantissa]
  refine ⟨congrArg UnpackedFloat.isFinite hunpack, ?_⟩
  rw [real_of_unpack hunpack, signed, magnitude]
  have hfraction : (n : ℚ) + 1 ≤ 2 ^ 52 := by exact_mod_cast hlt
  have hnonneg : (0 : ℚ) ≤ n := Nat.cast_nonneg n
  push_cast
  norm_num at hfraction ⊢
  constructor <;> linarith

theorem within_fraction (x : UInt64) : Within 0 (1 - 2 ^ (-52 : Int)) (fraction x) := by
  have hlargest : IsFloat (1 - 2 ^ (-52 : Int)) := by
    obtain ⟨z, hz, hreal⟩ := exists_real .positive (m := 2 ^ 52 - 1) (e := -52) (by norm_num)
      (by norm_num) (by norm_num)
    refine ⟨z, hz, ?_⟩
    rw [hreal, signed, magnitude]
    norm_num
  exact (within_ofBits x).sub rfl isFloat_zero hlargest (by rw [real_one]; norm_num)
    (by rw [real_one]; norm_num)

theorem real_width : real width = 2 + 2 ^ (-51 : Int) := by decide +kernel

/-- The generator gives a number between minus one and one in every state. -/
theorem within_next (g : Noise) : Within (-1) 1 g.next.1 := by
  -- The width is the float just above two, and the product with the largest fraction is below two.
  have hproduct : Within 0 2 (fraction g.nextWord.1 * width) :=
    (within_fraction g.nextWord.1).mul (by decide +kernel) (by rw [real_width]; norm_num)
      isFloat_zero isFloat_two (by rw [zero_mul]) (by rw [real_width]; norm_num)
  exact hproduct.add rfl isFloat_minus_one isFloat_one (by rw [real_minus_one]; norm_num)
    (by rw [real_minus_one]; norm_num)

end Noise

/-! ## Shapes -/

/-- The sine of a finite number is a number between minus one and one. -/
def SineWithin : Prop :=
  ∀ x : Float, x.isFinite = true → Within (-1) 1 (Float.sin x)

namespace Waveform

variable {phase : Float}

theorem within_saw (hphase : Within 0 1 phase) : Within (-1) 1 (phase * 2 - 1) := by
  have hdouble : Within 0 2 (phase * 2) :=
    hphase.mul rfl (by rw [real_two]; norm_num) isFloat_zero isFloat_two (by rw [zero_mul])
      (by rw [real_two]; norm_num)
  exact hdouble.sub rfl isFloat_minus_one isFloat_one (by rw [real_one]; norm_num)
    (by rw [real_one]; norm_num)

theorem within_triangle (hphase : Within 0 1 phase) :
    Within (-1) 1 ((phase * 4 - 2).abs - 1) := by
  have hscaled : Within 0 4 (phase * 4) :=
    hphase.mul rfl (by rw [real_four]; norm_num) isFloat_zero ⟨4, rfl, real_four⟩ (by rw [zero_mul])
      (by rw [real_four]; norm_num)
  have hcentred : Within (-2) 2 (phase * 4 - 2) :=
    hscaled.sub rfl ⟨-2, rfl, by decide +kernel⟩ isFloat_two (by rw [real_two]; norm_num)
      (by rw [real_two]; norm_num)
  exact hcentred.abs.sub rfl isFloat_minus_one isFloat_one (by rw [real_one]; norm_num)
    (by rw [real_one]; norm_num)

theorem within_turn (hphase : phase.isFinite = true) : Within 0 1 (fractionalTurn phase) := by
  obtain ⟨hfinite, hlow, hhigh, -⟩ := fractionalTurn_spec hphase
  exact ⟨hfinite, hlow, hhigh⟩

/-- An oscillator at a phase between zero and one lies between minus one and one. -/
theorem within_shape {w : Waveform} (hw : w ∉ [raw, sample]) (hsine : w = sine → SineWithin)
    (hphase : Within 0 1 phase) (g : Noise) : Within (-1) 1 (w.shape phase g).1 := by
  have hturn := within_turn hphase.1
  cases w with
  | sine =>
    have hmul := roundsTo_mul hphase.1 (y := turn) (by decide +kernel)
    have hle : |real phase * real turn| ≤ |real turn| := by
      rw [abs_mul, abs_of_nonneg hphase.2.1]
      exact mul_le_of_le_one_left (abs_nonneg _) hphase.2.2
    exact hsine rfl _ (hmul.abs_real_le (by decide +kernel) hle).1
  | saw => exact within_saw hturn
  | square =>
    have hhigh : Within (-1) 1 (0.5 : Float) := by decide +kernel
    have hlow : Within (-1) 1 (-0.5 : Float) := by decide +kernel
    simp only [shape]
    split
    · exact hhigh
    · exact hlow
  | triangle => exact within_triangle hturn
  | noise => exact Noise.within_next g
  | raw | sample => simp at hw

end Waveform

end PatternSynth
