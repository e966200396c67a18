import PatternSynth.Proofs.Number.Grammar
import PatternSynth.Proofs.Number.Identity

/-!
# The text of a number in a reply

The text of a finite number is a numeral of thousandths, and these are the nearest ones. Reading it
gives the float nearest to them, which is no farther from them than the number was, so it has the
same thousandths (`toPlaces_of_rounds`). Hence a text that is read is the text of what it is
read as (`display_leading?`).
-/

namespace PatternSynth

namespace Decimal

open Binary (Canonical IsRounded NearestEven magnitude overflow)
open Float.Model (UnpackedFloat)

/-! ## Rounding to thousandths -/

/-- A quotient is rounded by the bits that a float division rounds by. -/
theorem roundDiv_eq (num : Nat) {den : Nat} (hden : 0 < den) :
    roundDiv num den = (UnpackedFloat.ExtendedMantissa.ofMantissaAndAccuracy (num / den)
      (UnpackedFloat.accuracyOfFraction (num % den) den)).roundedMantissa := by
  unfold roundDiv UnpackedFloat.accuracyOfFraction
  rcases lt_trichotomy (2 * (num % den)) den with hless | hhalf | hmore
  · rw [if_pos hless]
    split
    · rfl
    · rw [Nat.compare_eq_lt.2 hless]
      rfl
  · rw [if_neg (by omega), if_neg (by omega), if_neg (by omega), Nat.compare_eq_eq.2 hhalf]
    rfl
  · rw [if_neg (by omega), if_pos hmore, if_neg (by omega), Nat.compare_eq_gt.2 hmore]
    rfl

theorem nearestEven_toPlaces (m : Nat) (e : Int) :
    NearestEven (1000 * magnitude m e) (toPlaces 3 m e) := by
  have hden : 0 < 1 <<< (-e).toNat := by
    rw [Nat.shiftLeft_eq]
    positivity
  have hvalue : (((m * Nat.pow 10 3) <<< e.toNat : ℕ) : ℚ) / ((1 <<< (-e).toNat : ℕ) : ℚ) =
      1000 * magnitude m e := by
    rw [Nat.shiftLeft_eq, Nat.shiftLeft_eq, Nat.pow_eq, magnitude]
    push_cast
    rw [pow_toNat two_ne_zero e, div_eq_iff (by positivity)]
    ring
  rw [toPlaces, roundDiv_eq _ hden, ← hvalue]
  exact (Binary.represents_div _ hden).roundedMantissa

variable {m m' : Nat} {e e' : Int}

theorem abs_thousandths_sub_le (m : Nat) (e : Int) :
    |(toPlaces 3 m e / 1000 : ℚ) - magnitude m e| ≤ 1 / 2000 := by
  obtain ⟨hlow, hhigh, -⟩ := nearestEven_toPlaces m e
  rw [abs_le]
  constructor <;> linarith

theorem thousandths_lt_overflow (h : Canonical m e) : (toPlaces 3 m e / 1000 : ℚ) < overflow := by
  have hclose := (abs_le.1 (abs_thousandths_sub_le m e)).2
  have hpow : (1 : ℚ) ≤ 2 ^ (970 : Int) := one_le_zpow₀ one_le_two (by norm_num)
  have hm : (m : ℚ) ≤ 2 ^ 53 - 1 := by
    have := h.lt
    have : (m : ℚ) + 1 ≤ 2 ^ 53 := by exact_mod_cast this
    linarith
  have hlargest : magnitude m e ≤ overflow - 1 := by
    calc magnitude m e ≤ (2 ^ 53 - 1) * 2 ^ (971 : Int) := by
          have hunit : (2 : ℚ) ^ e ≤ 2 ^ (971 : Int) :=
            zpow_le_zpow_right₀ one_le_two h.exponent_le
          exact mul_le_mul hm hunit (Binary.unit_pos e).le (by norm_num)
      _ = overflow - 2 ^ (970 : Int) := by
          rw [overflow, show (971 : Int) = 970 + 1 by norm_num, zpow_add_one₀ two_ne_zero]
          ring
      _ ≤ overflow - 1 := sub_le_sub_left hpow _
  linarith

/-- The float that thousandths are read as has the same thousandths. -/
theorem toPlaces_of_rounds (h : Canonical m e) (h' : Canonical m' e')
    (hrounds : Binary.Rounds (toPlaces 3 m e / 1000 : ℚ) m' e') :
    toPlaces 3 m' e' = toPlaces 3 m e := by
  -- The float that was written is a candidate too, so the one that is read is no farther away.
  have hnear := hrounds.nearest h' h
  have hclose := abs_le.1 (hnear.trans (abs_thousandths_sub_le m e))
  refine (nearestEven_toPlaces m' e').unique ⟨by linarith, by linarith, fun hodd => ?_⟩
  obtain ⟨hlow, hhigh⟩ := (nearestEven_toPlaces m e).odd hodd
  have hhalf : |(toPlaces 3 m e / 1000 : ℚ) - magnitude m e| < 1 / 2000 := by
    rw [abs_lt]
    constructor <;> linarith
  have hcloser := abs_lt.1 (hnear.trans_lt hhalf)
  constructor <;> linarith

/-! ## The numeral of thousandths -/

/-- The digits after the point. -/
def fractionDigits (thousandths : Nat) : List Char :=
  (Number.padded 3 (thousandths % 1000)).rdropWhile (· == '0')

theorem length_padded {n : Nat} (hn : n < 1000) : (Number.padded 3 n).length = 3 := by
  have hlength : (toString n).toList.length ≤ 3 := by
    rw [Nat.toString_eq_repr, Nat.toList_repr]
    exact (Nat.length_toDigits_le_iff (by decide) (by decide)).2 hn
  simp only [Number.padded, List.length_append, List.length_replicate]
  omega

theorem areDigits_padded (n : Nat) : AreDigits (Number.padded 3 n) :=
  (areDigits_zeros _).append (areDigits_toString n)

theorem ofDigits_padded (n : Nat) : ofDigits (Number.padded 3 n) = n := by
  rw [Number.padded, ofDigits_append, ofDigits_zeros, ofDigits_toString, Nat.mul_zero, Nat.zero_add]

/-- Zeros at the end of a fraction have no value. -/
theorem exists_fractionDigits (thousandths : Nat) :
    ∃ k, (fractionDigits thousandths).length + k = 3 ∧
      ofDigits (fractionDigits thousandths) * 10 ^ k = thousandths % 1000 := by
  obtain ⟨zeros, hzeros⟩ : ∃ zeros, (Number.padded 3 (thousandths % 1000)).rtakeWhile (· == '0') =
      zeros := ⟨_, rfl⟩
  have hsplit : fractionDigits thousandths ++ zeros = Number.padded 3 (thousandths % 1000) := by
    rw [← hzeros]
    exact List.rdropWhile_append_rtakeWhile
  have hreplicate : zeros = List.replicate zeros.length '0' := by
    refine List.eq_replicate_of_mem fun c hc => ?_
    rw [← hzeros] at hc
    simpa using List.mem_rtakeWhile_imp hc
  refine ⟨zeros.length, ?_, ?_⟩
  · rw [← List.length_append, hsplit, length_padded (Nat.mod_lt _ (by decide))]
  · have hvalue := ofDigits_append (fractionDigits thousandths) zeros
    rw [hsplit, ofDigits_padded, hreplicate, ofDigits_zeros, List.length_replicate] at hvalue
    rw [hvalue]
    ring

theorem areDigits_fractionDigits (thousandths : Nat) : AreDigits (fractionDigits thousandths) :=
  fun c hc => areDigits_padded _ c ((List.rdropWhile_prefix _ _).subset hc)

theorem value_thousandths (n : Nat) :
    (ofNumeral (toString (n / 1000)).toList (fractionDigits n)).value = n / 1000 := by
  obtain ⟨k, hlength, hvalue⟩ := exists_fractionDigits n
  have hdivision : ((n / 1000 : ℕ) : ℚ) * 1000 + (n % 1000 : ℕ) = n := by
    exact_mod_cast (by omega : n / 1000 * 1000 + n % 1000 = n)
  have hpow : (10 : ℚ) ^ (fractionDigits n).length * 10 ^ k = 1000 := by
    rw [← pow_add, hlength]
    norm_num
  have hfraction : (ofDigits (fractionDigits n) : ℚ) * 10 ^ k = (n % 1000 : ℕ) := by
    exact_mod_cast hvalue
  rw [value, ofNumeral, ofDigits_append, ofDigits_toString, zpow_neg, zpow_natCast,
    ← div_eq_mul_inv, div_eq_div_iff (by positivity) (by norm_num), ← hdivision, ← hpow,
    ← hfraction]
  push_cast
  ring

/-- Thousandths of a float are in the range of floats, so they are read correctly. -/
theorem isRounded_thousandths (h : Canonical m e) (hne : toPlaces 3 m e ≠ 0) :
    IsRounded (toPlaces 3 m e / 1000) (ofNumeral (toString (toPlaces 3 m e / 1000)).toList
      (fractionDigits (toPlaces 3 m e))).toFloat := by
  have hlow : (2 : ℚ) ^ (-1075 : Int) < toPlaces 3 m e / 1000 := by
    have hone : (1 : ℚ) ≤ toPlaces 3 m e := by exact_mod_cast Nat.pos_of_ne_zero hne
    calc (2 : ℚ) ^ (-1075 : Int) < 2 ^ (-10 : Int) := zpow_lt_zpow_right₀ one_lt_two (by norm_num)
      _ ≤ 1 / 1000 := by norm_num
      _ ≤ toPlaces 3 m e / 1000 := by gcongr
  have hhigh := thousandths_lt_overflow h
  rw [← value_thousandths] at hlow hhigh ⊢
  exact (isNearest_toFloat _).rounded hlow hhigh

end Decimal

namespace Number

open Binary (Canonical)
open Decimal (AreDigits numeral ofNumeral toPlaces fractionDigits)
open Float.Model (UnpackedFloat)

variable {x : Float} {negative : Bool} {m : Nat} {e : Int}

theorem append_trimFraction (whole ds : List Char) :
    whole ++ trimFraction ds = numeral whole (ds.rdropWhile (· == '0')) := by
  unfold trimFraction numeral List.rdropWhile
  split
  · next h => rw [if_pos h]
  · next h => rw [if_neg h]

theorem display_of_zero (hx : Binary.ofFloat x = .finite negative m e)
    (hzero : toPlaces 3 m e = 0) : display x = "0" := by
  simp only [display, hx, hzero, if_true]

theorem toList_display (hx : Binary.ofFloat x = .finite negative m e)
    (hpos : toPlaces 3 m e ≠ 0) :
    (display x).toList = (minus negative).toList ++
      numeral (toString (toPlaces 3 m e / 1000)).toList (fractionDigits (toPlaces 3 m e)) := by
  simp only [display, hx, if_neg hpos, String.toList_append, String.toList_ofList,
    List.append_assoc, append_trimFraction, fractionDigits]

/-! ## Reading -/

theorem ofFloat_signed (b : Bool) (h : Canonical m e) (hx : Binary.ofFloat x = .finite false m e) :
    Binary.ofFloat (signed b x) = .finite b m e := by
  cases b with
  | false => exact hx
  | true =>
    have hunpack := Binary.unpack_of_ofFloat hx h.pos
    have hneg : -x = .ofModel (.pack (.finite .negative m e h.pos)) := by
      show Float.ofModel (.pack x.toModel.unpack.neg) = _
      rw [hunpack]
      rfl
    rw [signed, if_pos rfl, hneg, Binary.ofFloat,
      Binary.unpack_ofModel_pack (u := .finite .negative m e h.pos) h]
    rfl

/-- The text of a finite number is read as a number with the same text. -/
theorem display_of_finite (hx : Binary.ofFloat x = .finite negative m e) :
    ∃ y, leading? (display x) = some y ∧ display y = display x := by
  by_cases hzero : toPlaces 3 m e = 0
  · rw [display_of_zero hx hzero]
    exact ⟨0, by decide, by decide⟩
  · have hcanonical : Canonical m e := by
      refine (Binary.zero_or_canonical hx).resolve_left ?_
      rintro ⟨rfl, rfl⟩
      exact hzero (by decide)
    have hnumeral := isNumeral_minus_append negative
      (Decimal.toString_ne_nil (toPlaces 3 m e / 1000)) (Decimal.areDigits_toString _)
      (Decimal.areDigits_fractionDigits (toPlaces 3 m e)) (Decimal.isNearest_toFloat _)
    obtain ⟨m', e', hcanonical', hrounds, hy⟩ := Decimal.isRounded_thousandths hcanonical hzero
    have hplaces := Decimal.toPlaces_of_rounds hcanonical hcanonical' hrounds
    have hsigned := ofFloat_signed negative hcanonical' hy
    have htext := toList_display hsigned (hplaces.trans_ne hzero)
    rw [hplaces, ← toList_display hx hzero] at htext
    have hsame := String.toList_inj.1 htext
    refine ⟨_, ?_, hsame⟩
    rw [leading?, toList_display hx hzero, hnumeral.read?_eq, Option.map_some]

/-- The text of a number is read as a number with the same text, or as the word of no number. -/
theorem display_leading? (x : Float) :
    leading? (display x) = none ∧ display x = "NaN" ∨
      ∃ y, leading? (display x) = some y ∧ display y = display x := by
  cases hx : Binary.ofFloat x with
  | nan =>
    have htext : display x = "NaN" := by simp only [display, toText, hx]
    rw [htext]
    exact Or.inl ⟨by decide, rfl⟩
  | infinite negative =>
    have htext : display x = minus negative ++ "Infinity" := by simp only [display, toText, hx]
    rw [htext]
    refine Or.inr ⟨signed negative infinity, ?_, ?_⟩
    · cases negative <;> decide
    · cases negative <;> decide
  | finite negative m e => exact Or.inr (display_of_finite hx)

/-! ## Characters -/

/-- The characters of numbers in replies and of numbers joined to text. -/
def isNumberChar (c : Char) : Bool :=
  c.isDigit || "-.NaNInfinity".toList.contains c

theorem isBlank_of_isNumberChar {c : Char} (h : isNumberChar c = true) :
    Text.isBlank c = false := by
  simp only [isNumberChar, Bool.or_eq_true, List.contains_iff_mem] at h
  rcases h with hdigit | hmem
  · obtain ⟨hlow, hhigh⟩ := Char.isDigit_iff_toNat.1 hdigit
    have hlow : 48 ≤ c.toNat := hlow
    have hhigh : c.toNat ≤ 57 := hhigh
    simp only [Text.isBlank, Bool.or_eq_false_iff, Bool.and_eq_false_iff, beq_eq_false_iff_ne,
      decide_eq_false_iff_not]
    omega
  · simpa using List.all_eq_true.1
      (by decide : "-.NaNInfinity".toList.all (!Text.isBlank ·) = true) c hmem

theorem isNumberChar_of_isIdentityChar {c : Char} (h : isIdentityChar c = true) :
    isNumberChar c = true := by
  simp only [isIdentityChar, isNumberChar, Bool.or_eq_true, List.contains_iff_mem] at h ⊢
  exact h.imp_right fun hmem => (by decide : "-.NaNinf".toList ⊆ "-.NaNInfinity".toList) hmem

theorem isNumberChar_of_mem_minus (negative : Bool) :
    ∀ c ∈ (minus negative).toList, isNumberChar c = true := by
  cases negative <;> exact List.all_eq_true.1 (by decide)

theorem isNumberChar_of_mem_toText (x : Float) :
    ∀ c ∈ (toText x).toList, isNumberChar c = true := by
  unfold toText
  split
  · exact List.all_eq_true.1 (by decide)
  · rw [String.toList_append, List.forall_mem_append]
    exact ⟨isNumberChar_of_mem_minus _, List.all_eq_true.1 (by decide)⟩
  · exact List.all_eq_true.1 (by decide)
  · next negative m e _ _ =>
    obtain ⟨whole, fraction, htext, -, hwhole, hfraction, -⟩ :=
      exists_numeral_shortestText negative m e
    rw [htext, List.forall_mem_append]
    exact ⟨isNumberChar_of_mem_minus _, fun c hc =>
      isNumberChar_of_isIdentityChar (isIdentityChar_of_mem_numeral hwhole hfraction c hc)⟩

theorem isNumberChar_of_mem_display (x : Float) :
    ∀ c ∈ (display x).toList, isNumberChar c = true := by
  cases hx : Binary.ofFloat x with
  | finite negative m e =>
    by_cases hzero : toPlaces 3 m e = 0
    · rw [display_of_zero hx hzero]
      exact List.all_eq_true.1 (by decide)
    · rw [toList_display hx hzero, List.forall_mem_append]
      exact ⟨isNumberChar_of_mem_minus _, fun c hc => isNumberChar_of_isIdentityChar
        (isIdentityChar_of_mem_numeral (Decimal.areDigits_toString _)
          (Decimal.areDigits_fractionDigits _) c hc)⟩
  | _ =>
    have htext : display x = toText x := by simp only [display, hx]
    rw [htext]
    exact isNumberChar_of_mem_toText x

theorem display_ne_empty (x : Float) : display x ≠ "" := by
  intro hempty
  rcases display_leading? x with ⟨-, hnan⟩ | ⟨y, hy, -⟩
  · rw [hempty] at hnan
    exact absurd hnan (by decide)
  · have hnone : leading? "" = none := by decide
    rw [hempty, hnone] at hy
    cases hy

end Number

end PatternSynth
