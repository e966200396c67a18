import PatternSynth.Proofs.Decimal.Shortest
import PatternSynth.Proofs.Text.Run

/-!
# Numerals: digits with a fraction

A numeral has whole digits and, after a point, the digits of a fraction if there are any. It
determines both rows of digits (`numeral_inj`). A decimal without its exponent is such a numeral
(`exists_numeral_positional`), so its text determines its value.
-/

namespace PatternSynth.Decimal

/-- Whole digits, and a point with the digits of a fraction if there are any. -/
def numeral (whole fraction : List Char) : List Char :=
  whole ++ if fraction = [] then [] else '.' :: fraction

/-- The number that a numeral stands for. -/
def ofNumeral (whole fraction : List Char) : Decimal :=
  ⟨ofDigits (whole ++ fraction), -fraction.length⟩

/-- A row of digits. -/
def AreDigits (ds : List Char) : Prop :=
  ∀ c ∈ ds, c.isDigit = true

variable {whole whole' fraction fraction' : List Char}

/-! ## The digits of a numeral -/

theorem startsOutside_fraction (fraction : List Char) :
    Text.StartsOutside Char.isDigit (if fraction = [] then [] else '.' :: fraction) := by
  intro c hc
  split at hc
  · cases hc
  · cases hc
    rfl

theorem numeral_inj (hwhole : AreDigits whole) (hwhole' : AreDigits whole')
    (h : numeral whole fraction = numeral whole' fraction') :
    whole = whole' ∧ fraction = fraction' := by
  obtain ⟨hfirst, hrest⟩ := Text.run_append_inj hwhole hwhole' (startsOutside_fraction fraction)
    (startsOutside_fraction fraction') h
  refine ⟨hfirst, ?_⟩
  split at hrest <;> split at hrest
  · simp_all
  · cases hrest
  · cases hrest
  · exact List.tail_eq_of_cons_eq hrest

/-! ## Decimals without their exponent -/

theorem ofDigits_append (ds es : List Char) :
    ofDigits (ds ++ es) = 10 ^ es.length * ofDigits ds + ofDigits es := by
  unfold ofDigits
  rw [List.foldl_append]
  exact Nat.ofDigitChars_eq_ofDigitChars_zero

theorem ofDigits_zeros (n : Nat) : ofDigits (List.replicate n '0') = 0 := by
  have hzeros : ofDigits (List.replicate n '0') = 10 ^ n * 0 := Nat.ofDigitChars_replicate_zero
  rw [hzeros, Nat.mul_zero]

theorem ofDigits_toString (n : Nat) : ofDigits (toString n).toList = n := by
  rw [Nat.toString_eq_repr, Nat.toList_repr]
  exact Nat.ofDigitChars_ten_toDigits

theorem areDigits_toString (n : Nat) : AreDigits (toString n).toList := by
  intro c hc
  rw [Nat.toString_eq_repr, Nat.toList_repr] at hc
  exact Nat.isDigit_of_mem_toDigits (by decide) (by decide) hc

theorem toString_ne_nil (n : Nat) : (toString n).toList ≠ [] := by
  rw [Nat.toString_eq_repr, Nat.toList_repr]
  exact Nat.toDigits_ne_nil

theorem areDigits_zeros (n : Nat) : AreDigits (List.replicate n '0') := by
  intro c hc
  rw [List.eq_of_mem_replicate hc]
  rfl

theorem AreDigits.append {ds es : List Char} (hds : AreDigits ds) (hes : AreDigits es) :
    AreDigits (ds ++ es) :=
  List.forall_mem_append.2 ⟨hds, hes⟩

section Positional

variable (d : Decimal)

/-- The digits of the coefficient. -/
def digits : List Char :=
  (toString d.coefficient).toList

/-- The number of digits after the point. -/
def places : Nat :=
  (-d.exponent).toNat

theorem positional_of_nonneg (h : 0 ≤ d.exponent) :
    d.positional.toList = numeral (d.digits ++ List.replicate d.exponent.toNat '0') [] := by
  simp [positional, h, zeros, numeral, digits]

theorem positional_of_places_lt (h : ¬ 0 ≤ d.exponent) (hplaces : d.places < d.digits.length) :
    d.positional.toList = numeral (d.digits.take (d.digits.length - d.places))
      (d.digits.drop (d.digits.length - d.places)) := by
  have hlength : (toString d.coefficient).length = d.digits.length := String.length_toList.symm
  have hne : d.digits.drop (d.digits.length - d.places) ≠ [] := by
    have hpos : 0 < d.places := by
      unfold places
      omega
    simp only [ne_eq, List.drop_eq_nil_iff]
    omega
  have htest : (-d.exponent).toNat < d.digits.length := hplaces
  simp only [positional, if_neg h, hlength, if_pos htest, String.Slice.toString_eq,
    String.toList_append, String.toList_copy_take, String.toList_copy_drop, numeral, if_neg hne]
  simp [places, digits]

theorem positional_of_le_places (h : ¬ 0 ≤ d.exponent) (hplaces : d.digits.length ≤ d.places) :
    d.positional.toList =
      numeral ['0'] (List.replicate (d.places - d.digits.length) '0' ++ d.digits) := by
  have hlength : (toString d.coefficient).length = d.digits.length := String.length_toList.symm
  have htest : ¬ (-d.exponent).toNat < d.digits.length := Nat.not_lt.2 hplaces
  have hne : List.replicate (d.places - d.digits.length) '0' ++ d.digits ≠ [] := by
    simp [digits]
  simp only [positional, if_neg h, hlength, if_neg htest, zeros, String.toList_append,
    String.toList_ofList, numeral, if_neg hne]
  rfl

end Positional

/-- A decimal without its exponent is a numeral with the same value. -/
theorem exists_numeral_positional (d : Decimal) :
    ∃ whole fraction, d.positional.toList = numeral whole fraction ∧ whole ≠ [] ∧
      AreDigits whole ∧ AreDigits fraction ∧ (ofNumeral whole fraction).value = d.value := by
  have hdigits : AreDigits d.digits := areDigits_toString d.coefficient
  have hvalue : ofDigits d.digits = d.coefficient := ofDigits_toString d.coefficient
  have hne : d.digits ≠ [] := toString_ne_nil d.coefficient
  by_cases hexponent : 0 ≤ d.exponent
  · refine ⟨_, _, d.positional_of_nonneg hexponent, ?_, ?_, ?_, ?_⟩
    · simp [hne]
    · exact hdigits.append (areDigits_zeros _)
    · exact List.forall_mem_nil _
    · have hpow : (10 : ℚ) ^ d.exponent = 10 ^ d.exponent.toNat := by
        rw [← zpow_natCast, Int.toNat_of_nonneg hexponent]
      simp only [ofNumeral, value, List.append_nil, ofDigits_append, ofDigits_zeros, hvalue,
        List.length_replicate, List.length_nil, hpow]
      push_cast
      simp [mul_comm]
  · have hplaces : (-(d.places : Int)) = d.exponent := by
      unfold places
      omega
    by_cases hlt : d.places < d.digits.length
    · have hlength : d.digits.length - (d.digits.length - d.places) = d.places := by omega
      refine ⟨_, _, d.positional_of_places_lt hexponent hlt, ?_, ?_, ?_, ?_⟩
      · simp only [ne_eq, List.take_eq_nil_iff, not_or]
        exact ⟨by omega, hne⟩
      · exact fun c hc => hdigits c (List.mem_of_mem_take hc)
      · exact fun c hc => hdigits c (List.mem_of_mem_drop hc)
      · simp only [ofNumeral, value, List.take_append_drop, hvalue, List.length_drop, hlength,
          hplaces]
    · have hlength : d.places - d.digits.length + d.digits.length = d.places := by omega
      refine ⟨_, _, d.positional_of_le_places hexponent (by omega), by simp, ?_, ?_, ?_⟩
      · exact areDigits_zeros 1
      · exact (areDigits_zeros _).append hdigits
      · have hzero : ofDigits ['0'] = 0 := rfl
        simp only [ofNumeral, value, ofDigits_append, ofDigits_zeros, hzero, hvalue,
          List.length_append, List.length_replicate, hlength, hplaces, Nat.mul_zero, Nat.zero_add]

end PatternSynth.Decimal
