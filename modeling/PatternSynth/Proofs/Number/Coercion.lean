import PatternSynth.Proofs.Number.Display
import PatternSynth.Value

/-!
# Numbers that became text

The text of a number is a numeral without an exponent, and its value rounds to that number alone, so
text read as a number gives the number back (`coerce_toText`). What is lost is the sign of a zero.
Every operator but `+` reads its operands as numbers, and such text is then as good as the number.
-/

namespace PatternSynth

/-! ## Text without blanks -/

theorem Text.trim_of_not_isBlank {cs : List Char} (h : ∀ c ∈ cs, isBlank c = false) :
    trim cs = cs := by
  have hdrop {ds : List Char} (hds : ∀ c ∈ ds, isBlank c = false) : ds.dropWhile isBlank = ds := by
    refine List.dropWhile_eq_self_iff.2 fun hlength => ?_
    rw [hds _ (List.getElem_mem _)]
    exact Bool.false_ne_true
  rw [trim, hdrop h, hdrop fun c hc => h c (List.mem_reverse.1 hc), List.reverse_reverse]

namespace Number

open Binary (Canonical)
open Decimal (ofNumeral)

/-! ## The text of a number as a numeral -/

/-- A number without the sign of a zero. -/
def unsignedZero (x : Float) : Float :=
  if x == 0 then 0 else x

variable {x : Float} {negative : Bool} {m : Nat} {e : Int}

/-- The shortest text of a number is a numeral of that value. -/
theorem isNumeral_shortestText (hx : Binary.ofFloat x = .finite negative m e) (hm : m ≠ 0) :
    IsNumeral (shortestText negative m e).toList x := by
  obtain ⟨whole, fraction, htext, hne, hwhole, hfraction, -, hrounds⟩ :=
    exists_numeral_shortestText negative m e
  have hrounds := hrounds (Nat.pos_of_ne_zero hm)
  have hcanonical : Canonical m e :=
    (Binary.zero_or_canonical hx).resolve_left fun hzero => hm hzero.1
  -- The float nearest to the text has the magnitude of `x`, since no other one is rounded to.
  have hnearest := Decimal.isNearest_toFloat (ofNumeral whole fraction)
  obtain ⟨m', e', hcanonical', hrounds', hy⟩ := hnearest.rounded
    (hrounds.least_lt hcanonical.pos hcanonical.exponent_ge)
    (hrounds.lt_overflow hcanonical.lt hcanonical.exponent_le)
  obtain ⟨rfl, rfl⟩ := hrounds'.unique hrounds hcanonical' hcanonical
  have hsigned : signed negative (ofNumeral whole fraction).toFloat = x :=
    Binary.ofFloat_injective ((ofFloat_signed negative hcanonical hy).trans hx.symm)
  rw [htext, ← hsigned]
  exact isNumeral_minus_append negative hne hwhole hfraction hnearest

theorem trim_toText (x : Float) : Text.trim (toText x).toList = (toText x).toList :=
  Text.trim_of_not_isBlank fun c hc =>
    isBlank_of_isNumberChar (isNumberChar_of_mem_toText x c hc)

/-! ## Special values -/

/-- A float is no number, infinite, a zero or another finite number. -/
theorem special_or_finite (x : Float) :
    x = nan ∨ (∃ negative, x = signed negative infinity) ∨ (∃ negative, x = signed negative 0) ∨
      ∃ negative m e, Binary.ofFloat x = .finite negative m e ∧ m ≠ 0 := by
  cases hx : Binary.ofFloat x with
  | nan => exact .inl (Binary.ofFloat_injective hx)
  | infinite negative =>
    have hinfinite : Binary.ofFloat (signed negative infinity) = .infinite negative := by
      cases negative <;> decide
    exact .inr (.inl ⟨negative, Binary.ofFloat_injective (hx.trans hinfinite.symm)⟩)
  | finite negative m e =>
    rcases Binary.zero_or_canonical hx with ⟨rfl, rfl⟩ | hcanonical
    · have hzero : Binary.ofFloat (signed negative 0) = .finite negative 0 0 := by
        cases negative <;> decide
      exact .inr (.inr (.inl ⟨negative, Binary.ofFloat_injective (hx.trans hzero.symm)⟩))
    · exact .inr (.inr (.inr ⟨negative, m, e, rfl, hcanonical.pos.ne'⟩))

theorem unsignedZero_of_finite (hx : Binary.ofFloat x = .finite negative m e) (hm : m ≠ 0) :
    unsignedZero x = x := by
  refine if_neg (Bool.eq_false_iff.1 ?_)
  change x.toModel.unpack.beq (.zero .positive) = false
  unfold Binary.ofFloat at hx
  split at hx
  · cases hx
  · cases hx
  · cases hx
    exact absurd rfl hm
  · next s _ _ _ hunpack =>
    rw [hunpack]
    cases s <;> rfl

/-- Only the negative zero loses its sign. -/
theorem unsignedZero_eq_self (hx : x ≠ -0) : unsignedZero x = x := by
  obtain rfl | ⟨negative, rfl⟩ | ⟨negative, rfl⟩ | ⟨negative, m, e, hfinite, hm⟩ :=
    special_or_finite x
  · decide
  · cases negative <;> decide
  · cases negative with
    | false => decide
    | true => exact absurd rfl hx
  · exact unsignedZero_of_finite hfinite hm

/-- Text read as a number undoes the text of a number, up to the sign of a zero. -/
theorem coerce_toText (x : Float) : coerce (toText x) = unsignedZero x := by
  obtain rfl | ⟨negative, rfl⟩ | ⟨negative, rfl⟩ | ⟨negative, m, e, hx, hm⟩ := special_or_finite x
  · decide
  · cases negative <;> decide
  · cases negative <;> decide
  · have htext : toText x = shortestText negative m e := by simp [toText, hx]
    have hnumeral : IsNumeral (Text.trim (toText x).toList) x := by
      rw [trim_toText, htext]
      exact isNumeral_shortestText hx hm
    rw [unsignedZero_of_finite hx hm, coerce_of_isNumeral hnumeral]

end Number

/-! ## Text as an operand -/

namespace Operator

open Number (toText unsignedZero coerce)

/-- Every operator but `+` reads its operands as numbers. -/
theorem apply_of_ne_add {op : Operator} (hop : op ≠ add) (lhs : Value) (rhs : Option Value) :
    op.apply lhs rhs =
      .number (op.onNumbers lhs.toNumber ((rhs.map Value.toNumber).getD Number.nan)) := by
  cases op with
  | add => exact absurd rfl hop
  | _ => rfl

/-- The text that `+` makes of a number and the empty text. -/
theorem apply_add_empty (x : Float) :
    add.apply (.number x) (some (.text "")) = .text (toText x) ∧
      add.apply (.text "") (some (.number x)) = .text (toText x) := by
  constructor
  · exact congrArg Value.text String.append_empty
  · exact congrArg Value.text String.empty_append

/-- A number that became text is read as the same number, bit for bit, except that a negative zero
is read as zero. So text that `+` makes of a number is as good as the number for every other
operator, on either side. -/
theorem text_keeps_number (x : Float) :
    (x.isNaN = true → (coerce (toText x)).isNaN = true) ∧
      (x.isNaN = false → x ≠ -0 → coerce (toText x) = x) ∧
      coerce (toText (-0)) = 0 ∧
      ∀ v, v = add.apply (.number x) (some (.text "")) ∨
          v = add.apply (.text "") (some (.number x)) →
        ∀ op, op ≠ add →
          (∀ rhs, op.apply v rhs = op.apply (.number (unsignedZero x)) rhs) ∧
          ∀ lhs, op.apply lhs (some v) = op.apply lhs (some (.number (unsignedZero x))) := by
  refine ⟨fun hnan => ?_, fun _ hx => ?_, ?_, fun v hv op hop => ?_⟩
  · have hne : x ≠ -0 := by
      rintro rfl
      exact absurd hnan (by decide)
    rwa [Number.coerce_toText, Number.unsignedZero_eq_self hne]
  · rw [Number.coerce_toText, Number.unsignedZero_eq_self hx]
  · decide
  · have htext : v = .text (toText x) := by
      obtain ⟨hright, hleft⟩ := apply_add_empty x
      rcases hv with rfl | rfl
      · exact hright
      · exact hleft
    have hnumber : v.toNumber = unsignedZero x := by
      rw [htext]
      exact Number.coerce_toText x
    refine ⟨fun rhs => ?_, fun lhs => ?_⟩
    · rw [apply_of_ne_add hop, apply_of_ne_add hop, hnumber]
      rfl
    · rw [apply_of_ne_add hop, apply_of_ne_add hop, Option.map_some, hnumber]
      rfl

end Operator

end PatternSynth
