import PatternSynth.Number
import PatternSynth.Proofs.Decimal.Numeral
import PatternSynth.Proofs.Decimal.Reading
import PatternSynth.Proofs.Token.Grammar

/-!
# The grammar of numerals

`IsNumeral` says which texts are numerals and what they are worth, without a rule for how to find
them: an optional sign, then `Infinity` or digits with a point and an exponent. Reading goes as far
as it can in each part and steps back where a part is not complete. What it takes is a numeral
(`exists_isNumeral_of_read?`), and it takes no less than any numeral in front
(`exists_read?_append`). So it finds the longest one, and the value of that.
-/

namespace PatternSynth.Number

open Binary (IsNearest)
open Decimal (AreDigits numeral ofDigits ofNumeral)

/-! ## Numerals -/

/-- A sign or nothing, and whether it is a minus. -/
inductive IsSign : List Char → Bool → Prop where
  | none : IsSign [] false
  | plus : IsSign ['+'] false
  | minus : IsSign ['-'] true

/-- Digits with a point among them or not, and the number they stand for. A point needs a digit on
one side at least. -/
inductive IsMantissa : List Char → Decimal → Prop where
  | whole {ds : List Char} (hds : AreDigits ds) (hne : ds ≠ []) : IsMantissa ds (ofNumeral ds [])
  | point {whole fraction : List Char} (hwhole : AreDigits whole) (hfraction : AreDigits fraction)
    (hne : whole ≠ [] ∨ fraction ≠ []) :
    IsMantissa (whole ++ '.' :: fraction) (ofNumeral whole fraction)

/-- An exponent or nothing, and the power of ten it stands for. -/
inductive IsExponent : List Char → Int → Prop where
  | none : IsExponent [] 0
  | mark {c : Char} {sign ds : List Char} {negative : Bool} (hc : c = 'e' ∨ c = 'E')
    (hsign : IsSign sign negative) (hds : AreDigits ds) (hne : ds ≠ []) :
    IsExponent (c :: (sign ++ ds)) (if negative then -(ofDigits ds : Int) else ofDigits ds)

/-- A numeral and its value: infinity, or the float nearest to the number, with the sign. Every
number has one nearest float (`Decimal.isNearest_toFloat`, `IsNearest.unique`). -/
inductive IsNumeral : List Char → Float → Prop where
  | infinity {sign : List Char} {negative : Bool} (hsign : IsSign sign negative) :
    IsNumeral (sign ++ "Infinity".toList) (signed negative infinity)
  | decimal {sign mantissa exponent : List Char} {negative : Bool} {d : Decimal} {k : Int}
    {x : Float} (hsign : IsSign sign negative) (hmantissa : IsMantissa mantissa d)
    (hexponent : IsExponent exponent k) (hx : IsNearest (d.value * 10 ^ k) x) :
    IsNumeral (sign ++ (mantissa ++ exponent)) (signed negative x)

variable {cs rest sign mantissa exponent w : List Char} {negative : Bool} {d : Decimal} {k : Int}
  {x : Float}

/-! ## Signs and digits -/

theorem exists_isSign (cs : List Char) :
    ∃ sign, IsSign sign (readSign cs).1 ∧ cs = sign ++ (readSign cs).2 := by
  unfold readSign
  split
  · exact ⟨['-'], .minus, rfl⟩
  · exact ⟨['+'], .plus, rfl⟩
  · exact ⟨[], .none, rfl⟩

/-- A sign is read if no other one follows it. -/
theorem readSign_append (hsign : IsSign sign negative)
    (hrest : ∀ c ∈ rest.head?, c ≠ '-' ∧ c ≠ '+') : readSign (sign ++ rest) = (negative, rest) := by
  cases hsign with
  | none =>
    rw [List.nil_append]
    unfold readSign
    split
    · exact absurd rfl (hrest '-' rfl).1
    · exact absurd rfl (hrest '+' rfl).2
    · rfl
  | plus => rfl
  | minus => rfl

theorem areDigits_readDigits (cs : List Char) : AreDigits (readDigits cs).1 :=
  fun _ hc => List.mem_takeWhile_imp hc

theorem append_readDigits (cs : List Char) : (readDigits cs).1 ++ (readDigits cs).2 = cs :=
  List.takeWhile_append_dropWhile

theorem length_readDigits_le (cs : List Char) : (readDigits cs).2.length ≤ cs.length :=
  (List.dropWhile_suffix _).length_le

/-- Digits in front are read, together with those that follow them. -/
theorem readDigits_append {ds : List Char} (hds : AreDigits ds) (rest : List Char) :
    readDigits (ds ++ rest) = (ds ++ (readDigits rest).1, (readDigits rest).2) := by
  rw [readDigits, List.takeWhile_append_of_pos hds, List.dropWhile_append_of_pos hds]
  rfl

theorem readDigits_cons {c : Char} (hc : c.isDigit = false) (rest : List Char) :
    readDigits (c :: rest) = ([], c :: rest) := by
  simp [readDigits, hc]

/-! ## Exponents -/

theorem readExponent_cons (c : Char) (after : List Char) :
    readExponent (c :: after) =
      let ds := readDigits (readSign after).2
      if c == 'e' || c == 'E' then
        if ds.1.isEmpty then (0, c :: after)
        else (if (readSign after).1 then -(ofDigits ds.1 : Int) else ofDigits ds.1, ds.2)
      else (0, c :: after) := rfl

theorem exists_isExponent (cs : List Char) :
    ∃ exponent, IsExponent exponent (readExponent cs).1 ∧ cs = exponent ++ (readExponent cs).2 := by
  cases cs with
  | nil => exact ⟨[], .none, rfl⟩
  | cons c after =>
    rw [readExponent_cons]
    simp only
    split
    · next hmark =>
      split
      · exact ⟨[], .none, rfl⟩
      · next hdigits =>
        obtain ⟨sign, hsign, hafter⟩ := exists_isSign after
        refine ⟨_, .mark (by simpa using hmark) hsign (areDigits_readDigits _) ?_, ?_⟩
        · simpa using hdigits
        · rw [List.cons_append, List.append_assoc, append_readDigits, ← hafter]
    · exact ⟨[], .none, rfl⟩

theorem length_readExponent_le (cs : List Char) : (readExponent cs).2.length ≤ cs.length := by
  obtain ⟨exponent, -, hcs⟩ := exists_isExponent cs
  have hlength := congrArg List.length hcs
  rw [List.length_append] at hlength
  omega

/-- An exponent in front is read, together with the digits that follow it. -/
theorem readExponent_mark {c : Char} {ds : List Char} (hc : c = 'e' ∨ c = 'E')
    (hsign : IsSign sign negative) (hds : AreDigits ds) (hne : ds ≠ []) (rest : List Char) :
    readExponent (c :: (sign ++ ds) ++ rest) =
      (if negative then -(ofDigits (ds ++ (readDigits rest).1) : Int)
        else ofDigits (ds ++ (readDigits rest).1), (readDigits rest).2) := by
  have hhead : ∀ c ∈ (ds ++ rest).head?, c ≠ '-' ∧ c ≠ '+' := by
    intro c hmem
    rw [List.head?_append_of_ne_nil _ hne] at hmem
    have hdigit := hds c (List.mem_of_mem_head? hmem)
    constructor <;> rintro rfl <;> cases hdigit
  rw [List.cons_append, List.append_assoc, readExponent_cons, readSign_append hsign hhead,
    readDigits_append hds]
  have hmark : (c == 'e' || c == 'E') = true := by simpa using hc
  simp [hmark, hne]

theorem IsExponent.read_eq (h : IsExponent exponent k) : readExponent exponent = (k, []) := by
  cases h with
  | none => rfl
  | mark hc hsign hds hne =>
    have hread := readExponent_mark hc hsign hds hne []
    simpa [readDigits] using hread

/-- What an exponent mark ends: digits and the place of a point. -/
theorem IsExponent.nil_or_ends (h : IsExponent exponent k) (rest : List Char) :
    exponent = [] ∨ readDigits (exponent ++ rest) = ([], exponent ++ rest) ∧
      (∀ whole, readFraction whole (exponent ++ rest) = ([], exponent ++ rest)) ∧
      (readExponent (exponent ++ rest)).2.length ≤ rest.length := by
  cases h with
  | none => exact .inl rfl
  | @mark c sign ds negative hc hsign hds hne =>
    refine .inr ⟨?_, fun whole => ?_, ?_⟩
    · rcases hc with rfl | rfl <;> exact readDigits_cons rfl _
    · rcases hc with rfl | rfl <;> rfl
    · rw [readExponent_mark hc hsign hds hne]
      exact length_readDigits_le rest

theorem IsExponent.ends (h : IsExponent exponent k) :
    readDigits exponent = ([], exponent) ∧
      ∀ whole, readFraction whole exponent = ([], exponent) := by
  rcases h.nil_or_ends [] with rfl | ⟨hdigits, hfraction, -⟩
  · exact ⟨rfl, fun _ => rfl⟩
  · rw [List.append_nil] at hdigits hfraction
    exact ⟨hdigits, hfraction⟩

/-! ## Mantissas -/

theorem length_readFraction_le (whole cs : List Char) :
    (readFraction whole cs).2.length ≤ cs.length := by
  unfold readFraction
  split
  · next after =>
    simp only
    split
    · exact le_rfl
    · exact (length_readDigits_le after).trans (Nat.le_succ _)
  · exact le_rfl

theorem exists_isMantissa {whole : List Char} (hwhole : AreDigits whole)
    (hne : whole ≠ [] ∨ (readFraction whole cs).1 ≠ []) :
    ∃ mantissa, IsMantissa mantissa (ofNumeral whole (readFraction whole cs).1) ∧
      whole ++ cs = mantissa ++ (readFraction whole cs).2 := by
  unfold readFraction at hne ⊢
  split at hne
  · next after =>
    simp only at hne ⊢
    split
    · next hempty =>
      rw [if_pos hempty] at hne
      simp only [Bool.and_eq_true, List.isEmpty_iff] at hempty
      exact absurd hempty.1 (hne.resolve_right (absurd rfl))
    · next hdigits =>
      rw [if_neg hdigits] at hne
      refine ⟨_, .point hwhole (areDigits_readDigits after) hne, ?_⟩
      rw [List.append_assoc, List.cons_append, append_readDigits]
  · exact ⟨whole, .whole hwhole (hne.resolve_right (absurd rfl)), rfl⟩

/-- Digits behind a point are read, together with those that follow them. -/
theorem readFraction_point {whole fraction : List Char} (hfraction : AreDigits fraction)
    (hne : whole ≠ [] ∨ fraction ≠ []) (rest : List Char) :
    readFraction whole ('.' :: (fraction ++ rest)) =
      (fraction ++ (readDigits rest).1, (readDigits rest).2) := by
  simp only [readFraction, readDigits_append hfraction]
  refine if_neg ?_
  simp only [Bool.and_eq_true, List.isEmpty_iff, List.append_eq_nil_iff]
  rintro ⟨hwhole, hnil, -⟩
  rcases hne with hne | hne
  · exact hne hwhole
  · exact hne hnil

/-! ## Magnitudes -/

theorem readMagnitude_eq (cs : List Char) :
    readMagnitude cs =
      let whole := readDigits cs
      let fraction := readFraction whole.1 whole.2
      let exponent := readExponent fraction.2
      if whole.1.isEmpty && fraction.1.isEmpty then none
      else
        let decimal : Decimal :=
          ⟨ofDigits (whole.1 ++ fraction.1), exponent.1 - fraction.1.length⟩
        some (decimal.toFloat, exponent.2) := rfl

/-- Digits with a point and an exponent, as a decimal. -/
theorem value_ofNumeral_mul (whole fraction : List Char) (k : Int) :
    (ofNumeral whole fraction).value * 10 ^ k =
      (⟨ofDigits (whole ++ fraction), k - fraction.length⟩ : Decimal).value := by
  simp only [ofNumeral, Decimal.value]
  rw [mul_assoc, ← zpow_add₀ (by norm_num), neg_add_eq_sub]

theorem exists_of_readMagnitude (h : readMagnitude cs = some (x, rest)) :
    ∃ mantissa d exponent k, IsMantissa mantissa d ∧ IsExponent exponent k ∧
      cs = mantissa ++ (exponent ++ rest) ∧ IsNearest (d.value * 10 ^ k) x := by
  rw [readMagnitude_eq] at h
  simp only at h
  split at h
  · cases h
  · next hdigits =>
    obtain ⟨rfl, rfl⟩ := Prod.mk.inj (Option.some.inj h)
    have hne : (readDigits cs).1 ≠ [] ∨
        (readFraction (readDigits cs).1 (readDigits cs).2).1 ≠ [] := by
      simpa [or_iff_not_imp_left] using hdigits
    obtain ⟨mantissa, hmantissa, hsplit⟩ := exists_isMantissa (areDigits_readDigits cs) hne
    obtain ⟨exponent, hexponent, hafter⟩ :=
      exists_isExponent (readFraction (readDigits cs).1 (readDigits cs).2).2
    refine ⟨mantissa, _, exponent, _, hmantissa, hexponent, ?_, ?_⟩
    · rw [← hafter, ← hsplit, append_readDigits]
    · rw [value_ofNumeral_mul]
      exact Decimal.isNearest_toFloat _

/-- Digits in front, with a point and an exponent, are read to their end at least. -/
theorem exists_readMagnitude_append (hmantissa : IsMantissa mantissa d)
    (hexponent : IsExponent exponent k) (rest : List Char) :
    ∃ x left, readMagnitude (mantissa ++ (exponent ++ rest)) = some (x, left) ∧
      left.length ≤ rest.length := by
  rw [readMagnitude_eq]
  cases hmantissa with
  | @whole ds hds hne =>
    rw [readDigits_append hds]
    refine ⟨_, _, if_neg (by simp [hne]), ?_⟩
    rcases hexponent.nil_or_ends rest with rfl | ⟨hdigits, hfraction, hlength⟩
    · calc _ ≤ _ := length_readExponent_le _
        _ ≤ _ := length_readFraction_le _ _
        _ ≤ _ := length_readDigits_le rest
    · rwa [hdigits, hfraction]
  | @point whole fraction hwhole hfraction hne =>
    rw [List.append_assoc, List.cons_append, readDigits_append hwhole, readDigits_cons rfl]
    simp only [List.append_nil, readFraction_point hfraction hne]
    have hempty : ¬ (whole.isEmpty && (fraction ++ (readDigits (exponent ++ rest)).1).isEmpty) =
        true := by
      simp only [Bool.and_eq_true, List.isEmpty_iff, List.append_eq_nil_iff]
      rintro ⟨hwhole, hnil, -⟩
      exact hne.elim (absurd hwhole) (absurd hnil)
    refine ⟨_, _, if_neg hempty, ?_⟩
    rcases hexponent.nil_or_ends rest with rfl | ⟨hdigits, -, hlength⟩
    · exact (length_readExponent_le _).trans (length_readDigits_le rest)
    · rwa [hdigits]

/-- Digits with a point and an exponent are read from end to end. -/
theorem readMagnitude_append (hmantissa : IsMantissa mantissa d)
    (hexponent : IsExponent exponent k) (hx : IsNearest (d.value * 10 ^ k) x) :
    readMagnitude (mantissa ++ exponent) = some (x, []) := by
  obtain ⟨hdigits, hends⟩ := hexponent.ends
  rw [readMagnitude_eq]
  cases hmantissa with
  | @whole ds hds hne =>
    rw [value_ofNumeral_mul] at hx
    obtain rfl := hx.unique (Decimal.isNearest_toFloat _)
    simp only [readDigits_append hds, hdigits, hends, hexponent.read_eq, List.append_nil]
    exact if_neg (by simp [hne])
  | @point whole fraction hwhole hfraction hne =>
    rw [value_ofNumeral_mul] at hx
    obtain rfl := hx.unique (Decimal.isNearest_toFloat _)
    rw [List.append_assoc, List.cons_append, readDigits_append hwhole, readDigits_cons rfl]
    simp only [List.append_nil, readFraction_point hfraction hne, hdigits, hexponent.read_eq]
    refine if_neg ?_
    simp only [Bool.and_eq_true, List.isEmpty_iff, not_and_or]
    exact hne

/-! ## Reading a numeral -/

theorem IsMantissa.exists_head (h : IsMantissa mantissa d) :
    ∃ c ds, mantissa = c :: ds ∧ (c.isDigit = true ∨ c = '.') := by
  have hdigits {ds : List Char} (hds : AreDigits ds) (hne : ds ≠ []) :
      ∃ c ds', ds = c :: ds' ∧ c.isDigit = true := by
    obtain ⟨c, ds', rfl⟩ := List.exists_cons_of_ne_nil hne
    exact ⟨c, ds', rfl, hds c List.mem_cons_self⟩
  cases h with
  | whole hds hne =>
    obtain ⟨c, ds, rfl, hc⟩ := hdigits hds hne
    exact ⟨c, ds, rfl, .inl hc⟩
  | @point whole fraction hwhole _ _ =>
    by_cases hne : whole = []
    · exact ⟨'.', fraction, by rw [hne]; rfl, .inr rfl⟩
    · obtain ⟨c, ds, rfl, hc⟩ := hdigits hwhole hne
      exact ⟨c, _, rfl, .inl hc⟩

theorem read?_infinity (hsign : IsSign sign negative) (rest : List Char) :
    read? (sign ++ ("Infinity".toList ++ rest)) = some (signed negative infinity, rest) := by
  have hhead : ∀ c ∈ ("Infinity".toList ++ rest).head?, c ≠ '-' ∧ c ≠ '+' := by
    intro c hc
    obtain rfl : 'I' = c := Option.some.inj hc
    decide
  simp only [read?, readSign_append hsign hhead]
  refine (if_pos ?_).trans ?_
  · exact List.isPrefixOf_iff_prefix.2 (List.prefix_append _ _)
  · rfl

/-- Behind a sign, digits are read as a magnitude. -/
theorem read?_mantissa (hsign : IsSign sign negative) (hmantissa : IsMantissa mantissa d)
    (rest : List Char) :
    read? (sign ++ (mantissa ++ rest)) =
      (readMagnitude (mantissa ++ rest)).map fun (x, left) => (signed negative x, left) := by
  obtain ⟨c, ds, rfl, hc⟩ := hmantissa.exists_head
  have hhead : ∀ c' ∈ (c :: ds ++ rest).head?, c' ≠ '-' ∧ c' ≠ '+' := by
    intro c' hc'
    obtain rfl : c = c' := Option.some.inj hc'
    rcases hc with hc | rfl
    · constructor <;> rintro rfl <;> cases hc
    · decide
  simp only [read?, readSign_append hsign hhead]
  refine if_neg fun hword => ?_
  obtain rfl : 'I' = c := (List.cons_prefix_cons.1 (List.isPrefixOf_iff_prefix.1 hword)).1
  rcases hc with hc | hc <;> cases hc

/-- What is read is a numeral. -/
theorem exists_isNumeral_of_read? (h : read? cs = some (x, rest)) :
    ∃ w, cs = w ++ rest ∧ IsNumeral w x := by
  obtain ⟨sign, hsign, hcs⟩ := exists_isSign cs
  simp only [read?] at h
  split at h
  · next hword =>
    obtain ⟨after, hafter⟩ := List.isPrefixOf_iff_prefix.1 hword
    obtain ⟨rfl, rfl⟩ := Prod.mk.inj (Option.some.inj h)
    refine ⟨_, ?_, .infinity hsign⟩
    rw [← hafter] at hcs ⊢
    rw [hcs, List.append_assoc]
    rfl
  · obtain ⟨⟨y, left⟩, hmagnitude, heq⟩ := Option.map_eq_some_iff.1 h
    obtain ⟨rfl, rfl⟩ := Prod.mk.inj heq
    obtain ⟨mantissa, d, exponent, k, hmantissa, hexponent, hsplit, hy⟩ :=
      exists_of_readMagnitude hmagnitude
    refine ⟨_, ?_, .decimal hsign hmantissa hexponent hy⟩
    rw [List.append_assoc, List.append_assoc, ← hsplit]
    exact hcs

/-- A numeral in front is read to its end at least. -/
theorem exists_read?_append (h : IsNumeral w x) (rest : List Char) :
    ∃ y left, read? (w ++ rest) = some (y, left) ∧ left.length ≤ rest.length := by
  cases h with
  | infinity hsign =>
    rw [List.append_assoc]
    exact ⟨_, rest, read?_infinity hsign rest, le_rfl⟩
  | decimal hsign hmantissa hexponent _ =>
    obtain ⟨y, left, hread, hlength⟩ := exists_readMagnitude_append hmantissa hexponent rest
    rw [List.append_assoc, List.append_assoc, read?_mantissa hsign hmantissa, hread]
    exact ⟨_, left, rfl, hlength⟩

/-- A numeral is read from end to end. -/
theorem IsNumeral.read?_eq (h : IsNumeral w x) : read? w = some (x, []) := by
  cases h with
  | infinity hsign =>
    have hread := read?_infinity hsign []
    rwa [List.append_nil] at hread
  | decimal hsign hmantissa hexponent hx =>
    rw [read?_mantissa hsign hmantissa, readMagnitude_append hmantissa hexponent hx]
    rfl

theorem isSign_minus (negative : Bool) : IsSign (minus negative).toList negative := by
  cases negative with
  | false => exact .none
  | true => exact .minus

theorem isMantissa_numeral {whole fraction : List Char} (hne : whole ≠ [])
    (hwhole : AreDigits whole) (hfraction : AreDigits fraction) :
    IsMantissa (numeral whole fraction) (ofNumeral whole fraction) := by
  unfold numeral
  split
  · next hnil =>
    rw [hnil, List.append_nil]
    exact .whole hwhole hne
  · exact .point hwhole hfraction (.inl hne)

/-- The numerals that are written: a minus or nothing, digits and a fraction or nothing. -/
theorem isNumeral_minus_append (negative : Bool) {whole fraction : List Char} (hne : whole ≠ [])
    (hwhole : AreDigits whole) (hfraction : AreDigits fraction)
    (hx : IsNearest (ofNumeral whole fraction).value x) :
    IsNumeral ((minus negative).toList ++ numeral whole fraction) (signed negative x) := by
  have hdecimal := IsNumeral.decimal (x := x) (isSign_minus negative)
    (isMantissa_numeral hne hwhole hfraction) .none
  rw [zpow_zero, mul_one, List.append_nil] at hdecimal
  exact hdecimal hx

/-! ## The longest numeral -/

/-- A numeral in front of a text such that no other one there has more bytes. -/
structure IsLongest (cs w : List Char) (x : Float) : Prop where
  front : w <+: cs
  isNumeral : IsNumeral w x
  longest : ∀ w' y, w' <+: cs → IsNumeral w' y → Token.byteLength w' ≤ Token.byteLength w

theorem read?_eq_none_iff : read? cs = none ↔ ∀ w x, w <+: cs → ¬ IsNumeral w x := by
  constructor
  · rintro hnone w x ⟨rest, rfl⟩ hw
    obtain ⟨y, left, hread, -⟩ := exists_read?_append hw rest
    rw [hnone] at hread
    cases hread
  · intro h
    cases hread : read? cs with
    | none => rfl
    | some result =>
      obtain ⟨x, rest⟩ := result
      obtain ⟨w, hcs, hw⟩ := exists_isNumeral_of_read? hread
      exact absurd hw (h w _ ⟨_, hcs.symm⟩)

/-- No numeral in front of a text is longer than the one that is read. -/
theorem front_of_read? {w' : List Char} {y : Float} (hread : read? (w ++ rest) = some (x, rest))
    (hfront : w' <+: w ++ rest) (hw' : IsNumeral w' y) : w' <+: w := by
  obtain ⟨rest', hsplit⟩ := hfront
  obtain ⟨z, left, hread', hlength⟩ := exists_read?_append hw' rest'
  rw [hsplit, hread] at hread'
  obtain ⟨-, rfl⟩ := Prod.mk.inj (Option.some.inj hread')
  have htotal := congrArg List.length hsplit
  rw [List.length_append, List.length_append] at htotal
  exact List.prefix_of_prefix_length_le ⟨rest', hsplit⟩ (List.prefix_append _ _) (by omega)

theorem read?_eq_some_iff :
    read? cs = some (x, rest) ↔ ∃ w, cs = w ++ rest ∧ IsLongest cs w x := by
  constructor
  · intro hread
    obtain ⟨w, rfl, hw⟩ := exists_isNumeral_of_read? hread
    refine ⟨w, rfl, List.prefix_append _ _, hw, fun w' y hfront hw' => ?_⟩
    obtain ⟨more, rfl⟩ := front_of_read? hread hfront hw'
    rw [Token.byteLength_append]
    exact Nat.le_add_right _ _
  · rintro ⟨w, rfl, -, hw, hlongest⟩
    obtain ⟨y, left, hread, -⟩ := exists_read?_append hw rest
    obtain ⟨w', hsplit, hw'⟩ := exists_isNumeral_of_read? hread
    -- Each of the two numerals is no longer than the other.
    rw [hsplit] at hread
    obtain ⟨more, rfl⟩ := front_of_read? hread ⟨rest, hsplit⟩ hw
    have hbytes := hlongest _ y ⟨left, hsplit.symm⟩ hw'
    have hmore : more = [] := by
      by_contra hne
      have := Token.byteLength_pos hne
      rw [Token.byteLength_append] at hbytes
      omega
    obtain rfl := hmore
    rw [List.append_nil] at hsplit hw' hread
    obtain rfl := List.append_cancel_left hsplit
    have hvalue := hw'.read?_eq.symm.trans hw.read?_eq
    obtain ⟨rfl, -⟩ := Prod.mk.inj (Option.some.inj hvalue)
    exact hread

/-! ## Text as a number -/

variable {s : String}

theorem coerce_of_isNumeral (h : IsNumeral (Text.trim s.toList) x) : coerce s = x := by
  have hread := h.read?_eq
  have hempty : ¬ (Text.trim s.toList).isEmpty = true := by
    intro hempty
    have hnone : read? [] = none := by decide
    rw [List.isEmpty_iff.1 hempty, hnone] at hread
    cases hread
  simp only [coerce, if_neg hempty, hread]

theorem coerce_of_not_isNumeral (hne : Text.trim s.toList ≠ [])
    (h : ∀ x, ¬ IsNumeral (Text.trim s.toList) x) : coerce s = nan := by
  simp only [coerce, List.isEmpty_iff, if_neg hne]
  split
  · next x hread =>
    obtain ⟨w, htrim, hw⟩ := exists_isNumeral_of_read? hread
    rw [List.append_nil] at htrim
    exact absurd (htrim ▸ hw) (h x)
  · rfl

/-- Reading finds the longest numeral in front of a text, which ends between two characters, and its
value, and it finds nothing exactly if there is none. Hence text that is blank is zero, a numeral
with blanks around it is its value, and all other text is no number. -/
theorem reading_finds_longest (s : String) :
    (read? s.toList = none ↔ ∀ w x, w <+: s.toList → ¬ IsNumeral w x) ∧
      (∀ x rest, read? s.toList = some (x, rest) ↔
        ∃ w, s.toList = w ++ rest ∧ String.Pos.Raw.IsValid s ⟨Token.byteLength w⟩ ∧
          IsLongest s.toList w x) ∧
      (Text.trim s.toList = [] → coerce s = 0) ∧
      (∀ x, IsNumeral (Text.trim s.toList) x → coerce s = x) ∧
      (Text.trim s.toList ≠ [] → (∀ x, ¬ IsNumeral (Text.trim s.toList) x) → coerce s = nan) := by
  refine ⟨read?_eq_none_iff, fun x rest => ?_, fun hblank => ?_, fun x => coerce_of_isNumeral,
    coerce_of_not_isNumeral⟩
  · rw [read?_eq_some_iff]
    refine exists_congr fun w => and_congr_right fun hsplit => (and_iff_right ?_).symm
    refine String.Pos.Raw.isValid_iff_exists_append.2 ⟨String.ofList w, String.ofList rest, ?_, ?_⟩
    · rw [← String.ofList_append, ← hsplit, String.ofList_toList]
    · exact String.Pos.Raw.ext (Token.byteLength_eq w)
  · simp [coerce, hblank]

-- The exponent mark is left alone, since no digit follows its sign, and the point is not.
example : (read? "-1.e+x".toList).map Prod.snd = some "e+x".toList := by decide

end PatternSynth.Number
