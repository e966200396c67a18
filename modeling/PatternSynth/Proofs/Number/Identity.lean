import PatternSynth.Number
import PatternSynth.Proofs.Decimal.Numeral

/-!
# The text of a number in a signature

The text is made of a few characters only, and it tells all floats apart (`identity_injective`): the
two zeros differ, and there is one NaN. This rests on the shortest text of a finite float being a
numeral whose value rounds to that float.
-/

namespace PatternSynth.Number

open Binary (Canonical Rounds)
open Decimal (AreDigits numeral ofNumeral)

/-- The characters of a minus sign. -/
theorem toList_minus (negative : Bool) :
    (minus negative).toList = if negative then ['-'] else [] := by
  cases negative <;> rfl

/-- The shortest text is a sign and a numeral, whose value rounds to the float or is zero. -/
theorem exists_numeral_shortestText (negative : Bool) (m : Nat) (e : Int) :
    ∃ whole fraction, (shortestText negative m e).toList =
        (minus negative).toList ++ numeral whole fraction ∧
      whole ≠ [] ∧ AreDigits whole ∧ AreDigits fraction ∧
      (m = 0 → (ofNumeral whole fraction).value = 0) ∧
      (0 < m → Rounds (ofNumeral whole fraction).value m e) := by
  unfold shortestText
  split
  · next hm =>
    refine ⟨['0'], [], by rw [String.toList_append]; rfl, by simp, Decimal.areDigits_zeros 1,
      List.forall_mem_nil _, fun _ => ?_, fun hpos => absurd hm hpos.ne'⟩
    simp [ofNumeral, Decimal.value, Decimal.ofDigits]
  · next hm =>
    obtain ⟨whole, fraction, htext, hne, hwhole, hfraction, hvalue⟩ :=
      Decimal.exists_numeral_positional (Decimal.shortest .up m e)
    refine ⟨whole, fraction, by rw [String.toList_append, htext], hne, hwhole, hfraction,
      fun h => absurd h hm, fun hpos => ?_⟩
    rw [hvalue]
    exact Decimal.rounds_shortest hpos e .up

/-! ## Characters -/

/-- The characters of numbers in signatures. -/
def isIdentityChar (c : Char) : Bool :=
  c.isDigit || "-.NaNinf".toList.contains c

theorem isIdentityChar_of_mem_numeral {whole fraction : List Char} (hwhole : AreDigits whole)
    (hfraction : AreDigits fraction) : ∀ c ∈ numeral whole fraction, isIdentityChar c = true := by
  intro c hc
  have hdigit (h : c.isDigit = true) : isIdentityChar c = true := by simp [isIdentityChar, h]
  rcases List.mem_append.1 hc with hc | hc
  · exact hdigit (hwhole c hc)
  · split at hc
    · cases hc
    · rcases List.mem_cons.1 hc with rfl | hc
      · rfl
      · exact hdigit (hfraction c hc)

theorem isIdentityChar_of_mem_minus (negative : Bool) :
    ∀ c ∈ (minus negative).toList, isIdentityChar c = true := by
  cases negative <;> exact List.all_eq_true.1 (by decide)

theorem isIdentityChar_of_mem (x : Float) : ∀ c ∈ (identity x).toList, isIdentityChar c = true := by
  unfold identity
  split
  · exact List.all_eq_true.1 (by decide)
  · rw [String.toList_append, List.forall_mem_append]
    exact ⟨isIdentityChar_of_mem_minus _, List.all_eq_true.1 (by decide)⟩
  · next negative m e _ =>
    obtain ⟨whole, fraction, htext, -, hwhole, hfraction, -⟩ :=
      exists_numeral_shortestText negative m e
    rw [htext, List.forall_mem_append]
    exact ⟨isIdentityChar_of_mem_minus _, isIdentityChar_of_mem_numeral hwhole hfraction⟩

/-! ## Telling floats apart -/

/-- A numeral starts with a digit. -/
theorem head?_numeral {whole : List Char} (fraction : List Char) (hne : whole ≠ [])
    (hwhole : AreDigits whole) :
    ∃ c, (numeral whole fraction).head? = some c ∧ c.isDigit = true := by
  cases whole with
  | nil => exact absurd rfl hne
  | cons c cs => exact ⟨c, rfl, hwhole c List.mem_cons_self⟩

/-- A sign can be told from what follows it, if that does not start with a minus. -/
theorem minus_append_inj {negative negative' : Bool} {cs cs' : List Char}
    (hcs : cs.head? ≠ some '-') (hcs' : cs'.head? ≠ some '-')
    (h : (minus negative).toList ++ cs = (minus negative').toList ++ cs') :
    negative = negative' ∧ cs = cs' := by
  rw [toList_minus, toList_minus] at h
  cases negative <;> cases negative'
  · exact ⟨rfl, h⟩
  · exact absurd (congrArg List.head? h) hcs
  · exact absurd (congrArg List.head? h).symm hcs'
  · exact ⟨rfl, List.tail_eq_of_cons_eq h⟩

theorem shortestText_injective {x y : Float} {negative negative' : Bool} {m m' : Nat}
    {e e' : Int} (hx : Binary.ofFloat x = .finite negative m e)
    (hy : Binary.ofFloat y = .finite negative' m' e')
    (h : shortestText negative m e = shortestText negative' m' e') :
    negative = negative' ∧ m = m' ∧ e = e' := by
  obtain ⟨whole, fraction, htext, hne, hwhole, -, hzero, hrounds⟩ :=
    exists_numeral_shortestText negative m e
  obtain ⟨whole', fraction', htext', hne', hwhole', -, hzero', hrounds'⟩ :=
    exists_numeral_shortestText negative' m' e'
  have hhead (whole fraction : List Char) (hne : whole ≠ []) (hwhole : AreDigits whole) :
      (numeral whole fraction).head? ≠ some '-' := by
    obtain ⟨c, hc, hdigit⟩ := head?_numeral fraction hne hwhole
    rw [hc]
    rintro ⟨⟩
    cases hdigit
  have hlist : (minus negative).toList ++ numeral whole fraction =
      (minus negative').toList ++ numeral whole' fraction' := by
    rw [← htext, ← htext', h]
  obtain ⟨hsign, hnumeral⟩ :=
    minus_append_inj (hhead _ _ hne hwhole) (hhead _ _ hne' hwhole') hlist
  obtain ⟨rfl, rfl⟩ := Decimal.numeral_inj hwhole hwhole' hnumeral
  -- Both texts have one value, which is zero or rounds to both floats.
  have hpositive {m : Nat} {e : Int} (hm : 0 < m) : ¬ Rounds 0 m e := by
    intro hrounds
    have hlow := hrounds.low
    have hunit := Binary.unit_pos e
    have hgap := Binary.gapBelow_le_one m e
    have hm1 : (1 : ℚ) ≤ m := by exact_mod_cast hm
    nlinarith
  rcases Binary.zero_or_canonical hx with ⟨rfl, rfl⟩ | hcanonical <;>
    rcases Binary.zero_or_canonical hy with ⟨rfl, rfl⟩ | hcanonical'
  · exact ⟨hsign, rfl, rfl⟩
  · exact absurd (hzero rfl ▸ hrounds' hcanonical'.pos) (hpositive hcanonical'.pos)
  · exact absurd (hzero' rfl ▸ hrounds hcanonical.pos) (hpositive hcanonical.pos)
  · exact ⟨hsign, (hrounds hcanonical.pos).unique (hrounds' hcanonical'.pos) hcanonical hcanonical'⟩

/-- No word is the text of a finite float. -/
theorem shortestText_ne_word (word : String)
    (hword : word.toList.head?.all (fun c => c != '-' && !c.isDigit) = true)
    (negative negative' : Bool) (m : Nat) (e : Int) :
    minus negative ++ word ≠ shortestText negative' m e := by
  intro h
  obtain ⟨whole, fraction, htext, hne, hwhole, -⟩ := exists_numeral_shortestText negative' m e
  obtain ⟨c, hc, hdigit⟩ := head?_numeral fraction hne hwhole
  have hlist : (minus negative).toList ++ word.toList =
      (minus negative').toList ++ numeral whole fraction := by
    rw [← String.toList_append, h, htext]
  have hminus : word.toList.head? ≠ some '-' := by
    intro hminus
    rw [hminus] at hword
    exact absurd hword (by decide)
  obtain ⟨-, hrest⟩ := minus_append_inj hminus (by rw [hc]; rintro ⟨⟩; cases hdigit) hlist
  rw [hrest, hc] at hword
  simp [hdigit] at hword

/-- The text of a number in a signature tells all floats apart. -/
theorem identity_injective {x y : Float} (h : identity x = identity y) : x = y := by
  apply Binary.ofFloat_injective
  have hnan (negative : Bool) (m : Nat) (e : Int) : "NaN" ≠ shortestText negative m e :=
    shortestText_ne_word "NaN" (by decide) false negative m e
  have hinf (s negative : Bool) (m : Nat) (e : Int) :
      minus s ++ "inf" ≠ shortestText negative m e :=
    shortestText_ne_word "inf" (by decide) s negative m e
  have hnaninf (s : Bool) : "NaN" ≠ minus s ++ "inf" := by cases s <;> decide
  have hinfinf : ∀ s s' : Bool, minus s ++ "inf" = minus s' ++ "inf" → s = s' := by decide
  unfold identity at h
  cases hx : Binary.ofFloat x with
  | nan =>
    cases hy : Binary.ofFloat y with
    | nan => rfl
    | infinite negative' =>
      rw [hx, hy] at h
      exact absurd h (hnaninf negative')
    | finite negative' m' e' =>
      rw [hx, hy] at h
      exact absurd h (hnan negative' m' e')
  | infinite negative =>
    cases hy : Binary.ofFloat y with
    | nan =>
      rw [hx, hy] at h
      exact absurd h.symm (hnaninf negative)
    | infinite negative' =>
      rw [hx, hy] at h
      rw [hinfinf negative negative' h]
    | finite negative' m' e' =>
      rw [hx, hy] at h
      exact absurd h (hinf negative negative' m' e')
  | finite negative m e =>
    cases hy : Binary.ofFloat y with
    | nan =>
      rw [hx, hy] at h
      exact absurd h.symm (hnan negative m e)
    | infinite negative' =>
      rw [hx, hy] at h
      exact absurd h.symm (hinf negative' negative m e)
    | finite negative' m' e' =>
      rw [hx, hy] at h
      obtain ⟨rfl, rfl, rfl⟩ := shortestText_injective hx hy h
      rfl

end PatternSynth.Number
