import PatternSynth.Proofs.Number.Display
import PatternSynth.Proofs.Pattern.Words
import PatternSynth.Proofs.Program.Provenance

/-!
# The words of a reply as tokens

The atoms of a program are `Plain` if no word of its source has a quote inside: then their texts can
be written. Each word of a reply is one token again. Brackets, modifiers and waveforms do what they
say, and every other word pushes an atom with the same text (`isAtom_atomText`).
-/

namespace PatternSynth

open Token (Lexeme)

/-! ## Atoms that can be written -/

/-- The text of the atom has no quote inside, and a word stands for itself. -/
def Atom.Plain : Atom → Prop
  | .text s => '"' ∉ s.toList
  | .word s =>
    '"' ∉ s.toList ∧ Lexeme s.toList ∧ ∀ t : Token, t.text = s → t.meaning = .name s
  | _ => True

namespace Token

theorem dropClosingQuote_of_not_mem {cs : List Char} (h : '"' ∉ cs) : dropClosingQuote cs = cs := by
  refine if_neg fun hlast => h ?_
  exact List.mem_of_getLast? (beq_iff_eq.1 hlast)

theorem dropClosingQuote_append (cs : List Char) : dropClosingQuote (cs ++ ['"']) = cs := by
  simp [dropClosingQuote]

/-- A token that opens with a quote stands for a text without quotes. -/
theorem not_mem_unquoted {t : Token} (hquoted : t.isQuoted = true)
    (htoken : Lexeme t.text.toList ∨ ∃ s, t.text.toList = '"' :: s ∧ '"' ∉ s) :
    '"' ∉ t.unquoted.toList := by
  obtain ⟨cs, hcs⟩ := List.head?_eq_some_iff.1 (beq_iff_eq.1 hquoted)
  have hunquoted : t.unquoted = String.ofList (dropClosingQuote cs) := by
    unfold unquoted
    rw [hcs]
    rfl
  rw [hunquoted, String.toList_ofList]
  rw [hcs] at htoken
  rcases htoken with hlexeme | ⟨s, hs, hnot⟩
  · obtain ⟨s, rfl, hnot⟩ := hlexeme.closed
    rwa [dropClosingQuote_append]
  · obtain rfl := List.tail_eq_of_cons_eq hs
    rwa [dropClosingQuote_of_not_mem hnot]

/-- Only the text of a token says what it means. -/
theorem meaning_congr {t t' : Token} (h : t.text = t'.text) : t.meaning = t'.meaning := by
  obtain ⟨text, span⟩ := t
  subst h
  rfl

/-- What a token can mean. -/
theorem meaning_cases (t : Token) :
    (∃ x, t.meaning = .literal (.number x)) ∨
      t.isQuoted = true ∧ t.meaning = .literal (.text t.unquoted) ∨
      t.isQuoted = false ∧ ((∃ w, Word.ofText? t.text = some w ∧ t.meaning = .builtin w) ∨
        t.meaning = .name t.text) := by
  unfold meaning
  cases t.number? with
  | some x => exact Or.inl ⟨x, rfl⟩
  | none =>
    cases t.isQuoted with
    | true => exact Or.inr (Or.inl ⟨rfl, rfl⟩)
    | false =>
      refine Or.inr (Or.inr ⟨rfl, ?_⟩)
      cases Word.ofText? t.text with
      | some w => exact Or.inl ⟨w, rfl, rfl⟩
      | none => exact Or.inr rfl

/-- The literals of a source are plain if no word of it has a quote inside. -/
theorem plain_literal? {source : String} {t : Token} {value : Atom}
    (hsource : t.isQuoted = false → '"' ∉ t.text.toList.tail) (ht : t ∈ tokenize source)
    (hvalue : t.literal? = some value) : value.Plain := by
  have htoken := lexeme_or_open_of_mem_tokenize ht
  unfold literal? at hvalue
  rcases t.meaning_cases with
    ⟨x, hmeaning⟩ | ⟨hquoted, hmeaning⟩ | ⟨hquoted, ⟨w, -, hmeaning⟩ | hmeaning⟩
  · rw [hmeaning] at hvalue
    cases hvalue
    trivial
  · rw [hmeaning] at hvalue
    cases hvalue
    exact not_mem_unquoted hquoted htoken
  · rw [hmeaning] at hvalue
    cases w with
    | var v =>
      cases hvalue
      trivial
    | _ => cases hvalue
  · rw [hmeaning] at hvalue
    cases hvalue
    have hhead : t.text.toList.head? ≠ some '"' := beq_eq_false_iff_ne.1 hquoted
    have hlexeme : Lexeme t.text.toList := by
      refine htoken.resolve_right ?_
      rintro ⟨s, hs, -⟩
      exact hhead (by rw [hs]; rfl)
    obtain ⟨c, cs, hcs⟩ := List.exists_cons_of_ne_nil hlexeme.ne_nil
    have htail := hsource hquoted
    rw [hcs] at hhead htail
    refine ⟨fun hmem => ?_, hlexeme, fun t' ht' => (meaning_congr ht').trans hmeaning⟩
    rw [hcs] at hmem
    rcases List.mem_cons.1 hmem with rfl | hmem
    · exact hhead rfl
    · exact htail hmem

end Token

/-! ## Values that can be written -/

/-- The literal of a value. -/
def Value.toAtom : Value → Atom
  | number x => .number x
  | text s => .text s

theorem Value.display_eq (v : Value) : v.display = Pattern.atomText v.toAtom := by
  cases v <;> rfl

theorem Value.not_mem_toText {v : Value} (h : v.toAtom.Plain) : '"' ∉ v.toText.toList := by
  cases v with
  | number x => exact fun hmem => absurd (Number.isNumberChar_of_mem_toText x _ hmem) (by decide)
  | text s => exact h

/-- Arithmetic on plain values gives a number, or joins texts without quotes. -/
theorem Operator.plain_apply (op : Operator) {lhs : Value} {rhs : Option Value}
    (hlhs : lhs.toAtom.Plain) (hrhs : ∀ v ∈ rhs, v.toAtom.Plain) :
    (op.apply lhs rhs).toAtom.Plain := by
  unfold apply
  split
  · next r =>
    split
    · have hr : r.toAtom.Plain := hrhs r rfl
      show '"' ∉ (lhs.toText ++ r.toText).toList
      rw [String.toList_append, List.mem_append, not_or]
      exact ⟨Value.not_mem_toText hlhs, Value.not_mem_toText hr⟩
    · trivial
  · trivial

namespace Pattern

variable {S : Span → Prop}

mutual

theorem plain_resolve (env : Env) :
    ∀ p : Pattern, p.Over Atom.Plain S → (p.resolve env).toAtom.Plain
  | .atom (.number x) _, _ => trivial
  | .atom (.text s) _, h => h.1
  | .atom (.word s) _, h => h.1.1
  | .atom (.var v) _, _ => trivial
  | .operator op args _, h => by
    have hnth := plain_resolveNth env args h.1
    rw [resolve]
    cases hlhs : resolveNth env args 0 with
    | none => trivial
    | some lhs => exact op.plain_apply (hnth 0 lhs hlhs) (hnth 1)
  | .group .cycle children _ _, h => by
    have hnth := plain_resolveNth env children h.1 (cycleBranch env.beat children.length)
    rw [resolve]
    cases hbranch : resolveNth env children (cycleBranch env.beat children.length) with
    | none => trivial
    | some v => exact hnth v hbranch
  | .group .sequence _ _ _, _ => trivial
  | .group .chord _ _ _, _ => trivial
  | .modified _ _ inner _, h => plain_resolve env inner h.2.1

theorem plain_resolveNth (env : Env) :
    ∀ ps : List Pattern, OverAll Atom.Plain S ps → ∀ n, ∀ v ∈ resolveNth env ps n, v.toAtom.Plain
  | [], _, _, _, hv => by
    rw [resolveNth] at hv
    cases hv
  | p :: ps, h, 0, v, hv => by
    rw [resolveNth] at hv
    cases hv
    exact plain_resolve env p h.1
  | p :: ps, h, n + 1, v, hv => plain_resolveNth env ps h.2 n v hv

end

end Pattern

/-! ## Words that are read back -/

namespace Token

/-- A word that is one token, which is performed while there are no definitions. -/
def IsPerformed (w : String) : Prop :=
  Lexeme w.toList ∧ ∀ t : Token, t.text = w → t.role ∅ = .performed

/-- A word that is one token, which pushes an atom with the same text. -/
def IsAtom (w : String) : Prop :=
  Lexeme w.toList ∧
    ∃ value, Pattern.atomText value = w ∧ ∀ t : Token, t.text = w → t.literal? = some value

/-- A text that is one token and a builtin word. -/
structure IsBuiltin (s : String) (w : Word) : Prop where
  lexeme : Lexeme s.toList
  leading : Number.leading? s = none
  head : s.toList.head? ≠ some '"'
  word : Word.ofText? s = some w

theorem number?_of_leading? {t : Token} (h : Number.leading? t.text = none) : t.number? = none := by
  simp [number?, h]

theorem IsBuiltin.meaning {s : String} {w : Word} (h : IsBuiltin s w) {t : Token}
    (ht : t.text = s) : t.meaning = .builtin w := by
  subst ht
  simp [Token.meaning, number?_of_leading? h.leading, isQuoted, h.head, h.word]

/-- While there are no definitions, every word is performed except the one that starts them. -/
theorem role_of_ne_define {t : Token} (h : Word.ofText? t.text ≠ some .define) :
    t.role ∅ = .performed := by
  unfold role
  rcases t.meaning_cases with
    ⟨x, hmeaning⟩ | ⟨-, hmeaning⟩ | ⟨-, ⟨w, hword, hmeaning⟩ | hmeaning⟩
  · rw [hmeaning]
  · rw [hmeaning]
  · rw [hmeaning]
    cases w <;> first | rfl | exact absurd hword h
  · rw [hmeaning]
    simp

theorem IsBuiltin.isPerformed {s : String} {w : Word} (h : IsBuiltin s w) (hw : w ≠ .define) :
    IsPerformed s := by
  refine ⟨h.lexeme, fun t ht => role_of_ne_define ?_⟩
  rw [ht, h.word]
  simpa using hw

theorem role_of_literal? {t : Token} {value : Atom} (h : t.literal? = some value) :
    t.role ∅ = .performed := by
  unfold literal? at h
  unfold role
  cases hmeaning : t.meaning with
  | literal => rfl
  | builtin w =>
    rw [hmeaning] at h
    cases w <;> first | rfl | cases h
  | name s => simp

theorem IsAtom.isPerformed {w : String} (h : IsAtom w) : IsPerformed w := by
  obtain ⟨hlexeme, value, -, hvalue⟩ := h
  exact ⟨hlexeme, fun t ht => role_of_literal? (hvalue t ht)⟩

/-! ### Builtin words -/

theorem isBuiltin_opening (kind : Grouping) :
    IsBuiltin (String.singleton kind.brackets.1) (.opening kind) := by
  cases kind <;> exact ⟨.bracket (by decide), by decide, by decide, by decide⟩

theorem isBuiltin_closing (kind : Grouping) :
    IsBuiltin (String.singleton kind.brackets.2) (.closing kind) := by
  cases kind <;> exact ⟨.bracket (by decide), by decide, by decide, by decide⟩

theorem isBuiltin_modifier (kind : Modifier) : IsBuiltin kind.word (.modify kind) := by
  cases kind <;> exact ⟨.of_plain (by decide) (by decide), by decide, by decide, by decide⟩

theorem isBuiltin_waveform (w : Waveform) : IsBuiltin w.word (.render w) := by
  cases w <;> exact ⟨.of_plain (by decide) (by decide), by decide, by decide, by decide⟩

theorem isBuiltin_variable (v : Variable) : IsBuiltin v.word (.var v) := by
  cases v <;> exact ⟨.of_plain (by decide) (by decide), by decide, by decide, by decide⟩

/-! ### Atoms -/

theorem isPlainChar_of_isNumberChar {c : Char} (h : Number.isNumberChar c = true) :
    isPlainChar c = true := by
  have hblank := Number.isBlank_of_isNumberChar h
  simp only [Number.isNumberChar, Bool.or_eq_true, List.contains_iff_mem] at h
  rcases h with hdigit | hmem
  · have hne (d : Char) (hd : d.isDigit = false) : c ≠ d := by
      rintro rfl
      rw [hdigit] at hd
      cases hd
    simp [isPlainChar, isWordChar, isBracket, hblank, hne]
  · exact List.all_eq_true.1 (by decide : "-.NaNInfinity".toList.all isPlainChar = true) c hmem

/-- A number is read as a number with the same text, except that what is no number is read as a
word. -/
theorem isAtom_number (x : Float) : IsAtom (Number.display x) := by
  have hchars := Number.isNumberChar_of_mem_display x
  have hne : (Number.display x).toList ≠ [] := by
    simpa using Number.display_ne_empty x
  have hplain : (Number.display x).toList.all isPlainChar = true :=
    List.all_eq_true.2 fun c hc => isPlainChar_of_isNumberChar (hchars c hc)
  refine ⟨.of_plain hne hplain, ?_⟩
  rcases Number.display_leading? x with ⟨hnone, hnan⟩ | ⟨y, hsome, hy⟩
  · rw [hnan] at hnone ⊢
    refine ⟨.word "NaN", rfl, fun t ht => ?_⟩
    rw [← ht] at hnone
    have hword : Word.ofText? "NaN" = none := by decide
    simp [literal?, meaning, number?_of_leading? hnone, isQuoted, ht, hword]
  · refine ⟨.number y, hy, fun t ht => ?_⟩
    have hquote : '"' ∉ (Number.display x).toList := fun hmem => absurd (hchars _ hmem) (by decide)
    simp [literal?, meaning, number?, ht, hquote, hsome]

theorem isAtom_text {s : String} (h : '"' ∉ s.toList) : IsAtom ("\"" ++ s ++ "\"") := by
  have htext : ("\"" ++ s ++ "\"").toList = '"' :: (s.toList ++ ['"']) := by simp
  refine ⟨by rw [htext]; exact .literal h, .text s, rfl, fun t ht => ?_⟩
  rw [← ht] at htext
  have hnumber : t.number? = none := by simp [number?, htext]
  have hunquoted : t.unquoted = s := by
    simp only [unquoted, htext, dropClosingQuote_append, String.ofList_toList]
  simp [literal?, meaning, hnumber, isQuoted, htext, hunquoted]

theorem isAtom_atomText {value : Atom} (h : value.Plain) : IsAtom (Pattern.atomText value) := by
  cases value with
  | number x => exact isAtom_number x
  | text s => exact isAtom_text h
  | word s => exact ⟨h.2.1, .word s, rfl, fun t ht => by simp [literal?, h.2.2 t ht]⟩
  | var v =>
    have hbuiltin := isBuiltin_variable v
    exact ⟨hbuiltin.lexeme, .var v, rfl, fun t ht => by simp [literal?, hbuiltin.meaning ht]⟩

end Token

/-! ## The words of a pattern -/

namespace Pattern

variable {S : Span → Prop}

mutual

theorem isPerformed_words :
    ∀ p : Pattern, p.Over Atom.Plain S → ∀ w ∈ p.words, Token.IsPerformed w
  | .atom value _, h => by
    rw [words, List.forall_mem_singleton]
    exact (Token.isAtom_atomText h.1).isPerformed
  | .operator op args tag, h => by
    rw [words, List.forall_mem_singleton, Value.display_eq]
    exact (Token.isAtom_atomText (plain_resolve .zero _ h)).isPerformed
  | .group kind children _ _, h => by
    rw [words, List.forall_mem_cons, List.forall_mem_append, List.forall_mem_singleton]
    exact ⟨(Token.isBuiltin_opening kind).isPerformed (by simp), isPerformed_wordsAll children h.1,
      (Token.isBuiltin_closing kind).isPerformed (by simp)⟩
  | .modified kind amount inner _, h => by
    rw [words, List.forall_mem_append, List.forall_mem_append, List.forall_mem_singleton]
    exact ⟨isPerformed_words inner h.2.1, isPerformed_words amount h.1,
      (Token.isBuiltin_modifier kind).isPerformed (by simp)⟩

theorem isPerformed_wordsAll :
    ∀ ps : List Pattern, OverAll Atom.Plain S ps → ∀ w ∈ wordsAll ps, Token.IsPerformed w
  | [], _ => List.forall_mem_nil _
  | p :: ps, h => by
    rw [wordsAll, List.forall_mem_append]
    exact ⟨isPerformed_words p h.1, isPerformed_wordsAll ps h.2⟩

end

end Pattern

end PatternSynth
