import PatternSynth.Proofs.Text.Run
import PatternSynth.Token.Lexer

/-!
# Texts that are read as one token

A `Lexeme` is a bracket, a closed literal or a run of characters that starts neither a comment nor a
literal. Lexemes with blanks between them are read back as they are (`map_text_tokenize`), and
every token is a lexeme, apart from a literal that is not closed (`lexeme_or_open_of_mem_tokenize`).
-/

namespace PatternSynth.Token

/-- A text that is read as one token if a blank or nothing follows it. -/
inductive Lexeme : List Char → Prop where
  | bracket {c : Char} (h : isBracket c = true) : Lexeme [c]
  | literal {s : List Char} (h : '"' ∉ s) : Lexeme ('"' :: (s ++ ['"']))
  | word {c : Char} {cs : List Char} (h : ∀ d ∈ c :: cs, isWordChar d = true) (hcomment : c ≠ '#')
    (hquote : c ≠ '"') : Lexeme (c :: cs)

theorem isBracket_cases {c : Char} (h : isBracket c = true) :
    c = '[' ∨ c = ']' ∨ c = '<' ∨ c = '>' ∨ c = '(' ∨ c = ')' := by
  simpa [isBracket, or_assoc] using h

theorem isWordChar_iff {c : Char} :
    isWordChar c = true ↔ Text.isBlank c = false ∧ isBracket c = false := by
  simp [isWordChar]

/-- A character of a run that starts neither a comment nor a literal. -/
def isPlainChar (c : Char) : Bool :=
  isWordChar c && c != '#' && c != '"'

theorem Lexeme.of_plain {cs : List Char} (hne : cs ≠ []) (h : cs.all isPlainChar = true) :
    Lexeme cs := by
  obtain ⟨c, cs, rfl⟩ := List.exists_cons_of_ne_nil hne
  simp only [List.all_eq_true, isPlainChar, Bool.and_eq_true, bne_iff_ne] at h
  exact .word (fun d hd => (h d hd).1.1) (h c List.mem_cons_self).1.2 (h c List.mem_cons_self).2

/-- Words, each with a blank before it. -/
def spaced (ws : List String) : List Char :=
  ws.flatMap fun w => ' ' :: w.toList

@[simp] theorem spaced_nil : spaced [] = [] := rfl

@[simp] theorem spaced_cons (w : String) (ws : List String) :
    spaced (w :: ws) = ' ' :: (w.toList ++ spaced ws) := by
  simp [spaced]

@[simp] theorem spaced_append (ws ws' : List String) :
    spaced (ws ++ ws') = spaced ws ++ spaced ws' :=
  List.flatMap_append

theorem startsOutside_spaced (ws : List String) : Text.StartsOutside isWordChar (spaced ws) := by
  intro c hc
  cases ws with
  | nil => cases hc
  | cons w ws =>
    rw [spaced_cons] at hc
    cases hc
    decide

/-! ## Reading lexemes back -/

section Reading

variable {c : Char} {cs rest : List Char}

theorem Lexeme.ne_nil (h : Lexeme cs) : cs ≠ [] := by
  rintro rfl
  cases h

theorem Lexeme.closed (h : Lexeme ('"' :: cs)) : ∃ s, cs = s ++ ['"'] ∧ '"' ∉ s := by
  cases h with
  | bracket h => exact absurd h (by decide)
  | literal h => exact ⟨_, rfl, h⟩
  | word _ _ hquote => exact absurd rfl hquote

theorem Lexeme.starts (h : Lexeme (c :: cs)) : Text.isBlank c = false ∧ c ≠ '#' := by
  cases h with
  | bracket h => rcases isBracket_cases h with rfl | rfl | rfl | rfl | rfl | rfl <;> decide
  | literal => decide
  | word h hcomment => exact ⟨(isWordChar_iff.1 (h c List.mem_cons_self)).1, hcomment⟩

theorem Lexeme.lexeme_eq (h : Lexeme (c :: cs)) (hrest : Text.StartsOutside isWordChar rest) :
    lexeme c (cs ++ rest) = c :: cs := by
  cases h with
  | bracket h => simp [lexeme, h]
  | @literal s h =>
    have htake : (s ++ '"' :: rest).takeWhile (· != '"') = s :=
      Text.takeWhile_ne_run h fun d hd => (Option.some.inj hd).symm
    simp [lexeme, isBracket, htake]
  | word h hcomment hquote =>
    obtain ⟨hc, hcs⟩ := List.forall_mem_cons.1 h
    have hbracket := (isWordChar_iff.1 hc).2
    simp [lexeme, hbracket, hquote, Text.takeWhile_run hcs hrest]

/-- A lexeme at the front of a text is its first token. -/
theorem scan_lexeme {w : String} (h : Lexeme w.toList) (hrest : Text.StartsOutside isWordChar rest)
    (found : List Token) (offset : Nat) :
    ∃ span, scan found offset (w.toList ++ rest) = scan (⟨w, span⟩ :: found) span.stop rest := by
  obtain ⟨c, cs, hw⟩ := List.exists_cons_of_ne_nil h.ne_nil
  rw [hw] at h ⊢
  obtain ⟨hblank, hcomment⟩ := h.starts
  have htext : String.ofList (c :: cs) = w := by rw [← hw, String.ofList_toList]
  refine ⟨⟨offset, offset + byteLength (c :: cs)⟩, ?_⟩
  rw [List.cons_append, scan]
  simp [hblank, hcomment, h.lexeme_eq hrest, htext]

theorem map_text_scan_spaced {ws : List String} (h : ∀ w ∈ ws, Lexeme w.toList)
    (found : List Token) (offset : Nat) :
    (scan found offset (spaced ws)).map text = found.reverse.map text ++ ws := by
  induction ws generalizing found offset with
  | nil => simp [scan]
  | cons w ws ih =>
    obtain ⟨hw, hws⟩ := List.forall_mem_cons.1 h
    have hblank : Text.isBlank ' ' = true := by decide
    obtain ⟨span, hscan⟩ := scan_lexeme hw (startsOutside_spaced ws) found (offset + ' '.utf8Size)
    rw [spaced_cons, scan]
    simp [hblank, hscan, ih hws]

/-- Lexemes with blanks between them are read back. -/
theorem map_text_tokenize {ws : List String} {source : String} (h : ∀ w ∈ ws, Lexeme w.toList)
    (hsource : source.toList = (spaced ws).tail) : (tokenize source).map text = ws := by
  rw [tokenize, hsource]
  cases ws with
  | nil => simp [scan]
  | cons w ws =>
    obtain ⟨hw, hws⟩ := List.forall_mem_cons.1 h
    obtain ⟨span, hscan⟩ := scan_lexeme hw (startsOutside_spaced ws) [] 0
    rw [spaced_cons, List.tail_cons, hscan, map_text_scan_spaced hws]
    rfl

end Reading

/-! ## The tokens of a text -/

theorem lexeme_or_open {c : Char} (rest : List Char) (hblank : Text.isBlank c = false)
    (hcomment : c ≠ '#') :
    Lexeme (lexeme c rest) ∨ ∃ s, lexeme c rest = '"' :: s ∧ '"' ∉ s := by
  unfold lexeme
  split
  · next hbracket => exact Or.inl (.bracket hbracket)
  · next hbracket =>
    split
    · next hclosed =>
      simp only [Bool.and_eq_true, beq_iff_eq] at hclosed
      rw [hclosed.1]
      refine Or.inl (.literal fun hmem => ?_)
      have := List.mem_takeWhile_imp hmem
      simp at this
    · next hopen =>
      by_cases hquote : c = '"'
      · subst hquote
        refine Or.inr ⟨_, rfl, fun hmem => hopen ?_⟩
        have := (List.takeWhile_prefix isWordChar).subset hmem
        simpa using this
      · refine Or.inl (.word ?_ hcomment hquote)
        refine List.forall_mem_cons.2 ⟨?_, fun d hd => List.mem_takeWhile_imp hd⟩
        exact isWordChar_iff.2 ⟨hblank, by simpa using hbracket⟩

theorem lexeme_or_open_of_mem_scan {found : List Token} {offset : Nat} {cs : List Char}
    (hfound : ∀ t ∈ found, Lexeme t.text.toList ∨ ∃ s, t.text.toList = '"' :: s ∧ '"' ∉ s) :
    ∀ t ∈ scan found offset cs,
      Lexeme t.text.toList ∨ ∃ s, t.text.toList = '"' :: s ∧ '"' ∉ s := by
  fun_induction scan found offset cs with
  | case1 found offset => exact fun t ht => hfound t (List.mem_reverse.1 ht)
  | case2 found offset c rest hblank ih => exact ih hfound
  | case3 found offset c rest hblank hcomment comment ih => exact ih hfound
  | case4 found offset c rest hblank hcomment word stop ih =>
    refine ih (List.forall_mem_cons.2 ⟨?_, hfound⟩)
    rw [String.toList_ofList]
    exact lexeme_or_open rest (by simpa using hblank) (by simpa using hcomment)

/-- A token is a lexeme, or a literal that is not closed. -/
theorem lexeme_or_open_of_mem_tokenize {source : String} {t : Token} (ht : t ∈ tokenize source) :
    Lexeme t.text.toList ∨ ∃ s, t.text.toList = '"' :: s ∧ '"' ∉ s :=
  lexeme_or_open_of_mem_scan (List.forall_mem_nil _) t ht

end PatternSynth.Token
