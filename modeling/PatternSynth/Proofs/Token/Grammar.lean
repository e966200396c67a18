import PatternSynth.Proofs.Token.Lexer

/-!
# The grammar of source text

A text is a row of tokens, blanks and comments. What may stand as a token depends on what follows it
(`Stands`): a run of characters goes as far as it can, and it starts with a quote only if that quote
is never closed. `Layout` says which tokens a text has, piece by piece and without a rule for how to
find them. Every text has a layout (`exists_layout`), and scanning finds its tokens
(`Layout.scan_eq`), so that a text has exactly one. The spans of the tokens cut their texts out of
the source.
-/

namespace PatternSynth.Token

/-! ## Lengths in bytes -/

theorem byteLength_eq (cs : List Char) : byteLength cs = (String.ofList cs).utf8ByteSize := by
  suffices ∀ n, cs.foldl (fun n c => n + c.utf8Size) n = n + (String.ofList cs).utf8ByteSize by
    rw [byteLength, this, Nat.zero_add]
  induction cs with
  | nil => exact fun n => rfl
  | cons c cs ih =>
    intro n
    rw [List.foldl_cons, ih, String.ofList_cons, String.utf8ByteSize_append,
      String.utf8ByteSize_singleton, Nat.add_assoc]

theorem byteLength_nil : byteLength [] = 0 := rfl

theorem byteLength_append (cs cs' : List Char) :
    byteLength (cs ++ cs') = byteLength cs + byteLength cs' := by
  rw [byteLength_eq, byteLength_eq, byteLength_eq, String.ofList_append, String.utf8ByteSize_append]

theorem byteLength_cons (c : Char) (cs : List Char) :
    byteLength (c :: cs) = c.utf8Size + byteLength cs := by
  rw [byteLength_eq, byteLength_eq, String.ofList_cons, String.utf8ByteSize_append,
    String.utf8ByteSize_singleton]

theorem byteLength_pos {cs : List Char} (h : cs ≠ []) : 0 < byteLength cs := by
  obtain ⟨c, cs, rfl⟩ := List.exists_cons_of_ne_nil h
  rw [byteLength_cons]
  exact Nat.add_pos_left c.utf8Size_pos _

/-! ## Tokens and what separates them -/

/-- A text that is one token if this is what follows it. -/
inductive Stands (rest : List Char) : List Char → Prop where
  | bracket {c : Char} (h : isBracket c = true) : Stands rest [c]
  /-- A quoted literal. -/
  | literal {s : List Char} (h : '"' ∉ s) : Stands rest ('"' :: (s ++ ['"']))
  /-- A run of characters that ends where it has to. A quote at its front is never closed. -/
  | word {c : Char} {cs : List Char}
    (h : ∀ d ∈ c :: cs, Text.isBlank d = false ∧ isBracket d = false)
    (hend : ∀ d ∈ rest.head?, Text.isBlank d = true ∨ isBracket d = true)
    (hcomment : c ≠ '#') (hquote : c = '"' → '"' ∉ cs ++ rest) : Stands rest (c :: cs)

/-- A text between tokens, if this is what follows it. -/
inductive Separates (rest : List Char) : List Char → Prop where
  | blank {c : Char} (h : Text.isBlank c = true) : Separates rest [c]
  /-- A comment, which goes to the end of its line or of the text. -/
  | comment {cs : List Char} (h : '\n' ∉ cs) (hend : ∀ d ∈ rest.head?, d = '\n') :
    Separates rest ('#' :: cs)

/-- The tokens of a text that stands so many bytes into the source. -/
inductive Layout : Nat → List Char → List Token → Prop where
  | nil {offset : Nat} : Layout offset [] []
  | gap {offset : Nat} {w rest : List Char} {ts : List Token} (h : Separates rest w)
    (hrest : Layout (offset + byteLength w) rest ts) : Layout offset (w ++ rest) ts
  | token {offset : Nat} {w rest : List Char} {ts : List Token} (h : Stands rest w)
    (hrest : Layout (offset + byteLength w) rest ts) :
    Layout offset (w ++ rest) (⟨String.ofList w, ⟨offset, offset + byteLength w⟩⟩ :: ts)

section Pieces

variable {c : Char} {cs w rest : List Char}

theorem Stands.ne_nil (h : Stands rest w) : w ≠ [] := by
  rintro rfl
  cases h

theorem Stands.starts (h : Stands rest (c :: cs)) : Text.isBlank c = false ∧ c ≠ '#' := by
  cases h with
  | bracket h => exact (Lexeme.bracket h).starts
  | literal h => exact (Lexeme.literal h).starts
  | word h _ hcomment => exact ⟨(h c List.mem_cons_self).1, hcomment⟩

/-! ## Every text has a layout -/

/-- Where neither a blank nor a comment starts, a token does. -/
theorem exists_stands (rest : List Char) (hblank : Text.isBlank c = false) (hcomment : c ≠ '#') :
    ∃ cs rest', rest = cs ++ rest' ∧ Stands rest' (c :: cs) := by
  by_cases hbracket : isBracket c = true
  · exact ⟨[], rest, rfl, .bracket hbracket⟩
  by_cases hclosed : c = '"' ∧ '"' ∈ rest
  · obtain ⟨rfl, hmem⟩ := hclosed
    obtain ⟨s, after, rfl, hs⟩ := List.eq_append_cons_of_mem hmem
    exact ⟨s ++ ['"'], after, by simp, .literal hs⟩
  refine ⟨rest.takeWhile isWordChar, rest.dropWhile isWordChar,
    List.takeWhile_append_dropWhile.symm, .word ?_ ?_ hcomment ?_⟩
  · refine List.forall_mem_cons.2 ⟨⟨hblank, by simpa using hbracket⟩, fun d hd => ?_⟩
    exact isWordChar_iff.1 (List.mem_takeWhile_imp hd)
  · intro d hd
    have hword : isWordChar d = false := by
      have hhead := List.head?_dropWhile_not isWordChar rest
      rw [hd] at hhead
      simpa using hhead
    simpa [isWordChar, or_iff_not_imp_left] using hword
  · intro hquote
    rw [List.takeWhile_append_dropWhile]
    exact fun hmem => hclosed ⟨hquote, hmem⟩

theorem exists_comment (rest : List Char) :
    ∃ cs rest', rest = cs ++ rest' ∧ Separates rest' ('#' :: cs) := by
  by_cases hmem : '\n' ∈ rest
  · obtain ⟨cs, after, rfl, hcs⟩ := List.eq_append_cons_of_mem hmem
    exact ⟨cs, '\n' :: after, rfl, .comment hcs fun d hd => (Option.some.inj hd).symm⟩
  · exact ⟨rest, [], (List.append_nil rest).symm, .comment hmem fun d hd => by cases hd⟩

theorem exists_layout (offset : Nat) (cs : List Char) : ∃ ts, Layout offset cs ts := by
  match cs with
  | [] => exact ⟨[], .nil⟩
  | c :: rest =>
    by_cases hblank : Text.isBlank c = true
    · obtain ⟨ts, hts⟩ := exists_layout (offset + byteLength [c]) rest
      exact ⟨ts, .gap (w := [c]) (.blank hblank) hts⟩
    by_cases hcomment : c = '#'
    · obtain ⟨cs, rest', hsplit, hseparates⟩ := exists_comment rest
      obtain ⟨ts, hts⟩ := exists_layout (offset + byteLength ('#' :: cs)) rest'
      rw [hcomment, hsplit, ← List.cons_append]
      exact ⟨ts, .gap hseparates hts⟩
    · obtain ⟨cs, rest', hsplit, hstands⟩ := exists_stands rest (by simpa using hblank) hcomment
      obtain ⟨ts, hts⟩ := exists_layout (offset + byteLength (c :: cs)) rest'
      rw [hsplit, ← List.cons_append]
      exact ⟨_, .token hstands hts⟩
termination_by cs.length
decreasing_by
  all_goals
    subst_vars
    simp only [List.length_cons, List.length_append]
    omega

/-! ## Scanning finds the layout -/

theorem Stands.lexeme_eq (h : Stands rest (c :: cs)) : lexeme c (cs ++ rest) = c :: cs := by
  cases h with
  | bracket h => simp [lexeme, h]
  | @literal s h =>
    have htake : (s ++ '"' :: rest).takeWhile (· != '"') = s :=
      Text.takeWhile_ne_run h fun d hd => (Option.some.inj hd).symm
    simp [lexeme, isBracket, htake]
  | word h hend _ hquote =>
    obtain ⟨hc, hcs⟩ := List.forall_mem_cons.1 h
    have hclosed : (c == '"' && (cs ++ rest).contains '"') = false := by
      rw [Bool.and_eq_false_imp, beq_iff_eq]
      intro hc
      simpa using hquote hc
    have htake : (cs ++ rest).takeWhile isWordChar = cs := by
      refine Text.takeWhile_run (fun d hd => isWordChar_iff.2 (hcs d hd)) fun d hd => ?_
      simpa [isWordChar, or_iff_not_imp_left] using hend d hd
    rw [lexeme, hc.2, hclosed, htake]
    rfl

theorem Stands.scan_eq (h : Stands rest w) (found : List Token) (offset : Nat) :
    scan found offset (w ++ rest) =
      scan (⟨String.ofList w, ⟨offset, offset + byteLength w⟩⟩ :: found)
        (offset + byteLength w) rest := by
  obtain ⟨c, cs, rfl⟩ := List.exists_cons_of_ne_nil h.ne_nil
  obtain ⟨hblank, hcomment⟩ := h.starts
  rw [List.cons_append, scan]
  simp [hblank, hcomment, h.lexeme_eq]

theorem Separates.scan_eq (h : Separates rest w) (found : List Token) (offset : Nat) :
    scan found offset (w ++ rest) = scan found (offset + byteLength w) rest := by
  cases h with
  | blank h =>
    rw [List.singleton_append, scan, if_pos h, byteLength_cons, byteLength_nil, Nat.add_zero]
  | @comment cs h hend =>
    have hblank : Text.isBlank '#' = false := by decide
    rw [List.cons_append, scan]
    simp [hblank, Text.takeWhile_ne_run h hend, byteLength_cons, Nat.add_assoc]

/-- Scanning a text finds the tokens of its layout. -/
theorem Layout.scan_eq {offset : Nat} {cs : List Char} {ts : List Token} (h : Layout offset cs ts)
    (found : List Token) : scan found offset cs = found.reverse ++ ts := by
  induction h generalizing found with
  | nil => rw [scan, List.append_nil]
  | gap h _ ih => rw [h.scan_eq, ih]
  | token h _ ih =>
    rw [h.scan_eq, ih, List.reverse_cons, List.append_assoc]
    rfl

end Pieces

/-! ## Where the tokens stand -/

/-- Where a token stands in a text that is so many bytes into the source. -/
structure Found (offset : Nat) (cs : List Char) (t : Token) (before after : List Char) : Prop where
  split : cs = before ++ (t.text.toList ++ after)
  start : t.span.start = offset + byteLength before
  stop : t.span.stop = t.span.start + byteLength t.text.toList
  stands : Stands after t.text.toList

theorem Found.under {offset : Nat} {w rest : List Char} {t : Token} {before after : List Char}
    (h : Found (offset + byteLength w) rest t before after) :
    Found offset (w ++ rest) t (w ++ before) after where
  split := by rw [h.split, List.append_assoc]
  start := by rw [h.start, byteLength_append, Nat.add_assoc]
  stop := h.stop
  stands := h.stands

theorem Found.start_lt_stop {offset : Nat} {cs before after : List Char} {t : Token}
    (h : Found offset cs t before after) : t.span.start < t.span.stop := by
  have hpos := byteLength_pos h.stands.ne_nil
  rw [h.stop]
  omega

theorem Layout.exists_found {offset : Nat} {cs : List Char} {ts : List Token}
    (h : Layout offset cs ts) : ∀ t ∈ ts, ∃ before after, Found offset cs t before after := by
  induction h with
  | nil => exact List.forall_mem_nil _
  | gap _ _ ih =>
    intro t ht
    obtain ⟨before, after, hfound⟩ := ih t ht
    exact ⟨_, after, hfound.under⟩
  | @token offset w rest ts h _ ih =>
    refine List.forall_mem_cons.2 ⟨⟨[], rest, ?_⟩, fun t ht => ?_⟩
    · have htext : (String.ofList w).toList = w := String.toList_ofList
      exact ⟨by rw [htext]; rfl, rfl, by rw [htext], htext.symm ▸ h⟩
    · obtain ⟨before, after, hfound⟩ := ih t ht
      exact ⟨_, after, hfound.under⟩

/-- Each token ends before the next ones start. -/
theorem Layout.pairwise {offset : Nat} {cs : List Char} {ts : List Token}
    (h : Layout offset cs ts) : ts.Pairwise fun t u => t.span.stop ≤ u.span.start := by
  induction h with
  | nil => exact .nil
  | gap _ _ ih => exact ih
  | token _ hrest ih =>
    refine .cons (fun u hu => ?_) ih
    obtain ⟨before, after, hfound⟩ := hrest.exists_found u hu
    rw [hfound.start]
    exact Nat.le_add_right _ _

theorem Found.toString_eq {source : String} {t : Token} {before after : List Char}
    (h : Found 0 source.toList t before after) :
    source = String.ofList before ++ t.text ++ String.ofList after := by
  have hsplit := congrArg String.ofList h.split
  rw [String.ofList_toList, String.ofList_append, String.ofList_append, String.ofList_toList,
    ← String.append_assoc] at hsplit
  exact hsplit

/-- A token stands between two characters of the source, and its span cuts its text out. -/
theorem Found.cuts {source : String} {t : Token} {before after : List Char}
    (h : Found 0 source.toList t before after) :
    String.Pos.Raw.IsValid source ⟨t.span.start⟩ ∧ String.Pos.Raw.IsValid source ⟨t.span.stop⟩ ∧
      source.toByteArray.extract t.span.start t.span.stop = t.text.toByteArray := by
  have hsource := h.toString_eq
  have hstart : t.span.start = (String.ofList before).utf8ByteSize := by
    rw [h.start, Nat.zero_add, byteLength_eq]
  have hstop : t.span.stop = (String.ofList before ++ t.text).utf8ByteSize := by
    rw [h.stop, hstart, byteLength_eq, String.ofList_toList, String.utf8ByteSize_append]
  refine ⟨?_, ?_, ?_⟩
  · refine String.Pos.Raw.isValid_iff_exists_append.2 ⟨String.ofList before,
      t.text ++ String.ofList after, ?_, ?_⟩
    · rw [← String.append_assoc]
      exact hsource
    · exact String.Pos.Raw.ext hstart
  · exact String.Pos.Raw.isValid_iff_exists_append.2 ⟨_, _, hsource, String.Pos.Raw.ext hstop⟩
  · rw [hsource, String.toByteArray_append, hstop, ← String.size_toByteArray,
      ByteArray.extract_append_size_left, String.toByteArray_append]
    refine ByteArray.extract_append_eq_right ?_ ByteArray.size_append
    rw [hstart, String.size_toByteArray]

/-- The tokens of a source are those of its layout, which is the only one it has: a row of brackets,
quoted literals and runs of characters, with blanks and comments between them. Their spans are not
empty, lie one after another, start and stop between characters, and cut their texts out of the
source. -/
theorem tokenize_eq_iff_layout (source : String) :
    (∀ tokens, tokenize source = tokens ↔ Layout 0 source.toList tokens) ∧
      (tokenize source).Pairwise (fun t u => t.span.stop ≤ u.span.start) ∧
      ∀ t ∈ tokenize source, t.span.start < t.span.stop ∧
        String.Pos.Raw.IsValid source ⟨t.span.start⟩ ∧
        String.Pos.Raw.IsValid source ⟨t.span.stop⟩ ∧
        source.toByteArray.extract t.span.start t.span.stop = t.text.toByteArray ∧
        ∃ before after, source.toList = before ++ (t.text.toList ++ after) ∧
          byteLength before = t.span.start ∧ Stands after t.text.toList := by
  obtain ⟨ts, hts⟩ := exists_layout 0 source.toList
  have htokenize : ∀ {tokens}, Layout 0 source.toList tokens → tokenize source = tokens :=
    fun h => h.scan_eq []
  have hlayout : Layout 0 source.toList (tokenize source) := (htokenize hts).symm ▸ hts
  refine ⟨fun tokens => ⟨fun h => h ▸ hlayout, htokenize⟩, hlayout.pairwise, fun t ht => ?_⟩
  obtain ⟨before, after, hfound⟩ := hlayout.exists_found t ht
  obtain ⟨hstart, hstop, hcut⟩ := hfound.cuts
  exact ⟨hfound.start_lt_stop, hstart, hstop, hcut, before, after, hfound.split,
    by rw [hfound.start, Nat.zero_add], hfound.stands⟩

example : tokenize "x\"y[\"a #\" #z" =
    [⟨"x\"y", ⟨0, 3⟩⟩, ⟨"[", ⟨3, 4⟩⟩, ⟨"\"a #\"", ⟨4, 9⟩⟩] := by
  cbv

end PatternSynth.Token
