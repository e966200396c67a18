import Mathlib.Algebra.GroupWithZero.Nat
import PatternSynth.Proofs.Pattern.Words
import PatternSynth.Proofs.Token.Grammar

/-!
# Token texts are a normal form

A token depends on what follows it only through where a run ends and through whether a quote at its
front is closed later. Blanks end every run, and a text made of tokens has no quote that was not in
the source. So the tokens of a source can be written down again with any blanks between them
(`Respaced`), and they are read back as they are. The main result of this file says so of the texts
joined by single blanks, and of all other ways to space them.
-/

namespace PatternSynth.Token

/-- A text of these tokens, so many bytes into the source. Around the tokens stand nothing but
blanks, and behind a token a blank or nothing. -/
inductive Respaced : Nat → List Token → List Char → Prop where
  | nil {offset : Nat} : Respaced offset [] []
  | blank {offset : Nat} {c : Char} {cs : List Char} {ts : List Token}
    (h : Text.isBlank c = true) (hrest : Respaced (offset + byteLength [c]) ts cs) :
    Respaced offset ts (c :: cs)
  | token {offset : Nat} {w cs : List Char} {ts : List Token}
    (hend : ∀ d ∈ cs.head?, Text.isBlank d = true)
    (hrest : Respaced (offset + byteLength w) ts cs) :
    Respaced offset (⟨String.ofList w, ⟨offset, offset + byteLength w⟩⟩ :: ts) (w ++ cs)

/-! ## What a token depends on -/

/-- The characters of the tokens of a text are characters of the text. -/
theorem Layout.mem_of_mem_text {offset : Nat} {cs : List Char} {ts : List Token}
    (h : Layout offset cs ts) {t : Token} (ht : t ∈ ts) {c : Char} (hc : c ∈ t.text.toList) :
    c ∈ cs := by
  obtain ⟨before, after, hfound⟩ := h.exists_found t ht
  rw [hfound.split]
  exact List.mem_append_right _ (List.mem_append_left _ hc)

/-- The first token of a text, and the text after it. -/
theorem Layout.exists_first {offset : Nat} {cs : List Char} {t : Token} {ts : List Token}
    (h : Layout offset cs (t :: ts)) :
    ∃ rest offset', Stands rest t.text.toList ∧ Layout offset' rest ts := by
  generalize htokens : t :: ts = tokens at h
  induction h with
  | nil => cases htokens
  | gap _ _ ih => exact ih htokens
  | @token offset w rest _ hstands hrest =>
    obtain ⟨rfl, rfl⟩ := List.cons.inj htokens
    exact ⟨rest, _, by rwa [String.toList_ofList], hrest⟩

/-- A respaced text has no other characters than blanks and those of its tokens. -/
theorem Respaced.blank_or_mem {offset : Nat} {ts : List Token} {cs : List Char}
    (h : Respaced offset ts cs) {c : Char} (hc : c ∈ cs) :
    Text.isBlank c = true ∨ ∃ w ∈ ts.map text, c ∈ w.toList := by
  induction h with
  | nil => cases hc
  | blank hblank _ ih =>
    rcases List.mem_cons.1 hc with rfl | hc
    · exact .inl hblank
    · exact ih hc
  | @token offset w cs ts _ _ ih =>
    rw [List.map_cons]
    rcases List.mem_append.1 hc with hc | hc
    · exact .inr ⟨String.ofList w, List.mem_cons_self, by rwa [String.toList_ofList]⟩
    · exact (ih hc).imp_right fun ⟨v, hv, hcv⟩ => ⟨v, List.mem_cons_of_mem _ hv, hcv⟩

/-- A token stays one in front of a blank, if no quote gets behind it. -/
theorem Stands.before_blank {rest rest' w : List Char} (h : Stands rest w)
    (hend : ∀ d ∈ rest'.head?, Text.isBlank d = true) (hquote : '"' ∈ rest' → '"' ∈ rest) :
    Stands rest' w := by
  cases h with
  | bracket h => exact .bracket h
  | literal h => exact .literal h
  | word h _ hcomment hopen =>
    refine .word h (fun d hd => .inl (hend d hd)) hcomment fun hc hmem => ?_
    refine hopen hc (List.mem_append.2 ?_)
    exact (List.mem_append.1 hmem).imp_right hquote

/-! ## Reading a respaced text -/

/-- However the tokens of a text are spaced, they are the tokens of the text that results. -/
theorem Respaced.layout {offset offset' : Nat} {ts ts' : List Token} {cs cs' : List Char}
    (h : Respaced offset' ts' cs') (htexts : ts'.map text = ts.map text)
    (hlayout : Layout offset cs ts) : Layout offset' cs' ts' := by
  induction h generalizing offset ts cs with
  | nil => exact .nil
  | @blank _ c _ _ hblank _ ih => exact .gap (w := [c]) (.blank hblank) (ih htexts hlayout)
  | @token _ w cs' ts' hend hrest ih =>
    obtain ⟨t, ts, rfl⟩ : ∃ t us, ts = t :: us := by
      cases ts with
      | nil => cases htexts
      | cons t ts => exact ⟨t, ts, rfl⟩
    obtain ⟨hfirst, hothers⟩ := List.cons.inj htexts
    obtain ⟨rest, _, hstands, hlater⟩ := hlayout.exists_first
    rw [← hfirst, String.toList_ofList] at hstands
    refine .token (hstands.before_blank hend fun hmem => ?_) (ih hothers hlater)
    -- A quote behind the token comes from a later token, so it was behind the token before.
    rcases hrest.blank_or_mem hmem with hblank | ⟨v, hv, hquote⟩
    · exact absurd hblank (by decide)
    · rw [hothers] at hv
      obtain ⟨u, hu, rfl⟩ := List.mem_map.1 hv
      exact hlater.mem_of_mem_text hu hquote

theorem layout_tokenize (source : String) : Layout 0 source.toList (tokenize source) := by
  obtain ⟨ts, hts⟩ := exists_layout 0 source.toList
  rwa [tokenize, hts.scan_eq []]

/-! ## Single blanks -/

/-- The tokens of words that stand in a row, with one blank between two of them. -/
def row : Nat → List String → List Token
  | _, [] => []
  | offset, w :: ws =>
    ⟨w, ⟨offset, offset + w.utf8ByteSize⟩⟩ :: row (offset + w.utf8ByteSize + 1) ws

theorem map_text_row (offset : Nat) (ws : List String) : (row offset ws).map text = ws := by
  induction ws generalizing offset with
  | nil => rfl
  | cons w ws ih => rw [row, List.map_cons, ih]

theorem span_of_getElem?_row {offset : Nat} {ws : List String} {k : Nat} {t : Token}
    (ht : (row offset ws)[k]? = some t) :
    t.span.start = offset + ((ws.take k).map fun w => w.utf8ByteSize + 1).sum ∧
      t.span.stop = t.span.start + t.text.utf8ByteSize := by
  induction ws generalizing offset k with
  | nil => cases ht
  | cons w ws ih =>
    cases k with
    | zero =>
      obtain rfl := Option.some.inj ht
      exact ⟨rfl, rfl⟩
    | succ k =>
      obtain ⟨hstart, hstop⟩ := ih ht
      refine ⟨?_, hstop⟩
      rw [hstart, List.take_succ_cons, List.map_cons, List.sum_cons]
      omega

theorem respaced_tail_spaced (offset : Nat) (ws : List String) :
    Respaced offset (row offset ws) (spaced ws).tail := by
  induction ws generalizing offset with
  | nil => exact .nil
  | cons w ws ih =>
    have hlength : byteLength w.toList = w.utf8ByteSize := by
      rw [byteLength_eq, String.ofList_toList]
    rw [spaced_cons, List.tail_cons, row, ← hlength]
    have hrest : Respaced (offset + byteLength w.toList)
        (row (offset + byteLength w.toList + 1) ws) (spaced ws) := by
      cases ws with
      | nil => exact .nil
      | cons v ws =>
        rw [spaced_cons]
        refine .blank (by decide) ?_
        have hrow := ih (offset + byteLength w.toList + 1)
        rwa [spaced_cons, List.tail_cons] at hrow
    have hend : ∀ d ∈ (spaced ws).head?, Text.isBlank d = true := by
      intro d hd
      cases ws with
      | nil => cases hd
      | cons v ws =>
        rw [spaced_cons] at hd
        obtain rfl := Option.some.inj hd
        decide
    have htoken := Respaced.token hend hrest
    rwa [String.ofList_toList] at htoken

/-- Joining the texts of the tokens of a source by single blanks gives a text with the same token
texts, in which each token starts behind the texts before it and one blank for each of them. The
same holds of every other way to put blanks around them: comments and spacing do not matter. -/
theorem tokenize_respaced (source : String) :
    (tokenize (" ".intercalate ((tokenize source).map text))).map text =
        (tokenize source).map text ∧
      (∀ k t, (tokenize (" ".intercalate ((tokenize source).map text)))[k]? = some t →
        t.span.start =
            ((((tokenize source).map text).take k).map fun w => w.utf8ByteSize + 1).sum ∧
          t.span.stop = t.span.start + t.text.utf8ByteSize) ∧
      ∀ tokens respaced, Respaced 0 tokens respaced.toList →
        tokens.map text = (tokenize source).map text → tokenize respaced = tokens := by
  have hrespaced : ∀ tokens respaced, Respaced 0 tokens respaced.toList →
      tokens.map text = (tokenize source).map text → tokenize respaced = tokens := by
    intro tokens respaced h htexts
    exact (h.layout htexts (layout_tokenize source)).scan_eq []
  have hrow := respaced_tail_spaced 0 ((tokenize source).map text)
  rw [← toList_intercalate] at hrow
  have hjoined := hrespaced _ _ hrow (map_text_row 0 _)
  rw [hjoined]
  refine ⟨map_text_row 0 _, fun k t ht => ?_, hrespaced⟩
  obtain ⟨hstart, hstop⟩ := span_of_getElem?_row ht
  exact ⟨hstart.trans (Nat.zero_add _), hstop⟩

example : (tokenize "x[\"a #\"#b\"\n\"c").map text = ["x", "[", "\"a #\"", "\"c"] ∧
    tokenize "x [ \"a #\" \"c" =
      [⟨"x", ⟨0, 1⟩⟩, ⟨"[", ⟨2, 3⟩⟩, ⟨"\"a #\"", ⟨4, 9⟩⟩, ⟨"\"c", ⟨10, 12⟩⟩] := by
  cbv

end PatternSynth.Token
