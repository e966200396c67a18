import PatternSynth.Program.Basic
import PatternSynth.Proofs.Token.Lexer

/-!
# The words of a reply

The text of a pattern is a row of words with blanks between them (`toList_display`), and so is the
text of a program (`Program.toList_display`). An operator is one word, its value.
-/

namespace PatternSynth

open Token (spaced)

namespace Pattern

mutual

/-- The words of the text of a pattern. -/
def words : Pattern → List String
  | atom value _ => [atomText value]
  | operator op args tag => [((operator op args tag).resolve .zero).display]
  | group kind children _ _ =>
    String.singleton kind.brackets.1 :: (wordsAll children ++ [String.singleton kind.brackets.2])
  | modified kind amount inner _ => inner.words ++ (amount.words ++ [kind.word])

/-- The words of each pattern. -/
def wordsAll : List Pattern → List String
  | [] => []
  | p :: ps => p.words ++ wordsAll ps

end

theorem wordsAll_eq (ps : List Pattern) : wordsAll ps = (ps.map words).flatten := by
  induction ps with
  | nil => rfl
  | cons p ps ih => simp [wordsAll, ih]

theorem words_ne_nil (p : Pattern) : p.words ≠ [] := by
  cases p <;> simp [words]

theorem cons_tail_spaced (p : Pattern) : ' ' :: (spaced p.words).tail = spaced p.words := by
  obtain ⟨w, ws, hw⟩ := List.exists_cons_of_ne_nil p.words_ne_nil
  rw [hw, Token.spaced_cons, List.tail_cons]

theorem tail_spaced_append (p : Pattern) (ws : List String) :
    (spaced (p.words ++ ws)).tail = (spaced p.words).tail ++ spaced ws := by
  rw [Token.spaced_append, ← p.cons_tail_spaced]
  rfl

mutual

/-- A pattern is written word by word. -/
theorem toList_write (out : String) :
    ∀ p : Pattern, (write out p).toList = out.toList ++ (spaced p.words).tail
  | .atom value tag => by simp [write, words]
  | .operator op args tag => by simp [write, words]
  | .group kind children cursor tag => by
    simp [write, words, toList_writeEach]
  | .modified kind amount inner tag => by
    simp only [write, words, String.toList_append, toList_write, tail_spaced_append]
    rw [Token.spaced_append, ← amount.cons_tail_spaced]
    simp

theorem toList_writeEach (out : String) :
    ∀ ps : List Pattern, (writeEach out ps).toList = out.toList ++ spaced (wordsAll ps)
  | [] => by simp [writeEach, wordsAll]
  | p :: ps => by
    simp [writeEach, wordsAll, toList_writeEach, toList_write, cons_tail_spaced]

end

theorem toList_display (p : Pattern) : p.display.toList = (spaced p.words).tail := by
  rw [display, toList_write]
  rfl

/-- The words of a pattern say what its text is. -/
theorem display_eq (p : Pattern) : p.display = String.ofList (spaced p.words).tail := by
  rw [← p.toList_display, String.ofList_toList]

end Pattern

/-- The words of the text of a command. -/
def Command.words (c : Command) : List String :=
  c.pattern.words ++ [c.waveform.word]

/-- The words of the text of a program. -/
def Program.words (p : Program) : List String :=
  p.commands.flatMap Command.words ++ p.stack.flatMap Pattern.words

theorem Pattern.spaced_display (p : Pattern) : spaced [p.display] = spaced p.words := by
  rw [← p.cons_tail_spaced, Token.spaced_cons, p.toList_display, Token.spaced_nil, List.append_nil]

theorem Command.spaced_display (c : Command) : spaced [c.display] = spaced c.words := by
  rw [words, Token.spaced_append, ← c.pattern.spaced_display]
  simp [display]

theorem toList_intercalate (ts : List String) :
    (" ".intercalate ts).toList = (spaced ts).tail := by
  rw [String.toList_intercalate]
  induction ts with
  | nil => rfl
  | cons t ts ih =>
    cases ts with
    | nil => simp
    | cons t' ts => simp_all

theorem spaced_map {α : Type} {text : α → String} {words : α → List String}
    (h : ∀ a, spaced [text a] = spaced (words a)) (as : List α) :
    spaced (as.map text) = spaced (as.flatMap words) := by
  induction as with
  | nil => rfl
  | cons a as ih =>
    rw [List.map_cons, List.flatMap_cons, ← List.singleton_append, Token.spaced_append,
      Token.spaced_append, h, ih]

/-- The text of a program is the row of its words. -/
theorem Program.toList_display (p : Program) : p.display.toList = (spaced p.words).tail := by
  rw [display, toList_intercalate, words, Token.spaced_append, Token.spaced_append,
    spaced_map Command.spaced_display, spaced_map Pattern.spaced_display]

/-- The text of a program says no more than its waveforms and the texts of its patterns. -/
theorem Program.display_congr {p q : Program}
    (hcommands : p.commands.map (fun c => (c.waveform, c.pattern.display)) =
      q.commands.map (fun c => (c.waveform, c.pattern.display)))
    (hstack : p.stack.map Pattern.display = q.stack.map Pattern.display) :
    p.display = q.display := by
  have htexts : p.commands.map Command.display = q.commands.map Command.display := by
    have hmap := congrArg (List.map fun c => c.2 ++ " " ++ c.1.word) hcommands
    rw [List.map_map, List.map_map] at hmap
    exact hmap
  rw [display, display, htexts, hstack]

end PatternSynth
