import PatternSynth.Proofs.Token.Meaning

/-!
# Replies are source text

Performing the words of a pattern pushes one pattern with the same words (`pushes_words`), and
performing those of a command issues one command with the same words. So compiling a reply gives a
program with the same text, as long as it stays within the limits (`evaluate_reply`). This needs
that no word of the source has a quote inside, since such a word cannot be written in a literal.
-/

namespace PatternSynth

section Except

variable {ε α β : Type} {x : Except ε α} {b : β}

theorem exists_of_bind_eq_ok {f : α → Except ε β} (h : x.bind f = .ok b) :
    ∃ a, x = .ok a ∧ f a = .ok b := by
  cases x with
  | error e => cases h
  | ok a => exact ⟨a, rfl, h⟩

theorem exists_of_map_eq_ok {f : α → β} (h : x.map f = .ok b) : ∃ a, x = .ok a ∧ f a = b := by
  cases x with
  | error e => cases h
  | ok a => exact ⟨a, rfl, Except.ok.inj h⟩

end Except

/-! ## Performing words -/

/-- A stack of values only. -/
theorem StackItem.values_pushed (ps : List Pattern) : values (ps.map value).reverse = ps := by
  have hvalue : value? ∘ value = some := rfl
  rw [values, List.reverse_reverse, List.filterMap_map, hvalue, List.filterMap_some]

namespace Machine

variable {mode : Mode} {m m₁ m' : Machine} {S : Span → Prop}

theorem performAll_cons_eq_ok {t : Token} {ts : List Token}
    (h : performAll mode (t :: ts) m = .ok m') :
    ∃ m₁, m.perform mode t = .ok m₁ ∧ performAll mode ts m₁ = .ok m' := by
  rw [performAll_cons] at h
  exact exists_of_bind_eq_ok h

theorem performAll_append_eq_ok {ts ts' : List Token}
    (h : performAll mode (ts ++ ts') m = .ok m') :
    ∃ m₁, performAll mode ts m = .ok m₁ ∧ performAll mode ts' m₁ = .ok m' := by
  rw [performAll_append] at h
  exact exists_of_bind_eq_ok h

theorem performAll_singleton_eq_ok {t : Token} (h : performAll mode [t] m = .ok m') :
    m.perform mode t = .ok m' := by
  obtain ⟨m₁, hm₁, hm'⟩ := performAll_cons_eq_ok h
  cases hm'
  exact hm₁

/-- Patterns with the words of these are pushed, and no command is issued. -/
def Pushes (ps : List Pattern) (m m' : Machine) : Prop :=
  ∃ qs : List Pattern, qs.map Pattern.words = ps.map Pattern.words ∧
    m'.stack = (qs.map StackItem.value).reverse ++ m.stack ∧ m'.commands = m.commands

theorem pushes_nil (m : Machine) : Pushes [] m m :=
  ⟨[], rfl, rfl, rfl⟩

theorem Pushes.append {ps ps' : List Pattern} (h : Pushes ps m m₁) (h' : Pushes ps' m₁ m') :
    Pushes (ps ++ ps') m m' := by
  obtain ⟨qs, hwords, hstack, hcommands⟩ := h
  obtain ⟨qs', hwords', hstack', hcommands'⟩ := h'
  refine ⟨qs ++ qs', ?_, ?_, hcommands'.trans hcommands⟩
  · rw [List.map_append, List.map_append, hwords, hwords']
  · rw [hstack', hstack, List.map_append, List.reverse_append, List.append_assoc]

theorem Pushes.one {p : Pattern} (h : Pushes [p] m m') :
    ∃ q : Pattern, q.words = p.words ∧ m'.stack = .value q :: m.stack ∧
      m'.commands = m.commands := by
  obtain ⟨qs, hwords, hstack, hcommands⟩ := h
  obtain ⟨q, rfl, hq⟩ := List.map_eq_singleton_iff.1 hwords
  exact ⟨q, hq, hstack, hcommands⟩

theorem pushes_push {p q : Pattern} {span : Span} (hwords : q.words = p.words)
    (h : m.push q span = .ok m') : Pushes [p] m m' := by
  obtain ⟨-, -, rfl⟩ := push_eq_ok h
  exact ⟨[q], by simp [hwords], rfl, rfl⟩

theorem perform_of_literal? {t : Token} {value : Atom} (h : t.literal? = some value) :
    m.perform mode t = m.push (.literal value t.span) t.span := by
  unfold Token.literal? at h
  unfold perform
  cases hmeaning : t.meaning with
  | literal value =>
    rw [hmeaning] at h
    cases h
    rfl
  | builtin w =>
    rw [hmeaning] at h
    cases w <;> first | (cases h; rfl) | cases h
  | name s =>
    rw [hmeaning] at h
    cases h
    rfl

theorem perform_of_builtin {t : Token} {w : Word} (h : t.meaning = .builtin w) :
    m.perform mode t = m.execute mode w t.span := by
  rw [perform, h]

/-- The word of an atom pushes an atom with the same text. -/
theorem pushes_atom {p : Pattern} {t : Token} (hatom : Token.IsAtom t.text)
    (hp : p.words = [t.text]) (h : m.perform mode t = .ok m') : Pushes [p] m m' := by
  obtain ⟨-, value, htext, hvalue⟩ := hatom
  rw [perform_of_literal? (hvalue t rfl)] at h
  refine pushes_push ?_ h
  rw [hp, ← htext]
  rfl

theorem close_pushed {kind : Grouping} {ps : List Pattern} {below : List StackItem}
    (hstack : m.stack = (ps.map StackItem.value).reverse ++ .marker kind :: below) (span : Span) :
    m.close kind span = push { m with stack := below } (.collect kind ps) span := by
  have hpushed : ∀ item ∈ (ps.map StackItem.value).reverse, (!item.isMarker kind) = true := by
    intro item hitem
    obtain ⟨p, -, rfl⟩ := List.mem_map.1 (List.mem_reverse.1 hitem)
    rfl
  have hinside : m.stack.takeWhile (!·.isMarker kind) = (ps.map StackItem.value).reverse := by
    rw [hstack, List.takeWhile_append_of_pos hpushed]
    simp [StackItem.isMarker]
  have hbelow : m.stack.drop (ps.map StackItem.value).reverse.length = .marker kind :: below := by
    rw [hstack, List.drop_left]
  simp only [close, hinside, hbelow, StackItem.values_pushed]

mutual

-- The pattern that is pushed is another one: an operator is written as its value. What the two have
-- in common, and what the text of a pattern is made of, is their words.
/-- Performing the words of a pattern pushes a pattern with these words. -/
theorem pushes_words : ∀ (p : Pattern), p.Over Atom.Plain S → ∀ {ts : List Token} {m m' : Machine},
    ts.map Token.text = p.words → performAll mode ts m = .ok m' → Pushes [p] m m'
  | .atom value _, hp, ts, m, m', hts, h => by
    obtain ⟨t, rfl, ht⟩ := List.map_eq_singleton_iff.1 hts
    have hatom := Token.isAtom_atomText hp.1
    rw [← ht] at hatom
    exact pushes_atom hatom (by rw [ht]; rfl) (performAll_singleton_eq_ok h)
  | .operator op args tag, hp, ts, m, m', hts, h => by
    obtain ⟨t, rfl, ht⟩ := List.map_eq_singleton_iff.1 hts
    have hatom := Token.isAtom_atomText (Pattern.plain_resolve .zero _ hp)
    rw [← Value.display_eq, ← ht] at hatom
    exact pushes_atom hatom (by rw [ht]; rfl) (performAll_singleton_eq_ok h)
  | .group kind children cursor tag, hp, ts, m, m', hts, h => by
    obtain ⟨opening, ts, rfl, hopening, hts⟩ := List.map_eq_cons_iff.1 hts
    obtain ⟨inside, ts, rfl, hinside, hts⟩ := List.map_eq_append_iff.1 hts
    obtain ⟨closing, rfl, hclosing⟩ := List.map_eq_singleton_iff.1 hts
    obtain ⟨m₁, hm₁, hrest⟩ := performAll_cons_eq_ok h
    obtain ⟨m₂, hm₂, hlast⟩ := performAll_append_eq_ok hrest
    rw [perform_of_builtin ((Token.isBuiltin_opening kind).meaning hopening)] at hm₁
    cases hm₁
    obtain ⟨qs, hwords, hstack, hcommands⟩ := pushes_wordsAll children hp.1 hinside hm₂
    have hclose := performAll_singleton_eq_ok hlast
    rw [perform_of_builtin ((Token.isBuiltin_closing kind).meaning hclosing), execute,
      close_pushed hstack] at hclose
    obtain ⟨-, -, rfl⟩ := push_eq_ok hclose
    refine ⟨[.collect kind qs], ?_, rfl, hcommands⟩
    simp [Pattern.words, Pattern.collect, Pattern.wordsAll_eq, hwords]
  | .modified kind amount inner tag, hp, ts, m, m', hts, h => by
    obtain ⟨first, ts, rfl, hfirst, hts⟩ := List.map_eq_append_iff.1 hts
    obtain ⟨second, ts, rfl, hsecond, hts⟩ := List.map_eq_append_iff.1 hts
    obtain ⟨keyword, rfl, hkeyword⟩ := List.map_eq_singleton_iff.1 hts
    obtain ⟨m₁, hm₁, hrest⟩ := performAll_append_eq_ok h
    obtain ⟨m₂, hm₂, hlast⟩ := performAll_append_eq_ok hrest
    obtain ⟨q, hinner, hstack₁, hcommands₁⟩ := (pushes_words inner hp.2.1 hfirst hm₁).one
    obtain ⟨a, hamount, hstack₂, hcommands₂⟩ := (pushes_words amount hp.1 hsecond hm₂).one
    have hmodify := performAll_singleton_eq_ok hlast
    rw [perform_of_builtin ((Token.isBuiltin_modifier kind).meaning hkeyword)] at hmodify
    simp only [execute, hstack₂, hstack₁] at hmodify
    obtain ⟨-, -, rfl⟩ := push_eq_ok hmodify
    refine ⟨[.modify kind a q keyword.span], ?_, rfl, hcommands₂.trans hcommands₁⟩
    simp [Pattern.words, Pattern.modify, hinner, hamount]

theorem pushes_wordsAll : ∀ (ps : List Pattern), Pattern.OverAll Atom.Plain S ps →
    ∀ {ts : List Token} {m m' : Machine}, ts.map Token.text = Pattern.wordsAll ps →
      performAll mode ts m = .ok m' → Pushes ps m m'
  | [], _, ts, m, m', hts, h => by
    obtain rfl := List.map_eq_nil_iff.1 hts
    cases h
    exact pushes_nil m
  | p :: ps, hps, ts, m, m', hts, h => by
    obtain ⟨first, rest, rfl, hfirst, hrest⟩ := List.map_eq_append_iff.1 hts
    obtain ⟨m₁, hm₁, h⟩ := performAll_append_eq_ok h
    exact (pushes_words p hps.1 hfirst hm₁).append (pushes_wordsAll ps hps.2 hrest h)

end

/-- Rendering a single value issues a command with it. -/
theorem render_one {p : Pattern} {w : Waveform} {span : Span} (hstack : m.stack = [.value p])
    (h : m.render mode w span = .ok m') :
    m'.stack = [] ∧ m'.commands.toList = m.commands.toList ++ [⟨w, p⟩] := by
  have hvalues : StackItem.values m.stack = [p] := by simp [hstack]
  simp only [render, hvalues] at h
  cases h
  exact ⟨rfl, by simp⟩

/-- Performing the words of commands issues commands with these words. -/
theorem issues_words (cs : List Command) (hcs : ∀ c ∈ cs, c.pattern.Over Atom.Plain S)
    {ts : List Token} {m m' : Machine} (hts : ts.map Token.text = cs.flatMap Command.words)
    (hstack : m.stack = []) (h : performAll mode ts m = .ok m') :
    m'.stack = [] ∧ ∃ ds : List Command, m'.commands.toList = m.commands.toList ++ ds ∧
      ds.map (fun c => (c.waveform, c.pattern.words)) =
        cs.map (fun c => (c.waveform, c.pattern.words)) := by
  induction cs generalizing ts m with
  | nil =>
    obtain rfl := List.map_eq_nil_iff.1 hts
    cases h
    exact ⟨hstack, [], by simp⟩
  | cons c cs ih =>
    obtain ⟨hc, hcs⟩ := List.forall_mem_cons.1 hcs
    obtain ⟨first, rest, rfl, hfirst, hrest⟩ := List.map_eq_append_iff.1 hts
    obtain ⟨pattern, ts, rfl, hpattern, hts⟩ := List.map_eq_append_iff.1 hfirst
    obtain ⟨keyword, rfl, hkeyword⟩ := List.map_eq_singleton_iff.1 hts
    obtain ⟨m₂, hm₂, hlast⟩ := performAll_append_eq_ok h
    obtain ⟨m₁, hm₁, hrender⟩ := performAll_append_eq_ok hm₂
    obtain ⟨q, hq, hstack₁, hcommands₁⟩ := (pushes_words c.pattern hc hpattern hm₁).one
    have hrender := performAll_singleton_eq_ok hrender
    rw [perform_of_builtin ((Token.isBuiltin_waveform c.waveform).meaning hkeyword)] at hrender
    rw [hstack] at hstack₁
    obtain ⟨hstack₂, hcommands₂⟩ := render_one hstack₁ hrender
    obtain ⟨hstack', ds, hcommands', hds⟩ := ih hcs hrest hstack₂ hlast
    refine ⟨hstack', ⟨c.waveform, q⟩ :: ds, ?_, ?_⟩
    · rw [hcommands', hcommands₂, hcommands₁, List.append_assoc, List.singleton_append]
    · rw [List.map_cons, List.map_cons, hds, hq]

end Machine

/-! ## Replies -/

section Replies

variable {S : Span → Prop}

theorem Program.isPerformed_words {p : Program} (h : ∀ q ∈ p.patterns, q.Over Atom.Plain S) :
    ∀ w ∈ p.words, Token.IsPerformed w := by
  obtain ⟨hcommands, hstack⟩ := List.forall_mem_append.1 h
  rw [words, List.forall_mem_append]
  constructor
  · intro w hw
    obtain ⟨c, hc, hw⟩ := List.mem_flatMap.1 hw
    rcases List.mem_append.1 hw with hw | hw
    · exact Pattern.isPerformed_words c.pattern (hcommands _ (List.mem_map_of_mem hc)) w hw
    · rw [List.mem_singleton.1 hw]
      exact (Token.isBuiltin_waveform c.waveform).isPerformed (by simp)
  · intro w hw
    obtain ⟨q, hq, hw⟩ := List.mem_flatMap.1 hw
    exact Pattern.isPerformed_words q (hstack q hq) w hw

/-- Without definitions, a compile performs the tokens of its source. -/
theorem compile_of_performed {mode : Mode} {tempo : Float} {source : String}
    (h : ∀ t ∈ Token.tokenize source, t.role ∅ = .performed) :
    compile mode tempo source =
      (Machine.performAll mode (Token.tokenize source) (.initial tempo)).map Machine.finish := by
  rw [compile, Machine.run_eq_performAll mode (Machine.flatten_of_performed h) rfl (Nat.zero_le _)]
  cases Machine.performAll mode (Token.tokenize source) (.initial tempo) <;> rfl

theorem compile_of_tokens {mode : Mode} {tempo : Float} {source : String} {tokens : List Token}
    (htokens : Token.tokenize source = tokens)
    (hwords : ∀ t ∈ tokens, Word.ofText? t.text ≠ some .define) :
    compile mode tempo source =
      (Machine.performAll mode tokens (.initial tempo)).map Machine.finish := by
  subst htokens
  exact compile_of_performed fun t ht => Token.role_of_ne_define (hwords t ht)

/-- Compiling the text of a program gives a program with the same words. -/
theorem words_compile_display {mode : Mode} {tempo : Float} {original program : Program}
    (horiginal : ∀ q ∈ original.patterns, q.Over Atom.Plain S)
    (h : compile mode tempo original.display = .ok program) :
    program.commands.map (fun c => (c.waveform, c.pattern.words)) =
        original.commands.map (fun c => (c.waveform, c.pattern.words)) ∧
      program.stack.map Pattern.words = original.stack.map Pattern.words := by
  have hperformed := Program.isPerformed_words horiginal
  obtain ⟨hcommands, hstack⟩ := List.forall_mem_append.1 horiginal
  have htext := Token.map_text_tokenize (fun w hw => (hperformed w hw).1) original.toList_display
  have hrole : ∀ t ∈ Token.tokenize original.display, t.role ∅ = .performed := by
    intro t ht
    refine (hperformed t.text ?_).2 t rfl
    rw [← htext]
    exact List.mem_map_of_mem ht
  rw [compile_of_performed hrole] at h
  obtain ⟨first, rest, htokens, hfirst, hrest⟩ := List.map_eq_append_iff.1 htext
  rw [List.flatMap_def, ← Pattern.wordsAll_eq] at hrest
  rw [htokens] at h
  obtain ⟨m', hperform, rfl⟩ := exists_of_map_eq_ok h
  obtain ⟨m₁, hm₁, hm'⟩ := Machine.performAll_append_eq_ok hperform
  obtain ⟨hempty, ds, hds, hshown⟩ := Machine.issues_words original.commands
    (fun c hc => hcommands _ (List.mem_map_of_mem hc)) hfirst rfl hm₁
  obtain ⟨qs, hwords, hpushed, hissued⟩ :=
    Machine.pushes_wordsAll original.stack (Pattern.overAll_iff.2 hstack) hrest hm'
  have hissued : m'.commands.toList = ds := by
    rw [hissued, hds]
    rfl
  rw [hempty, List.append_nil] at hpushed
  simp only [Machine.finish, hissued, hpushed, StackItem.values_pushed]
  exact ⟨hshown, hwords⟩

/-- Compiling the text of a program gives a program that shows the same. -/
theorem compile_display {mode : Mode} {tempo : Float} {original program : Program}
    (horiginal : ∀ q ∈ original.patterns, q.Over Atom.Plain S)
    (h : compile mode tempo original.display = .ok program) :
    program.commands.map (fun c => (c.waveform, c.pattern.display)) =
        original.commands.map (fun c => (c.waveform, c.pattern.display)) ∧
      program.stack.map Pattern.display = original.stack.map Pattern.display := by
  obtain ⟨hcommands, hstack⟩ := words_compile_display horiginal h
  -- What is shown is a function of the words.
  have hcommands := congrArg
    (List.map fun c => (c.1, String.ofList (Token.spaced c.2).tail)) hcommands
  have hstack := congrArg (List.map fun ws => String.ofList (Token.spaced ws).tail) hstack
  simp only [List.map_map, Function.comp_def, ← Pattern.display_eq] at hcommands hstack
  exact ⟨hcommands, hstack⟩

/-- A reply is source text that reads back as what it shows, if no word of the source has a quote
inside: unless compiling it runs into a limit, it gives commands with the same waveforms and
patterns with the same text, and as many values with the same text on the stack. So its reply is
itself. -/
theorem evaluate_reply {tempo tempo' : Float} {source text : String} {program : Program}
    (hsource : ∀ t ∈ Token.tokenize source, t.isQuoted = false → '"' ∉ t.text.toList.tail)
    (hreply : evaluate tempo source = .ok text)
    (hprogram : compile .eval tempo' text = .ok program) :
    ∃ original, compile .eval tempo source = .ok original ∧
      program.commands.map (fun c => (c.waveform, c.pattern.display)) =
        original.commands.map (fun c => (c.waveform, c.pattern.display)) ∧
      program.stack.map Pattern.display = original.stack.map Pattern.display ∧
      evaluate tempo' text = .ok text := by
  obtain ⟨original, hcompile, rfl⟩ := exists_of_map_eq_ok hreply
  have hover := over_compile (A := Atom.Plain) (S := fun _ => True) .eval tempo source
    (fun t ht value hvalue => Token.plain_literal? (hsource t ht) ht hvalue)
    (fun _ _ => trivial)
  rw [hcompile] at hover
  obtain ⟨hcommands, hstack⟩ := compile_display hover hprogram
  refine ⟨original, hcompile, hcommands, hstack, ?_⟩
  rw [evaluate, hprogram, ← Program.display_congr hcommands hstack]
  rfl

/-- A source with a literal, a group, a modifier and a command. -/
def mixedSource : String :=
  "\"a b\" [ x 2 ] sine z 3 vol"

/-- Its reply. -/
def mixedReply : String :=
  "[ \"a b\" [ x 2 ] ] sine z 3 vol"

theorem tokenize_mixedSource : Token.tokenize mixedSource =
    [⟨"\"a b\"", ⟨0, 5⟩⟩, ⟨"[", ⟨6, 7⟩⟩, ⟨"x", ⟨8, 9⟩⟩, ⟨"2", ⟨10, 11⟩⟩, ⟨"]", ⟨12, 13⟩⟩,
      ⟨"sine", ⟨14, 18⟩⟩, ⟨"z", ⟨19, 20⟩⟩, ⟨"3", ⟨21, 22⟩⟩, ⟨"vol", ⟨23, 26⟩⟩] := by
  cbv

theorem tokenize_mixedReply : Token.tokenize mixedReply =
    [⟨"[", ⟨0, 1⟩⟩, ⟨"\"a b\"", ⟨2, 7⟩⟩, ⟨"[", ⟨8, 9⟩⟩, ⟨"x", ⟨10, 11⟩⟩, ⟨"2", ⟨12, 13⟩⟩,
      ⟨"]", ⟨14, 15⟩⟩, ⟨"]", ⟨16, 17⟩⟩, ⟨"sine", ⟨18, 22⟩⟩, ⟨"z", ⟨23, 24⟩⟩, ⟨"3", ⟨25, 26⟩⟩,
      ⟨"vol", ⟨27, 30⟩⟩] := by
  cbv

theorem evaluate_mixedReply :
    evaluate 120 mixedSource = .ok mixedReply ∧
      ∃ program, compile .eval 90 mixedReply = .ok program ∧
        ∃ original, compile .eval 120 mixedSource = .ok original ∧
          program.commands.map (fun c => (c.waveform, c.pattern.display)) =
            original.commands.map (fun c => (c.waveform, c.pattern.display)) ∧
          program.stack.map Pattern.display = original.stack.map Pattern.display ∧
          evaluate 90 mixedReply = .ok mixedReply := by
  have hquotes : ∀ t ∈ Token.tokenize mixedSource,
      t.isQuoted = false → '"' ∉ t.text.toList.tail := by
    rw [tokenize_mixedSource]
    decide
  have hsource : ∀ t ∈ Token.tokenize mixedSource, Word.ofText? t.text ≠ some .define := by
    rw [tokenize_mixedSource]
    decide
  have hreply : evaluate 120 mixedSource = .ok mixedReply := by
    rw [evaluate, compile_of_performed fun t ht => Token.role_of_ne_define (hsource t ht),
      tokenize_mixedSource]
    rfl
  have hwords : ∀ t ∈ Token.tokenize mixedReply, Word.ofText? t.text ≠ some .define := by
    rw [tokenize_mixedReply]
    decide
  have hprogram : ∃ program, compile .eval 90 mixedReply = .ok program := by
    rw [compile_of_performed fun t ht => Token.role_of_ne_define (hwords t ht),
      tokenize_mixedReply]
    exact ⟨_, rfl⟩
  obtain ⟨program, hprogram⟩ := hprogram
  exact ⟨hreply, program, hprogram, evaluate_reply hquotes hreply hprogram⟩

end Replies

end PatternSynth
