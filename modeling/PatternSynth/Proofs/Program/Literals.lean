import PatternSynth.Proofs.Program.Replies

/-!
# Brackets keep every literal in its place

Some words only arrange what is there: brackets, the words that collect, modify or render the stack,
and the variables. Reading the literals of all that the machine keeps from left to right
(`Machine.literals`), performing such a token adds its own literal at the end, if it has one, and
changes nothing before it (`Machine.literals_perform`). So a program of such words has the literals
of its source in their order, however its brackets match.
-/

namespace PatternSynth

namespace StackItem

theorem values_append (items items' : List StackItem) :
    values (items ++ items') = values items' ++ values items := by
  simp [values]

end StackItem

namespace Pattern

mutual

/-- The literals of a pattern from left to right. What a modifier modifies stands before its
amount. -/
def literals : Pattern → List Pattern
  | atom value tag => [atom value tag]
  | operator _ args _ => literalsAll args
  | group _ children _ _ => literalsAll children
  | modified _ amount inner _ => inner.literals ++ amount.literals

/-- The literals of each pattern in turn. -/
def literalsAll : List Pattern → List Pattern
  | [] => []
  | p :: ps => p.literals ++ literalsAll ps

end

theorem literalsAll_eq (ps : List Pattern) : literalsAll ps = ps.flatMap literals := by
  induction ps with
  | nil => rfl
  | cons p ps ih => rw [literalsAll, List.flatMap_cons, ih]

@[simp] theorem literals_literal (value : Atom) (span : Span) :
    (literal value span).literals = [literal value span] := rfl

@[simp] theorem literals_collect (kind : Grouping) (ps : List Pattern) :
    (collect kind ps).literals = ps.flatMap literals :=
  literalsAll_eq ps

@[simp] theorem literals_modify (kind : Modifier) (amount inner : Pattern) (keyword : Span) :
    (modify kind amount inner keyword).literals = inner.literals ++ amount.literals := rfl

end Pattern

/-- Whether a word only arranges values: it drops none, copies none and computes with none. -/
def Word.arranges : Word → Bool
  | render _ | collect _ | opening _ | closing _ | modify _ | var _ => true
  | define | dup | drop | swap | gain | tempo | operate _ => false

namespace Token

/-- Whether a token is a literal or only arranges values. -/
def arranges (token : Token) : Bool :=
  match token.meaning with
  | .literal _ | .name _ => true
  | .builtin w => w.arranges

/-- The literal of a token, with the place of the token. -/
def leaf? (token : Token) : Option Pattern :=
  token.literal?.map (Pattern.literal · token.span)

/-- A token without a literal is a builtin word, but not a variable. -/
theorem meaning_of_literal?_eq_none {token : Token} (h : token.literal? = none) :
    ∃ w, token.meaning = .builtin w ∧ ∀ v, w ≠ .var v := by
  rw [literal?] at h
  cases hmeaning : token.meaning with
  | literal value =>
    rw [hmeaning] at h
    cases h
  | builtin w =>
    rw [hmeaning] at h
    refine ⟨w, rfl, ?_⟩
    rintro v rfl
    cases h
  | name s =>
    rw [hmeaning] at h
    cases h

theorem role_of_arranges {token : Token} (h : token.arranges = true) :
    token.role ∅ = .performed := by
  rw [arranges] at h
  rw [role]
  cases hmeaning : token.meaning with
  | literal value => rfl
  | builtin w =>
    rw [hmeaning] at h
    cases w <;> first | rfl | cases h
  | name s => simp only [Std.HashMap.getElem?_empty]

end Token

/-- The literals of a program from left to right: those of its commands and then those of its
stack. -/
def Program.literals (p : Program) : List Pattern :=
  p.patterns.flatMap Pattern.literals

namespace Machine

/-- The literals of all that the machine keeps, from left to right. -/
def literals (m : Machine) : List Pattern :=
  m.patterns.flatMap Pattern.literals

variable {m m' : Machine} {mode : Mode} {token : Token}

/-! ## One token -/

/-- The literals of the commands come first, and then those of the stack. -/
theorem literals_eq (m : Machine) :
    m.literals = (m.commands.toList.map Command.pattern).flatMap Pattern.literals ++
      (StackItem.values m.stack).flatMap Pattern.literals :=
  List.flatMap_append

/-- A value that is pushed onto other entries comes last. -/
theorem literals_of_push {items : List StackItem} {p : Pattern} {span : Span}
    (h : push { m with stack := items } p span = .ok m') :
    m'.literals = literals { m with stack := items } ++ p.literals := by
  obtain ⟨-, -, rfl⟩ := push_eq_ok h
  simp [literals_eq]

/-- Values that are collected and pushed in their own place stay where they are. -/
theorem literals_of_push_collect {below taken : List StackItem} {kind : Grouping} {span : Span}
    (hstack : StackItem.values m.stack = StackItem.values below ++ StackItem.values taken)
    (h : push { m with stack := below } (.collect kind (StackItem.values taken)) span = .ok m') :
    m'.literals = m.literals := by
  rw [literals_of_push h]
  simp [literals_eq, hstack]

theorem literals_of_render {w : Waveform} {span : Span} (h : m.render mode w span = .ok m') :
    m'.literals = m.literals := by
  simp only [render] at h
  split at h
  · rename_i hvalues
    cases h
    simp [literals_eq, hvalues]
  · rename_i p hvalues
    cases h
    simp [literals_eq, hvalues]
  · cases hcharge : charge { m with stack := [] }
        (.collect .sequence (StackItem.values m.stack)) span with
    | error e =>
      rw [hcharge] at h
      cases h
    | ok charged =>
      rw [hcharge] at h
      obtain ⟨-, -, rfl⟩ := charge_eq_ok hcharge
      cases h
      simp [literals_eq]

/-- The nearest open bracket of a kind stands between what is above it and what is below it. -/
theorem eq_append_marker_of_drop {kind : Grouping} {item : StackItem}
    {items below : List StackItem}
    (h : items.drop (items.takeWhile (!·.isMarker kind)).length = item :: below) :
    items = items.takeWhile (!·.isMarker kind) ++ .marker kind :: below := by
  have hsplit := List.takeWhile_append_dropWhile (p := (!·.isMarker kind)) (l := items)
  have hdrop : items.dropWhile (!·.isMarker kind) = item :: below := by
    have hlength := congrArg (List.drop (items.takeWhile (!·.isMarker kind)).length) hsplit
    rwa [List.drop_left, h] at hlength
  have hitem := List.head?_dropWhile_not (!·.isMarker kind) items
  rw [hdrop, List.head?_cons] at hitem
  have hmarker : item = .marker kind := by
    cases item with
    | marker k => simpa [StackItem.isMarker] using hitem
    | value p => simp [StackItem.isMarker] at hitem
  rw [← hmarker, ← hdrop, hsplit]

theorem literals_of_close {kind : Grouping} {span : Span} (h : m.close kind span = .ok m') :
    m'.literals = m.literals := by
  simp only [close] at h
  split at h
  · cases h
    rfl
  · rename_i item below hdrop
    refine literals_of_push_collect ?_ h
    nth_rewrite 1 [eq_append_marker_of_drop hdrop]
    rw [StackItem.values_append, StackItem.values_marker]

theorem literals_of_execute {w : Word} {span : Span} (harranges : w.arranges = true)
    (hvar : ∀ v, w ≠ .var v) (h : m.execute mode w span = .ok m') : m'.literals = m.literals := by
  cases w with
  | render waveform => exact literals_of_render h
  | collect kind => exact literals_of_push_collect (List.nil_append _).symm h
  | opening kind =>
    cases h
    simp [literals_eq]
  | closing kind => exact literals_of_close h
  | modify kind =>
    simp only [execute] at h
    split at h
    · rename_i amount p below hstack
      rw [literals_of_push h]
      simp [literals_eq, hstack]
    · cases h
      rfl
  | var v => exact absurd rfl (hvar v)
  | _ => cases harranges

/-- A token that only arranges values adds its literal at the end, if it has one. -/
theorem literals_perform (harranges : token.arranges = true)
    (h : m.perform mode token = .ok m') : m'.literals = m.literals ++ token.leaf?.toList := by
  cases hliteral : token.literal? with
  | some value =>
    rw [perform_of_literal? hliteral] at h
    rw [literals_of_push h, Token.leaf?, hliteral]
    rfl
  | none =>
    obtain ⟨w, hmeaning, hvar⟩ := Token.meaning_of_literal?_eq_none hliteral
    rw [perform_of_builtin hmeaning] at h
    rw [Token.arranges, hmeaning] at harranges
    rw [literals_of_execute harranges hvar h, Token.leaf?, hliteral]
    exact (List.append_nil _).symm

/-! ## All tokens -/

theorem literals_performAll {tokens : List Token}
    (harranges : ∀ token ∈ tokens, token.arranges = true)
    (h : performAll mode tokens m = .ok m') :
    m'.literals = m.literals ++ tokens.filterMap Token.leaf? := by
  induction tokens generalizing m with
  | nil =>
    cases h
    exact (List.append_nil _).symm
  | cons token tokens ih =>
    obtain ⟨htoken, htokens⟩ := List.forall_mem_cons.1 harranges
    obtain ⟨m₁, hm₁, hrest⟩ := performAll_cons_eq_ok h
    rw [ih htokens hrest, literals_perform htoken hm₁, List.append_assoc]
    cases htoken : token.leaf? <;> simp [htoken]

/-- What a program of literals, brackets and words that collect, modify or render comes to has
exactly the literals of its tokens, in their order and each with its own place. -/
theorem literals_run {tempo : Float} {tokens : List Token} {program : Program}
    (harranges : ∀ token ∈ tokens, token.arranges = true)
    (h : (run mode Limit.callDepth tokens (.initial tempo)).map finish = .ok program) :
    program.literals = tokens.filterMap Token.leaf? := by
  have hflat := flatten_of_performed fun token htoken =>
    Token.role_of_arranges (harranges token htoken)
  rw [run_eq_performAll mode (m := .initial tempo) hflat rfl (Nat.zero_le _)] at h
  obtain ⟨m, hm, rfl⟩ := exists_of_map_eq_ok h
  obtain ⟨m', hm', rfl⟩ := exists_of_map_eq_ok hm
  exact literals_performAll harranges hm'

/-- The text `( < 1 ] 2 > "a" vol sine [ t seq ) b`. -/
def strayBrackets : String :=
  "( < 1 ] 2 > \"a\" vol sine [ t seq ) b"

theorem literals_strayBrackets :
    ∃ program, compile .commit 120 strayBrackets = .ok program ∧
      program.literals = [.literal (.number 1) ⟨4, 5⟩, .literal (.number 2) ⟨8, 9⟩,
        .literal (.text "a") ⟨12, 15⟩, .literal (.var .frame) ⟨27, 28⟩,
        .literal (.word "b") ⟨35, 36⟩] := by
  have htokens : Token.tokenize strayBrackets = [⟨"(", ⟨0, 1⟩⟩, ⟨"<", ⟨2, 3⟩⟩, ⟨"1", ⟨4, 5⟩⟩,
      ⟨"]", ⟨6, 7⟩⟩, ⟨"2", ⟨8, 9⟩⟩, ⟨">", ⟨10, 11⟩⟩, ⟨"\"a\"", ⟨12, 15⟩⟩, ⟨"vol", ⟨16, 19⟩⟩,
      ⟨"sine", ⟨20, 24⟩⟩, ⟨"[", ⟨25, 26⟩⟩, ⟨"t", ⟨27, 28⟩⟩, ⟨"seq", ⟨29, 32⟩⟩, ⟨")", ⟨33, 34⟩⟩,
      ⟨"b", ⟨35, 36⟩⟩] := by
    cbv
  have harranges : ∀ token ∈ Token.tokenize strayBrackets, token.arranges = true := by
    rw [htokens]
    decide
  have hprogram : ∃ program, compile .commit 120 strayBrackets = .ok program := by
    rw [compile_of_tokens htokens (by decide)]
    exact ⟨_, rfl⟩
  obtain ⟨program, hprogram⟩ := hprogram
  refine ⟨program, hprogram, (literals_run harranges hprogram).trans ?_⟩
  rw [htokens]
  rfl

end Machine

end PatternSynth
