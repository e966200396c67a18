import Mathlib.Data.List.Perm.Subperm
import PatternSynth.Proofs.Program.Trace

/-!
# What performing a token does to the patterns that the machine keeps

The machine keeps patterns on its stack and in its commands (`Machine.patterns`). Performing a token
moves some of them and forgets others, or changes the gain stored on one of them, or makes one new
pattern, for which it is charged (`Effect`). Nothing else can happen (`effect_of_perform`), so an
invariant of what is kept needs these three cases and no look at the words of the language.
-/

namespace PatternSynth

namespace StackItem

@[simp] theorem values_nil : values [] = [] := rfl

@[simp] theorem values_value (p : Pattern) (items : List StackItem) :
    values (.value p :: items) = values items ++ [p] := by
  simp [values, value?]

@[simp] theorem values_marker (kind : Grouping) (items : List StackItem) :
    values (.marker kind :: items) = values items := by
  simp [values, value?]

/-- Some of the entries, in their order, have some of the values. -/
theorem values_sublist {items items' : List StackItem} (h : items.Sublist items') :
    (values items).Sublist (values items') :=
  h.reverse.filterMap value?

end StackItem

namespace Pattern

/-- The number of nodes of a pattern. -/
def nodes (p : Pattern) : Nat :=
  p.extent.nodes

/-- How deep a pattern nests. -/
def depth (p : Pattern) : Nat :=
  p.extent.depth

end Pattern

/-- The literal that a token stands for if it is not a call. -/
def Token.literal? (token : Token) : Option Atom :=
  match token.meaning with
  | .literal value => some value
  | .builtin (.var v) => some (.var v)
  | .builtin _ => none
  | .name s => some (.word s)

/-- A pattern that a token can make of some patterns that are there already. -/
inductive Made (token : Token) (old : List Pattern) : Pattern → Prop where
  | literal {value : Atom} (h : token.literal? = some value) :
    Made token old (.literal value token.span)
  | copy {p : Pattern} (hp : p ∈ old) : Made token old p
  | collect (kind : Grouping) {ps : List Pattern} (hps : ps ⊆ old) :
    Made token old (.collect kind ps)
  | modify (kind : Modifier) {amount p : Pattern} (hamount : amount ∈ old) (hp : p ∈ old) :
    Made token old (.modify kind amount p token.span)
  | degenerate (op : Operator) : Made token old (.degenerate op token.span)
  | operate (op : Operator) {args : List Pattern} (hargs : args ⊆ old) :
    Made token old (.operate op args token.span)

namespace Machine

/-- The patterns that the machine keeps: those of the commands and then those of the stack. -/
def patterns (m : Machine) : List Pattern :=
  m.commands.toList.map Command.pattern ++ StackItem.values m.stack

/-- What performing a token may do to the patterns that the machine keeps. -/
inductive Effect (token : Token) (m m' : Machine) : Prop where
  /-- Patterns are moved or forgotten. -/
  | moved (hbuilt : m'.built = m.built) (hkept : m'.patterns.Subperm m.patterns)
  /-- One pattern is given another gain. -/
  | scaled (factor : Float) {p : Pattern} {rest : List Pattern} (hbuilt : m'.built = m.built)
    (hold : (p :: rest).Subperm m.patterns)
    (hkept : m'.patterns.Subperm (p.scaleGain factor :: rest))
  /-- A pattern is made and charged. -/
  | made {p : Pattern} (hmade : Made token m.patterns p) (hdepth : p.depth ≤ Limit.nesting)
    (hbuilt : m'.built = m.built + p.nodes) (hlimit : m'.built ≤ Limit.builtNodes)
    (hkept : m'.patterns.Subperm (p :: m.patterns))

section Steps

variable {m m' : Machine} {token : Token} {span : Span}

theorem values_subset_patterns (m : Machine) : StackItem.values m.stack ⊆ m.patterns :=
  List.subset_append_right _ _

/-- With some of the stack left, some of the patterns are. -/
theorem patterns_below {items : List StackItem} (h : items.Sublist m.stack) :
    (patterns { m with stack := items }).Subperm m.patterns :=
  ((List.Sublist.refl _).append (StackItem.values_sublist h)).subperm

/-- With a value on top, the patterns are those below and the value. -/
theorem patterns_value_perm (p : Pattern) (items : List StackItem) :
    (patterns { m with stack := .value p :: items }).Perm
      (p :: patterns { m with stack := items }) := by
  have hvalue : patterns { m with stack := .value p :: items } =
      patterns { m with stack := items } ++ [p] := by
    simp [patterns]
  rw [hvalue]
  exact List.perm_append_singleton p _

theorem charge_eq_ok {p : Pattern} (h : m.charge p span = .ok m') :
    p.depth ≤ Limit.nesting ∧ m.built + p.nodes ≤ Limit.builtNodes ∧
      m' = { m with built := m.built + p.nodes } := by
  simp only [charge] at h
  split at h
  · cases h
  · split at h
    · cases h
    · rename_i hdepth hlimit
      exact ⟨Nat.not_lt.1 hdepth, Nat.not_lt.1 hlimit, (Except.ok.inj h).symm⟩

theorem charge_eq_error {p : Pattern} {e : CompileError} (h : m.charge p span = .error e) :
    e.span = span := by
  simp only [charge] at h
  split at h
  · exact congrArg CompileError.span (Except.error.inj h).symm
  · split at h
    · exact congrArg CompileError.span (Except.error.inj h).symm
    · cases h

theorem push_eq_ok {p : Pattern} (h : m.push p span = .ok m') :
    p.depth ≤ Limit.nesting ∧ m.built + p.nodes ≤ Limit.builtNodes ∧
      m' = { m with stack := .value p :: m.stack, built := m.built + p.nodes } := by
  rw [push] at h
  cases hcharge : m.charge p span with
  | error e =>
    rw [hcharge] at h
    cases h
  | ok charged =>
    rw [hcharge] at h
    obtain ⟨hdepth, hlimit, rfl⟩ := charge_eq_ok hcharge
    exact ⟨hdepth, hlimit, (Except.ok.inj h).symm⟩

theorem push_eq_error {p : Pattern} {e : CompileError} (h : m.push p span = .error e) :
    e.span = span := by
  rw [push] at h
  cases hcharge : m.charge p span with
  | error e' =>
    rw [hcharge] at h
    obtain rfl := Except.error.inj h
    exact charge_eq_error hcharge
  | ok charged =>
    rw [hcharge] at h
    cases h

/-- Pushing what was made of the patterns onto some of the stack. -/
theorem meets_push {items : List StackItem} {p : Pattern} (hitems : items.Sublist m.stack)
    (hmade : Made token m.patterns p) :
    Meets (Effect token m) (·.span = token.span)
      (push { m with stack := items } p token.span) := by
  cases h : push { m with stack := items } p token.span with
  | error e => exact push_eq_error h
  | ok m' =>
    obtain ⟨hdepth, hlimit, rfl⟩ := push_eq_ok h
    refine .made hmade hdepth rfl hlimit ?_
    exact (patterns_value_perm p items).subperm.trans
      ((List.subperm_cons p).2 (patterns_below hitems))

/-- Leaving some of the stack. -/
theorem effect_below {items : List StackItem} (hitems : items.Sublist m.stack) :
    Effect token m { m with stack := items } :=
  .moved rfl (patterns_below hitems)

theorem effect_refl (token : Token) (m : Machine) : Effect token m m :=
  effect_below (List.Sublist.refl _)

theorem meets_render (mode : Mode) (w : Waveform) :
    Meets (Effect token m) (·.span = token.span) (m.render mode w token.span) := by
  simp only [render]
  split
  · exact effect_below (List.nil_sublist _)
  · rename_i p hvalues
    refine Effect.moved rfl (List.Perm.subperm ?_)
    simp [patterns, hvalues]
  · cases h : charge { m with stack := [] }
        (.collect .sequence (StackItem.values m.stack)) token.span with
    | error e => exact charge_eq_error h
    | ok charged =>
      obtain ⟨hdepth, hlimit, rfl⟩ := charge_eq_ok h
      refine Effect.made (.collect .sequence (values_subset_patterns m)) hdepth rfl hlimit ?_
      have hissue (p : Pattern) :
          (m.commands.toList.map Command.pattern ++ [p]).Subperm (p :: m.patterns) :=
        (List.perm_append_singleton p _).subperm.trans
          ((List.subperm_cons p).2 (List.sublist_append_left _ _).subperm)
      simpa [patterns] using hissue (.collect .sequence (StackItem.values m.stack))

theorem meets_close (kind : Grouping) :
    Meets (Effect token m) (·.span = token.span) (m.close kind token.span) := by
  simp only [close]
  split
  · exact effect_refl token m
  · rename_i marker below hdrop
    have hbelow : below.Sublist m.stack :=
      (List.sublist_cons_self _ _).trans (hdrop ▸ List.drop_sublist _ _)
    have hinside : (m.stack.takeWhile (!·.isMarker kind)).Sublist m.stack :=
      List.takeWhile_sublist _
    exact meets_push hbelow (.collect kind
      (List.Subset.trans (StackItem.values_sublist hinside).subset (values_subset_patterns m)))

theorem meets_operate (op : Operator) :
    Meets (Effect token m) (·.span = token.span) (m.operate op token.span) := by
  simp only [operate]
  have htaken : StackItem.values (m.stack.take op.arity) ⊆ m.patterns :=
    List.Subset.trans (StackItem.values_sublist (List.take_sublist _ _)).subset
      (values_subset_patterns m)
  split
  · exact effect_refl token m
  · split
    · exact meets_push (List.drop_sublist _ _) (.degenerate op)
    · split
      · rfl
      · exact meets_push (List.drop_sublist _ _) (.operate op htaken)

theorem meets_execute (mode : Mode) {w : Word} (hmeaning : token.meaning = .builtin w) :
    Meets (Effect token m) (·.span = token.span) (m.execute mode w token.span) := by
  cases w with
  | render w => exact meets_render mode w
  | collect kind =>
    exact meets_push (List.nil_sublist _) (.collect kind (values_subset_patterns m))
  | opening kind =>
    refine Effect.moved rfl (List.Perm.subperm ?_)
    simp [patterns]
  | closing kind => exact meets_close kind
  | define => exact effect_refl token m
  | dup =>
    simp only [execute]
    split
    · rename_i p below hstack
      have hp : p ∈ m.patterns := values_subset_patterns m (by simp [hstack])
      exact meets_push (List.Sublist.refl _) (.copy hp)
    · refine Effect.moved rfl (List.Perm.subperm ?_)
      simp [patterns]
    · exact effect_refl token m
  | drop => exact effect_below (List.tail_sublist _)
  | swap =>
    simp only [execute]
    split
    · rename_i a b below hstack
      refine Effect.moved rfl (List.Perm.subperm ?_)
      have hswap : (b :: a :: below).reverse.Perm m.stack.reverse := by
        rw [hstack]
        exact ((List.reverse_perm _).trans (List.Perm.swap a b below)).trans
          (List.reverse_perm _).symm
      exact (hswap.filterMap _).append_left _
    · exact effect_refl token m
  | modify kind =>
    simp only [execute]
    split
    · rename_i amount p below hstack
      have hbelow : below.Sublist m.stack := by simp [hstack]
      have hamount : amount ∈ m.patterns := values_subset_patterns m (by simp [hstack])
      have hp : p ∈ m.patterns := values_subset_patterns m (by simp [hstack])
      exact meets_push hbelow (.modify kind hamount hp)
    · exact effect_refl token m
  | gain =>
    simp only [execute]
    split
    · rename_i amount p below hstack
      have hitems : (.value p :: below).Sublist m.stack := by simp [hstack]
      exact Effect.scaled (amount.resolve .zero).toNumber rfl
        ((patterns_value_perm p below).symm.subperm.trans (patterns_below hitems))
        (patterns_value_perm (p.scaleGain _) below).subperm
    · exact effect_refl token m
  | tempo =>
    simp only [execute]
    split
    · rename_i p below hstack
      have hbelow : below.Sublist m.stack := by simp [hstack]
      split
      · exact Effect.moved rfl (patterns_below hbelow)
      · exact effect_below hbelow
    · exact effect_refl token m
  | var v => exact meets_push (List.Sublist.refl _) (.literal (by rw [Token.literal?, hmeaning]))
  | operate op => exact meets_operate op

/-- Performing a token does no more than it may, and an error is at the token. -/
theorem meets_perform (mode : Mode) (token : Token) (m : Machine) :
    Meets (Effect token m) (·.span = token.span) (m.perform mode token) := by
  rw [perform]
  split
  · rename_i value hmeaning
    exact meets_push (List.Sublist.refl _) (.literal (by rw [Token.literal?, hmeaning]))
  · rename_i w hmeaning
    exact meets_execute mode hmeaning
  · rename_i s hmeaning
    exact meets_push (List.Sublist.refl _) (.literal (by rw [Token.literal?, hmeaning]))

end Steps

/-- What every effect on the patterns preserves holds in all states that a run of some tokens passes
through. If the run fails, it fails at one of these tokens. -/
theorem meets_trace_of_effect {S : Token → Prop} {P : Machine → Prop} {mode : Mode} {levels : Nat}
    {tokens : List Token} {m : Machine}
    (heffect : ∀ token m m', S token → P m → Effect token m m' → P m')
    (htable : ∀ definitions expanded m, P m → P (m.withTable definitions expanded))
    (htokens : ∀ token ∈ tokens, S token) (hm : P m) (hbodies : BodiesFrom S m.definitions) :
    (trace mode levels tokens m).Meets P fun e => ∃ token, S token ∧ e.span = token.span := by
  refine Trace.Meets.imp (meets_trace ?_ htable ?_ ?_ htokens hm hbodies) (fun m hm => hm.1)
    fun e he => he
  · intro token m htoken hm
    exact (meets_perform mode token m).imp (fun m' => heffect token m m' htoken hm)
      fun e he => ⟨token, htoken, he⟩
  · exact fun token htoken => ⟨token, htoken, rfl⟩
  · exact fun token name htoken => ⟨token, htoken, rfl⟩

end Machine

/-! ## Compiles -/

/-- The states that a compile passes through, after the first one. -/
def compileTrace (mode : Mode) (tempo : Float) (source : String) : Trace :=
  Machine.trace mode Limit.callDepth (Token.tokenize source) (.initial tempo)

theorem compile_eq_outcome (mode : Mode) (tempo : Float) (source : String) :
    compile mode tempo source = (compileTrace mode tempo source).outcome.map Machine.finish := by
  rw [compileTrace, Machine.outcome_trace, compile]

/-- What every effect of a token of the source preserves holds throughout a compile. If the compile
fails, it fails at a token of the source. -/
theorem meets_compileTrace {P : Machine → Prop} (mode : Mode) (tempo : Float) (source : String)
    (heffect : ∀ token m m', token ∈ Token.tokenize source → P m → Machine.Effect token m m' → P m')
    (htable : ∀ definitions expanded m, P m → P (m.withTable definitions expanded))
    (hinitial : P (.initial tempo)) :
    (compileTrace mode tempo source).Meets P
      fun e => ∃ token ∈ Token.tokenize source, e.span = token.span :=
  Machine.meets_trace_of_effect heffect htable (fun _ htoken => htoken) hinitial
    (Machine.bodiesFrom_empty _)

/-- The patterns of a program: those of its commands and then those left on the stack. -/
def Program.patterns (p : Program) : List Pattern :=
  p.commands.map Command.pattern ++ p.stack

/-- A compile that succeeds finishes a machine with whatever holds throughout. -/
theorem Trace.Meets.finish {P : Machine → Prop} {E : CompileError → Prop} {mode : Mode}
    {tempo : Float} {source : String} {program : Program}
    (h : (compileTrace mode tempo source).Meets P E)
    (hprogram : compile mode tempo source = .ok program) :
    ∃ m, P m ∧ m.finish = program := by
  obtain ⟨-, houtcome⟩ := h
  rw [compile_eq_outcome] at hprogram
  cases hend : (compileTrace mode tempo source).outcome with
  | error e =>
    rw [hend] at hprogram
    cases hprogram
  | ok m =>
    rw [hend] at hprogram houtcome
    exact ⟨m, houtcome, Except.ok.inj hprogram⟩

theorem Trace.Meets.fail {P : Machine → Prop} {E : CompileError → Prop} {mode : Mode}
    {tempo : Float} {source : String} {e : CompileError}
    (h : (compileTrace mode tempo source).Meets P E)
    (he : compile mode tempo source = .error e) : E e := by
  obtain ⟨-, houtcome⟩ := h
  rw [compile_eq_outcome] at he
  cases hend : (compileTrace mode tempo source).outcome with
  | error e' =>
    rw [hend] at he houtcome
    exact Except.error.inj he ▸ houtcome
  | ok m =>
    rw [hend] at he
    cases he

end PatternSynth
