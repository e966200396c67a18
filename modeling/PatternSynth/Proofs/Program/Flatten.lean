import PatternSynth.Program.Machine

/-!
# Definitions can be expanded before anything is run

`Token.role` tells what a token is to the machine: it is performed, it starts a definition, or it
calls one. `flatten` looks only at the roles and at the table of definitions. It gives the tokens
that are performed, in their order, and counts those that come from bodies. The main result of this
file is that a run comes to the same as a run of the flattened tokens, as long as the flattening
stays within the limits on definitions, which it does whenever the run succeeds.
-/

namespace PatternSynth

/-- The bodies of definitions by name. -/
abbrev Definitions := Std.HashMap String (List Token)

/-- What a token is to the machine. -/
inductive Role where
  /-- The token acts on the stack. -/
  | performed
  /-- The token starts a definition. -/
  | definition
  | call (name : String) (body : List Token)

/-- The role of a token while these definitions stand. -/
def Token.role (definitions : Definitions) (token : Token) : Role :=
  match token.meaning with
  | .literal _ => .performed
  | .builtin .define => .definition
  | .builtin _ => .performed
  | .name s =>
    match definitions[s]? with
    | none => .performed
    | some body => .call s body

/-- Read a definition after its opening token: the tokens after it, and the definitions with it. A
definition that is not closed goes on to the end, and one without a name is none. -/
def readDefinition (definitions : Definitions) : List Token → List Token × Definitions
  | [] => ([], definitions)
  | name :: after =>
    let body := after.takeWhile (!·.isSemicolon)
    (after.drop (body.length + 1), definitions.insert name.text body)

theorem length_readDefinition_le (definitions : Definitions) (tokens : List Token) :
    (readDefinition definitions tokens).1.length ≤ tokens.length := by
  cases tokens with
  | nil => exact Nat.le_refl 0
  | cons name after =>
    simp only [readDefinition, List.length_drop, List.length_cons]
    omega

/-! ## Flattening -/

/-- Tokens without definitions, the definitions as they are after the tokens, and how many tokens
were read from bodies. -/
structure Flattening where
  tokens : List Token
  definitions : Definitions
  expanded : Nat

namespace Flattening

/-- Put a token that is performed in front. -/
def emit (token : Token) (f : Flattening) : Flattening :=
  { f with tokens := token :: f.tokens }

/-- Put the flattening of a body in front. -/
def splice (inner f : Flattening) : Flattening :=
  ⟨inner.tokens ++ f.tokens, f.definitions, inner.expanded + f.expanded⟩

/-- Count more tokens from bodies. -/
def count (n : Nat) (f : Flattening) : Flattening :=
  { f with expanded := n + f.expanded }

end Flattening

/-- How much a token counts with `levels` levels of calls left. -/
def bodyCost (levels : Nat) : Nat :=
  if levels < Limit.callDepth then 1 else 0

/-- Replace calls by the bodies of their definitions as they stand when they are reached, with
`levels` levels of calls left. -/
def flatten (levels : Nat) (tokens : List Token) (definitions : Definitions) : Option Flattening :=
  match tokens with
  | [] => some ⟨[], definitions, 0⟩
  | token :: rest =>
    match token.role definitions with
    | .performed =>
      (flatten levels rest definitions).map fun f => (f.emit token).count (bodyCost levels)
    | .definition =>
      (flatten levels (readDefinition definitions rest).1 (readDefinition definitions rest).2).map
        fun f => f.count (bodyCost levels)
    | .call _ body =>
      match levels with
      | 0 => none
      | fewer + 1 =>
        (flatten fewer body definitions).bind fun inner =>
          (flatten (fewer + 1) rest inner.definitions).map fun f =>
            (inner.splice f).count (bodyCost (fewer + 1))
termination_by (levels, tokens.length)
decreasing_by
  all_goals
    have := length_readDefinition_le definitions rest
    simp_wf
    omega

namespace Machine

/-! ## Steps of the machine -/

/-- What a token that is performed does. -/
def perform (mode : Mode) (m : Machine) (token : Token) : Except CompileError Machine :=
  match token.meaning with
  | .literal value => m.push (.literal value token.span) token.span
  | .builtin w => m.execute mode w token.span
  | .name s => m.push (.literal (.word s) token.span) token.span

/-- Count a token, if it is from a body. -/
def enter (levels : Nat) (m : Machine) (span : Span) : Except CompileError Machine :=
  if levels < Limit.callDepth then m.expand span else .ok m

theorem run_nil (mode : Mode) (levels : Nat) (m : Machine) : run mode levels [] m = .ok m := by
  rw [run]

/-- A run goes by the roles of its tokens. -/
theorem run_cons (mode : Mode) (levels : Nat) (token : Token) (rest : List Token) (m : Machine) :
    run mode levels (token :: rest) m =
      (m.enter levels token.span).bind fun m =>
        match token.role m.definitions with
        | .performed => (m.perform mode token).bind (run mode levels rest)
        | .definition =>
          run mode levels (readDefinition m.definitions rest).1
            { m with definitions := (readDefinition m.definitions rest).2 }
        | .call s body =>
          match levels with
          | 0 => .error ⟨.callDepth s, token.span⟩
          | fewer + 1 => (run mode fewer body m).bind (run mode (fewer + 1) rest) := by
  rw [run, enter]
  cases (if levels < Limit.callDepth then m.expand token.span else .ok m) with
  | error e => rfl
  | ok m =>
    simp only [Except.bind, Token.role, perform]
    cases token.meaning with
    | literal value =>
      simp only
      cases m.push (.literal value token.span) token.span <;> rfl
    | builtin w =>
      cases w with
      | define =>
        cases rest with
        | nil => simp [readDefinition, run_nil]
        | cons name after => rfl
      | _ =>
        simp only
        split
        · rename_i e hexecute
          rw [hexecute]
        · rename_i m' hexecute
          rw [hexecute]
    | name s =>
      cases hbody : m.definitions[s]? with
      | none =>
        simp only [hbody]
        cases m.push (.literal (.word s) token.span) token.span <;> rfl
      | some body =>
        simp only [hbody]
        cases levels with
        | zero => rfl
        | succ fewer =>
          simp only
          cases run mode fewer body m <;> rfl

/-! ## Updates that words on the stack do not notice -/

/-- The update is about something else than the stack and the count of nodes built. -/
structure IsAside (u : Machine → Machine) : Prop where
  stack_eq : ∀ m, (u m).stack = m.stack
  built_eq : ∀ m, (u m).built = m.built
  setStack : ∀ m stack, { u m with stack } = u { m with stack }
  setBuilt : ∀ m built, { u m with built } = u { m with built }

namespace IsAside

variable {u : Machine → Machine} (hu : IsAside u) (m : Machine) (span : Span)

include hu

theorem charge (p : Pattern) : (u m).charge p span = (m.charge p span).map u := by
  simp only [Machine.charge, hu.built_eq, hu.setBuilt]
  split
  · rfl
  · split <;> rfl

theorem push (p : Pattern) : (u m).push p span = (m.push p span).map u := by
  simp only [Machine.push, hu.charge]
  cases m.charge p span with
  | error e => rfl
  | ok m =>
    simp only [Except.map, bind, Except.bind, pure, Except.pure, hu.stack_eq, hu.setStack]

theorem push_below (stack : List StackItem) (p : Pattern) :
    Machine.push { u m with stack } p span = (Machine.push { m with stack } p span).map u := by
  rw [hu.setStack]
  exact hu.push _ span p

theorem close (kind : Grouping) : (u m).close kind span = (m.close kind span).map u := by
  simp only [Machine.close, hu.stack_eq]
  split
  · rfl
  · exact hu.push_below m span _ _

theorem operate (op : Operator) : (u m).operate op span = (m.operate op span).map u := by
  simp only [Machine.operate, hu.stack_eq]
  split
  · rfl
  · split
    · exact hu.push_below m span _ _
    · split
      · rfl
      · exact hu.push_below m span _ _

/-- Of the words, only those that render and the one that sets the tempo act on more than the
stack. -/
theorem execute (mode : Mode) {w : Word} (hrender : ∀ waveform, w ≠ .render waveform)
    (htempo : w ≠ .tempo) : (u m).execute mode w span = (m.execute mode w span).map u := by
  cases w with
  | render waveform => exact (hrender waveform rfl).elim
  | tempo => exact (htempo rfl).elim
  | collect kind =>
    simp only [Machine.execute, hu.stack_eq]
    exact hu.push_below m span [] _
  | closing kind => exact hu.close m span kind
  | opening | drop =>
    simp only [Machine.execute, hu.stack_eq, hu.setStack]
    rfl
  | define => rfl
  | dup =>
    simp only [Machine.execute, hu.stack_eq, hu.setStack]
    split
    · exact hu.push m span _
    · rfl
    · rfl
  | modify kind =>
    simp only [Machine.execute, hu.stack_eq]
    split
    · exact hu.push_below m span _ _
    · rfl
  | swap | gain =>
    simp only [Machine.execute, hu.stack_eq, hu.setStack]
    split <;> rfl
  | var v => exact hu.push m span _
  | operate op => exact hu.operate m span op

end IsAside

/-! ## Performing a token has nothing to do with definitions -/

/-- The machine with other definitions and another count of tokens from bodies. -/
def withTable (definitions : Definitions) (expanded : Nat) (m : Machine) : Machine :=
  { m with definitions, expanded }

section Table

variable (definitions : Definitions) (expanded : Nat) (m : Machine) (span : Span)

@[simp] theorem definitions_withTable :
    (m.withTable definitions expanded).definitions = definitions := rfl

theorem isAside_withTable : IsAside (withTable definitions expanded) :=
  ⟨fun _ => rfl, fun _ => rfl, fun _ _ => rfl, fun _ _ => rfl⟩

theorem render_withTable (mode : Mode) (w : Waveform) :
    (m.withTable definitions expanded).render mode w span =
      (m.render mode w span).map (withTable definitions expanded) := by
  have haside := isAside_withTable definitions expanded
  simp only [render, haside.stack_eq, haside.setStack]
  split
  · rfl
  · rfl
  · rw [haside.charge]
    cases charge { m with stack := [] } (.collect .sequence (StackItem.values m.stack)) span <;> rfl

theorem execute_withTable (mode : Mode) (w : Word) :
    (m.withTable definitions expanded).execute mode w span =
      (m.execute mode w span).map (withTable definitions expanded) := by
  have haside := isAside_withTable definitions expanded
  cases w with
  | render w => exact render_withTable definitions expanded m span mode w
  | tempo =>
    simp only [execute, haside.stack_eq]
    split
    · split <;> rfl
    · rfl
  | _ => exact haside.execute m span mode (fun _ h => by cases h) (fun h => by cases h)

theorem perform_withTable (mode : Mode) (token : Token) :
    (m.withTable definitions expanded).perform mode token =
      (m.perform mode token).map (withTable definitions expanded) := by
  simp only [perform]
  split
  · exact (isAside_withTable definitions expanded).push m _ _
  · exact execute_withTable definitions expanded m _ mode _
  · exact (isAside_withTable definitions expanded).push m _ _

end Table

/-- Perform tokens one after another. -/
def performAll (mode : Mode) (tokens : List Token) (m : Machine) : Except CompileError Machine :=
  tokens.foldlM (perform mode) m

theorem performAll_cons (mode : Mode) (token : Token) (tokens : List Token) (m : Machine) :
    performAll mode (token :: tokens) m = (m.perform mode token).bind (performAll mode tokens) :=
  List.foldlM_cons

theorem performAll_append (mode : Mode) (tokens tokens' : List Token) (m : Machine) :
    performAll mode (tokens ++ tokens') m =
      (performAll mode tokens m).bind (performAll mode tokens') :=
  List.foldlM_append

theorem performAll_withTable (mode : Mode) (definitions : Definitions) (expanded : Nat)
    (tokens : List Token) (m : Machine) :
    performAll mode tokens (m.withTable definitions expanded) =
      (performAll mode tokens m).map (withTable definitions expanded) := by
  induction tokens generalizing m with
  | nil => rfl
  | cons token tokens ih =>
    rw [performAll_cons, performAll_cons, perform_withTable]
    cases m.perform mode token with
    | error e => rfl
    | ok m => exact ih m

/-- Performing tokens with another table and then setting the table is performing them and setting
the table. -/
theorem map_performAll_withTable (mode : Mode) (definitions definitions' : Definitions)
    (expanded expanded' : Nat) (tokens : List Token) (m : Machine) :
    (performAll mode tokens (m.withTable definitions expanded)).map
        (withTable definitions' expanded') =
      (performAll mode tokens m).map (withTable definitions' expanded') := by
  rw [performAll_withTable]
  cases performAll mode tokens m <;> rfl

/-! ## Running and flattening -/

theorem enter_of_le {levels : Nat} {m : Machine} (span : Span)
    (h : m.expanded + bodyCost levels ≤ Limit.expandedTokens) :
    m.enter levels span = .ok (m.withTable m.definitions (m.expanded + bodyCost levels)) := by
  rw [bodyCost] at h ⊢
  rw [enter]
  by_cases hbody : levels < Limit.callDepth
  · rw [if_pos hbody] at h
    rw [if_pos hbody, if_pos hbody, expand, if_neg (Nat.not_lt.2 h)]
    rfl
  · rw [if_neg hbody, if_neg hbody]
    rfl

/-- A run that succeeds does not count more tokens from bodies than there may be. -/
theorem cost_le_of_run_eq_ok {mode : Mode} {levels : Nat} {token : Token} {rest : List Token}
    {m m' : Machine} (h : run mode levels (token :: rest) m = .ok m')
    (hlimit : m.expanded ≤ Limit.expandedTokens) :
    m.expanded + bodyCost levels ≤ Limit.expandedTokens := by
  rw [run_cons, enter] at h
  rw [bodyCost]
  by_cases hbody : levels < Limit.callDepth
  · rw [if_pos hbody, expand] at h
    rw [if_pos hbody]
    by_cases hover : m.expanded + 1 > Limit.expandedTokens
    · rw [if_pos hover] at h
      cases h
    · exact Nat.not_lt.1 hover
  · rw [if_neg hbody]
    exact hlimit

section Roles

variable {mode : Mode} {levels : Nat} {token : Token} {rest : List Token} {m : Machine}

theorem run_performed (hrole : token.role m.definitions = .performed)
    (hcost : m.expanded + bodyCost levels ≤ Limit.expandedTokens) :
    run mode levels (token :: rest) m =
      (m.perform mode token).bind fun m' =>
        run mode levels rest (m'.withTable m.definitions (m.expanded + bodyCost levels)) := by
  rw [run_cons, enter_of_le token.span hcost]
  simp only [Except.bind, definitions_withTable, hrole, perform_withTable]
  cases m.perform mode token <;> rfl

theorem run_definition (hrole : token.role m.definitions = .definition)
    (hcost : m.expanded + bodyCost levels ≤ Limit.expandedTokens) :
    run mode levels (token :: rest) m =
      run mode levels (readDefinition m.definitions rest).1
        (m.withTable (readDefinition m.definitions rest).2 (m.expanded + bodyCost levels)) := by
  rw [run_cons, enter_of_le token.span hcost]
  simp only [Except.bind, definitions_withTable, hrole]
  rfl

theorem run_call {name : String} {body : List Token}
    (hrole : token.role m.definitions = .call name body)
    (hcost : m.expanded + bodyCost (levels + 1) ≤ Limit.expandedTokens) :
    run mode (levels + 1) (token :: rest) m =
      (run mode levels body
        (m.withTable m.definitions (m.expanded + bodyCost (levels + 1)))).bind
          (run mode (levels + 1) rest) := by
  rw [run_cons, enter_of_le token.span hcost]
  simp only [Except.bind, definitions_withTable, hrole]

end Roles

/-- A run whose flattening is within the limits performs the flattened tokens. -/
theorem run_eq_performAll (mode : Mode) {levels : Nat} {tokens : List Token}
    {definitions : Definitions} {f : Flattening} {m : Machine}
    (hf : flatten levels tokens definitions = some f) (hm : m.definitions = definitions)
    (hlimit : m.expanded + f.expanded ≤ Limit.expandedTokens) :
    run mode levels tokens m =
      (performAll mode f.tokens m).map (withTable f.definitions (m.expanded + f.expanded)) := by
  induction levels, tokens, definitions using flatten.induct generalizing f m with
  | case1 levels definitions =>
    rw [flatten] at hf
    obtain rfl := Option.some.inj hf
    subst hm
    exact run_nil mode levels m
  | case2 levels definitions token rest hrole ih =>
    subst hm
    simp only [flatten, hrole] at hf
    obtain ⟨g, hg, rfl⟩ := Option.map_eq_some_iff.1 hf
    simp only [Flattening.count, Flattening.emit, ← Nat.add_assoc] at hlimit ⊢
    rw [run_performed hrole (by omega), performAll_cons]
    cases m.perform mode token with
    | error e => rfl
    | ok m' =>
      have hrest := ih (m := m'.withTable m.definitions (m.expanded + bodyCost levels)) hg rfl
        hlimit
      exact hrest.trans (map_performAll_withTable mode _ _ _ _ g.tokens m')
  | case3 levels definitions token rest hrole ih =>
    subst hm
    simp only [flatten, hrole] at hf
    obtain ⟨g, hg, rfl⟩ := Option.map_eq_some_iff.1 hf
    simp only [Flattening.count, ← Nat.add_assoc] at hlimit ⊢
    rw [run_definition hrole (by omega)]
    have hrest := ih (m := m.withTable _ (m.expanded + bodyCost levels)) hg rfl hlimit
    exact hrest.trans (map_performAll_withTable mode _ _ _ _ g.tokens m)
  | case4 definitions token rest name body hrole =>
    simp only [flatten, hrole] at hf
    cases hf
  | case5 definitions token rest name body hrole fewer ihbody ihrest =>
    subst hm
    simp only [flatten, hrole] at hf
    obtain ⟨inner, hinner, hf⟩ := Option.bind_eq_some_iff.1 hf
    obtain ⟨g, hg, rfl⟩ := Option.map_eq_some_iff.1 hf
    simp only [Flattening.count, Flattening.splice, ← Nat.add_assoc] at hlimit ⊢
    have hbody := ihbody (m := m.withTable m.definitions (m.expanded + bodyCost (fewer + 1)))
      hinner rfl (Nat.le_of_add_right_le hlimit)
    rw [run_call hrole (by omega), hbody, map_performAll_withTable, performAll_append]
    cases performAll mode inner.tokens m with
    | error e => rfl
    | ok m' =>
      have hrest := ihrest inner (m := m'.withTable inner.definitions _) hg rfl hlimit
      exact hrest.trans (map_performAll_withTable mode _ _ _ _ g.tokens m')

/-- A run that succeeds has a flattening within the limits. -/
theorem flatten_of_run_eq_ok {mode : Mode} {levels : Nat} {tokens : List Token}
    {definitions : Definitions} {m m' : Machine} (h : run mode levels tokens m = .ok m')
    (hm : m.definitions = definitions) (hlimit : m.expanded ≤ Limit.expandedTokens) :
    ∃ f, flatten levels tokens definitions = some f ∧ m'.definitions = f.definitions ∧
      m'.expanded = m.expanded + f.expanded ∧ m'.expanded ≤ Limit.expandedTokens := by
  induction levels, tokens, definitions using flatten.induct generalizing m m' with
  | case1 levels definitions =>
    rw [run_nil] at h
    obtain rfl := Except.ok.inj h
    exact ⟨⟨[], definitions, 0⟩, by rw [flatten], hm, rfl, hlimit⟩
  | case2 levels definitions token rest hrole ih =>
    subst hm
    have hcost := cost_le_of_run_eq_ok h hlimit
    rw [run_performed hrole hcost] at h
    cases hperform : m.perform mode token with
    | error e =>
      rw [hperform] at h
      cases h
    | ok m₁ =>
      rw [hperform] at h
      obtain ⟨g, hg, hdefinitions, hexpanded, hle⟩ := ih h rfl hcost
      refine ⟨(g.emit token).count (bodyCost levels), ?_, hdefinitions, ?_, hle⟩
      · simp only [flatten, hrole, hg, Option.map_some]
      · exact hexpanded.trans (Nat.add_assoc _ _ _)
  | case3 levels definitions token rest hrole ih =>
    subst hm
    have hcost := cost_le_of_run_eq_ok h hlimit
    rw [run_definition hrole hcost] at h
    obtain ⟨g, hg, hdefinitions, hexpanded, hle⟩ := ih h rfl hcost
    refine ⟨g.count (bodyCost levels), ?_, hdefinitions, ?_, hle⟩
    · simp only [flatten, hrole, hg, Option.map_some]
    · exact hexpanded.trans (Nat.add_assoc _ _ _)
  | case4 definitions token rest name body hrole =>
    subst hm
    have hcost := cost_le_of_run_eq_ok h hlimit
    rw [run_cons, enter_of_le token.span hcost] at h
    simp only [Except.bind, definitions_withTable, hrole] at h
    cases h
  | case5 definitions token rest name body hrole fewer ihbody ihrest =>
    subst hm
    have hcost := cost_le_of_run_eq_ok h hlimit
    rw [run_call hrole hcost] at h
    cases hbody : run mode fewer body
        (m.withTable m.definitions (m.expanded + bodyCost (fewer + 1))) with
    | error e =>
      rw [hbody] at h
      cases h
    | ok m₁ =>
      rw [hbody] at h
      obtain ⟨inner, hinner, hdefinitions₁, hexpanded₁, hle₁⟩ := ihbody hbody rfl hcost
      obtain ⟨g, hg, hdefinitions, hexpanded, hle⟩ := ihrest inner h hdefinitions₁ hle₁
      refine ⟨(inner.splice g).count (bodyCost (fewer + 1)), ?_, hdefinitions, ?_, hle⟩
      · simp only [flatten, hrole, hinner, Option.bind_some, hg, Option.map_some]
      · rw [hexpanded, hexpanded₁]
        simp only [withTable, Flattening.count, Flattening.splice, Nat.add_assoc]

/-! ## Flattened tokens -/

theorem role_empty {definitions : Definitions} {token : Token}
    (h : token.role definitions = .performed) : token.role ∅ = .performed := by
  rw [Token.role] at h ⊢
  cases hmeaning : token.meaning with
  | literal value => rfl
  | builtin w =>
    rw [hmeaning] at h
    cases w <;> first | rfl | cases h
  | name s => simp only [Std.HashMap.getElem?_empty]

/-- Flattened tokens start no definition and call none. -/
theorem role_of_mem_flatten {levels : Nat} {tokens : List Token} {definitions : Definitions}
    {f : Flattening} (hf : flatten levels tokens definitions = some f) :
    ∀ token ∈ f.tokens, token.role ∅ = .performed := by
  induction levels, tokens, definitions using flatten.induct generalizing f with
  | case1 levels definitions =>
    rw [flatten] at hf
    obtain rfl := Option.some.inj hf
    exact fun token htoken => (List.not_mem_nil htoken).elim
  | case2 levels definitions token rest hrole ih =>
    simp only [flatten, hrole] at hf
    obtain ⟨g, hg, rfl⟩ := Option.map_eq_some_iff.1 hf
    exact List.forall_mem_cons.2 ⟨role_empty hrole, ih hg⟩
  | case3 levels definitions token rest hrole ih =>
    simp only [flatten, hrole] at hf
    obtain ⟨g, hg, rfl⟩ := Option.map_eq_some_iff.1 hf
    exact fun token htoken => ih hg token htoken
  | case4 definitions token rest name body hrole =>
    simp only [flatten, hrole] at hf
    cases hf
  | case5 definitions token rest name body hrole fewer ihbody ihrest =>
    simp only [flatten, hrole] at hf
    obtain ⟨inner, hinner, hf⟩ := Option.bind_eq_some_iff.1 hf
    obtain ⟨g, hg, rfl⟩ := Option.map_eq_some_iff.1 hf
    exact List.forall_mem_append.2 ⟨ihbody hinner, ihrest inner hg⟩

/-- Tokens that are all performed are flat. -/
theorem flatten_of_performed {tokens : List Token}
    (h : ∀ token ∈ tokens, token.role ∅ = .performed) :
    flatten Limit.callDepth tokens ∅ = some ⟨tokens, ∅, 0⟩ := by
  induction tokens with
  | nil => rw [flatten]
  | cons token tokens ih =>
    obtain ⟨hrole, htokens⟩ := List.forall_mem_cons.1 h
    simp only [flatten, hrole, ih htokens, Option.map_some]
    rfl

/-- A run comes to the same as a run of the flattened tokens: whenever it succeeds, and also when it
fails as long as the flattening is within the limits on definitions. The flattened tokens leave no
definitions and count no tokens from bodies. -/
theorem run_flatten (mode : Mode) (tempo : Float) (tokens : List Token) :
    (∀ m, run mode Limit.callDepth tokens (.initial tempo) = .ok m →
      ∃ f, flatten Limit.callDepth tokens ∅ = some f ∧
        (∀ token ∈ f.tokens, token.role ∅ = .performed) ∧
        run mode Limit.callDepth f.tokens (.initial tempo) = .ok (m.withTable ∅ 0)) ∧
      ∀ f, flatten Limit.callDepth tokens ∅ = some f → f.expanded ≤ Limit.expandedTokens →
        run mode Limit.callDepth f.tokens (.initial tempo) =
          (run mode Limit.callDepth tokens (.initial tempo)).map (withTable ∅ 0) := by
  have hflat : ∀ f, flatten Limit.callDepth tokens ∅ = some f →
      f.expanded ≤ Limit.expandedTokens →
      run mode Limit.callDepth f.tokens (.initial tempo) =
        (run mode Limit.callDepth tokens (.initial tempo)).map (withTable ∅ 0) := by
    intro f hf hlimit
    have hrun := run_eq_performAll mode (m := .initial tempo) hf rfl
      ((Nat.zero_add _).symm ▸ hlimit)
    have hrun' := run_eq_performAll mode (m := .initial tempo)
      (flatten_of_performed (role_of_mem_flatten hf)) rfl (Nat.zero_le _)
    rw [hrun, hrun']
    cases performAll mode f.tokens (.initial tempo) <;> rfl
  refine ⟨?_, hflat⟩
  intro m hm
  obtain ⟨f, hf, -, hexpanded, hle⟩ := flatten_of_run_eq_ok hm rfl (Nat.zero_le _)
  have hlimit : f.expanded ≤ Limit.expandedTokens := by
    rw [hexpanded] at hle
    exact Nat.le_of_add_left_le hle
  refine ⟨f, hf, role_of_mem_flatten hf, ?_⟩
  rw [hflat f hf hlimit, hm]
  rfl

end Machine

end PatternSynth
