import PatternSynth.Proofs.Program.Trace

/-!
# What a compile makes of a source text depends on nothing else

A compile starts from a tempo and is for playing or for showing, and it keeps a tempo and a list of
samples to fetch. Nothing that it does looks at them: machines with the same `core`, which is all
the rest, go on in the same way in either mode, up to the same error if there is one (`run_core`).
So the commands and the stack of a program, and whether and how a compile fails, are a matter of the
source text alone (`compile_core`).
-/

namespace PatternSynth

namespace Machine

/-- The machine without tempo and without samples to fetch. -/
def core (m : Machine) : Machine :=
  { m with tempo := 0, requests := #[] }

theorem isAside_core : IsAside core :=
  ⟨fun _ => rfl, fun _ => rfl, fun _ _ => rfl, fun _ _ => rfl⟩

/-- The outcome without tempo and without samples to fetch. -/
def coreOf (r : Except CompileError Machine) : Except CompileError Machine :=
  r.map core

theorem coreOf_map_core (r : Except CompileError Machine) : coreOf (r.map core) = coreOf r := by
  cases r <;> rfl

theorem coreOf_bind {r r' : Except CompileError Machine}
    {f f' : Machine → Except CompileError Machine} (h : coreOf r = coreOf r')
    (hf : ∀ m m', m.core = m'.core → coreOf (f m) = coreOf (f' m')) :
    coreOf (r.bind f) = coreOf (r'.bind f') := by
  cases r with
  | error e =>
    cases r' with
    | error e' => exact congrArg Except.error (Except.error.inj h)
    | ok m' => cases h
  | ok m =>
    cases r' with
    | error e' => cases h
    | ok m' => exact hf m m' (Except.ok.inj h)

/-! ## Tokens -/

variable (mode mode' : Mode) {m m' : Machine}

theorem coreOf_render (m : Machine) (w : Waveform) (span : Span) :
    coreOf (m.core.render mode' w span) = coreOf (m.render mode w span) := by
  simp only [render, isAside_core.stack_eq, isAside_core.setStack]
  split
  · rfl
  · rfl
  · rw [isAside_core.charge]
    cases charge { m with stack := [] } (.collect .sequence (StackItem.values m.stack)) span <;> rfl

theorem coreOf_execute (m : Machine) (w : Word) (span : Span) :
    coreOf (m.core.execute mode' w span) = coreOf (m.execute mode w span) := by
  cases w with
  | render w => exact coreOf_render mode mode' m w span
  | tempo =>
    simp only [execute, isAside_core.stack_eq]
    split
    · split <;> rfl
    · rfl
  | _ =>
    refine Eq.trans (congrArg coreOf (isAside_core.execute m span mode' ?_ ?_)) ?_
    · exact fun _ hrender => by cases hrender
    · exact fun htempo => by cases htempo
    · rw [coreOf_map_core]
      rfl

theorem coreOf_perform (m : Machine) (token : Token) :
    coreOf (m.core.perform mode' token) = coreOf (m.perform mode token) := by
  simp only [perform]
  split
  · rw [isAside_core.push, coreOf_map_core]
  · exact coreOf_execute mode mode' m _ token.span
  · rw [isAside_core.push, coreOf_map_core]

theorem coreOf_enter (levels : Nat) (h : m.core = m'.core) (span : Span) :
    coreOf (m.enter levels span) = coreOf (m'.enter levels span) := by
  have hexpanded : m.expanded = m'.expanded := (congrArg Machine.expanded h :)
  simp only [enter, expand, hexpanded]
  split
  · split
    · rfl
    · exact congrArg (fun m => Except.ok { m with expanded := m'.expanded + 1 }) h
  · exact congrArg Except.ok h

/-! ## Runs -/

/-- Machines with the same core go on in the same way, in either mode and from either tempo. -/
theorem run_core (levels : Nat) (tokens : List Token) (h : m.core = m'.core) :
    coreOf (run mode levels tokens m) = coreOf (run mode' levels tokens m') := by
  induction levels, tokens, m using trace.induct generalizing m' with
  | case1 levels m =>
    rw [run_nil, run_nil]
    exact congrArg Except.ok h
  | case2 levels m token rest ihrest ihafter ihcall =>
    -- The table of definitions is in the core, so that both machines read the token in one role.
    rw [run_cons, run_cons]
    refine coreOf_bind (coreOf_enter levels h token.span) fun entered entered' hentered => ?_
    have hdefinitions : entered'.definitions = entered.definitions :=
      (congrArg Machine.definitions hentered.symm :)
    rw [hdefinitions]
    cases token.role entered.definitions with
    | performed =>
      refine coreOf_bind ?_ fun m m' hm => ihrest m hm
      rw [← coreOf_perform mode mode, ← coreOf_perform mode' mode, hentered]
    | definition =>
      refine ihafter entered { entered with definitions := _ } ?_
      let table := (readDefinition entered.definitions rest).2
      exact congrArg (fun m => { m with definitions := table }) hentered
    | call s body =>
      have ih := ihcall entered body
      cases levels with
      | zero => rfl
      | succ fewer => exact coreOf_bind (ih.1 hentered) fun m m' hm => ih.2 m hm

end Machine

/-- The commands and the stack that a source text compiles to, or the error that it ends with, are
the same whatever the compile is for and whatever the tempo. -/
theorem compile_core (mode mode' : Mode) (tempo tempo' : Float) (source : String) :
    (compile mode tempo source).map (fun p => (p.commands, p.stack)) =
      (compile mode' tempo' source).map fun p => (p.commands, p.stack) := by
  have hinitial : (Machine.initial tempo).core = (Machine.initial tempo').core := rfl
  have hrun := Machine.run_core mode mode' Limit.callDepth (Token.tokenize source) hinitial
  have hparts (r : Except CompileError Machine) :
      (r.map Machine.finish).map (fun p => (p.commands, p.stack)) =
        (Machine.coreOf r).map fun m => (m.commands.toList, StackItem.values m.stack) := by
    cases r <;> rfl
  rw [compile, compile, hparts, hparts, hrun]

end PatternSynth
