import PatternSynth.Proofs.Program.Core
import PatternSynth.Proofs.Program.Output

/-!
# A reply shows what would be played

A source text can be compiled to be played, or only to be shown. Which of the two it is, and the
tempo that is current, make no difference to the commands and the stack (`compile_core`). They make
as little difference to the tempos that the source text sets: whether a run sets one, and which one
it sets last, is a matter of the core of the machine (`exists_setsTempo_run`). So there is one tempo
for each source text, or none, and each compile ends with it or with the tempo it started from.
-/

namespace PatternSynth

/-- The tempo that a token sets on a stack, if it sets one. -/
def Token.setting? (token : Token) (stack : List StackItem) : Option Float :=
  match token.meaning, stack with
  | .builtin .tempo, .value p :: _ =>
    let tempo := (p.resolve .zero).toNumber
    if tempo.isFinite && tempo > 0 then some tempo else none
  | _, _ => none

namespace Machine

/-! ## Tokens -/

/-- The machine at another tempo. -/
def withTempo (tempo : Float) (m : Machine) : Machine :=
  { m with tempo }

theorem isAside_withTempo (tempo : Float) : IsAside (withTempo tempo) :=
  ⟨fun _ => rfl, fun _ => rfl, fun _ _ => rfl, fun _ _ => rfl⟩

theorem render_withTempo (tempo : Float) (m : Machine) (mode : Mode) (w : Waveform) (span : Span) :
    (m.withTempo tempo).render mode w span = (m.render mode w span).map (withTempo tempo) := by
  have haside := isAside_withTempo tempo
  simp only [render, haside.stack_eq, haside.setStack]
  split
  · rfl
  · rfl
  · rw [haside.charge]
    cases charge { m with stack := [] } (.collect .sequence (StackItem.values m.stack)) span <;> rfl

theorem execute_withTempo (tempo : Float) (m : Machine) (mode : Mode) {w : Word} (span : Span)
    (hw : w ≠ .tempo) :
    (m.withTempo tempo).execute mode w span = (m.execute mode w span).map (withTempo tempo) := by
  by_cases hrender : ∃ waveform, w = .render waveform
  · obtain ⟨waveform, rfl⟩ := hrender
    exact render_withTempo tempo m mode waveform span
  · exact (isAside_withTempo tempo).execute m span mode (not_exists.1 hrender) hw

variable {mode : Mode} {m m' : Machine}

/-- What goes on in the same way at any tempo leaves the tempo alone. -/
theorem tempo_of_withTempo {result result' : Except CompileError Machine}
    (hsame : result' = result.map (withTempo m.tempo)) (hself : result' = result)
    (h : result = .ok m') : m'.tempo = m.tempo := by
  rw [hself, h] at hsame
  rw [Except.ok.inj hsame]
  rfl

/-- After a token the tempo is the one that the token sets, or else the one before it. -/
theorem tempo_perform {token : Token} (h : m.perform mode token = .ok m') :
    m'.tempo = (token.setting? m.stack).getD m.tempo := by
  have haside := isAside_withTempo m.tempo
  simp only [perform] at h
  simp only [Token.setting?]
  split at h
  · rename_i value hmeaning
    rw [hmeaning]
    exact tempo_of_withTempo (haside.push m token.span _) rfl h
  · rename_i w hmeaning
    rw [hmeaning]
    by_cases hw : w = .tempo
    · subst hw
      simp only [execute] at h
      split at h
      · rename_i p below hstack
        cases h
        simp only [hstack]
        split <;> rfl
      · rename_i hstack
        cases h
        split
        · rename_i hvalue
          exact (hstack _ _ hvalue).elim
        · rfl
    · have htempo := tempo_of_withTempo (execute_withTempo m.tempo m mode token.span hw) rfl h
      split
      · rename_i hword _
        cases hword
        exact (hw rfl).elim
      · exact htempo
  · rename_i s hmeaning
    rw [hmeaning]
    exact tempo_of_withTempo (haside.push m token.span _) rfl h

theorem tempo_enter {levels : Nat} {span : Span} (h : m.enter levels span = .ok m') :
    m'.tempo = m.tempo := by
  simp only [enter, expand] at h
  split at h
  · split at h
    · cases h
    · cases h
      rfl
  · cases h
    rfl

theorem isTempo_of_setting? {token : Token} {stack : List StackItem} {x : Float}
    (h : token.setting? stack = some x) : x.isFinite = true ∧ x > 0 := by
  simp only [Token.setting?] at h
  split at h
  · split at h
    · rename_i htempo
      cases h
      obtain ⟨hfinite, hpositive⟩ := Bool.and_eq_true_iff.1 htempo
      exact ⟨hfinite, of_decide_eq_true hpositive⟩
    · cases h
  · cases h

/-! ## Runs -/

/-- On every machine with the core of `m`, and in either mode, a computation that succeeds ends with
the tempo `set`, or with the tempo it finds if `set` is none. -/
structure SetsTempo (m : Machine) (f : Mode → Machine → Except CompileError Machine)
    (set : Option Float) : Prop where
  isTempo : ∀ x, set = some x → x.isFinite = true ∧ x > 0
  tempo_eq : ∀ mode m' m'', m'.core = m.core → f mode m' = .ok m'' →
    m''.tempo = set.getD m'.tempo

/-- A computation comes to the same on machines with the same core, in either mode. -/
def IsCore (f : Mode → Machine → Except CompileError Machine) : Prop :=
  ∀ mode mode' m m', m.core = m'.core → coreOf (f mode m) = coreOf (f mode' m')

variable {f g : Mode → Machine → Except CompileError Machine} {set : Option Float}

theorem setsTempo_none
    (h : ∀ mode m' m'', m'.core = m.core → f mode m' = .ok m'' → m''.tempo = m'.tempo) :
    SetsTempo m f none :=
  ⟨fun _ hx => (nomatch hx), h⟩

theorem SetsTempo.congr (h : SetsTempo m f set)
    (hfg : ∀ mode m', m'.core = m.core → g mode m' = f mode m') : SetsTempo m g set :=
  ⟨h.isTempo, fun mode m' m'' hm' hg => h.tempo_eq mode m' m'' hm' (hfg mode m' hm' ▸ hg)⟩

/-- Of two computations one after the other, the second one has the last word. -/
theorem SetsTempo.bind (hf : SetsTempo m f set) (hcore : IsCore f)
    (hg : ∀ m', ∃ set', SetsTempo m' g set') :
    ∃ set', SetsTempo m (fun mode m => (f mode m).bind (g mode)) set' := by
  cases hm : f .eval m with
  | error e =>
    -- Then the first computation fails on all of these machines.
    refine ⟨none, setsTempo_none fun mode m' m'' hm' hresult => ?_⟩
    have hfails := hcore mode .eval m' m hm'
    rw [hm] at hfails
    cases hfirst : f mode m' with
    | error e' =>
      rw [hfirst] at hresult
      cases hresult
    | ok between =>
      rw [hfirst] at hfails
      cases hfails
  | ok next =>
    obtain ⟨set', hset'⟩ := hg next
    refine ⟨set'.or set, ?_, ?_⟩
    · intro x hx
      rcases Option.or_eq_some_iff.1 hx with hx | ⟨-, hx⟩
      · exact hset'.isTempo x hx
      · exact hf.isTempo x hx
    · intro mode m' m'' hm' hresult
      have hfirst := hcore mode .eval m' m hm'
      cases hbetween : f mode m' with
      | error e' =>
        rw [hbetween] at hresult
        cases hresult
      | ok between =>
        rw [hbetween, hm] at hfirst
        rw [hbetween] at hresult
        rw [hset'.tempo_eq mode between m'' (Except.ok.inj hfirst) hresult,
          hf.tempo_eq mode m' between hm' hbetween]
        cases set' <;> rfl

theorem isCore_enter (levels : Nat) (span : Span) : IsCore fun _ m => m.enter levels span :=
  fun _ _ _ _ h => coreOf_enter levels h span

theorem isCore_perform (token : Token) : IsCore fun mode m => m.perform mode token := by
  intro mode mode' m m' h
  rw [← coreOf_perform mode .eval, ← coreOf_perform mode' .eval, h]

theorem setsTempo_enter (m : Machine) (levels : Nat) (span : Span) :
    SetsTempo m (fun _ m => m.enter levels span) none :=
  setsTempo_none fun _ _ _ _ h => tempo_enter h

theorem setsTempo_perform (m : Machine) (token : Token) :
    SetsTempo m (fun mode m => m.perform mode token) (token.setting? m.stack) := by
  refine ⟨fun x hx => isTempo_of_setting? hx, fun mode m' m'' hm' h => ?_⟩
  have hstack : m'.stack = m.stack := (congrArg Machine.stack hm' :)
  rw [tempo_perform h, hstack]

/-- Which tempo a run sets last, if it sets one, is a matter of the core. -/
theorem exists_setsTempo_run (levels : Nat) (tokens : List Token) (m : Machine) :
    ∃ set, SetsTempo m (fun mode => run mode levels tokens) set := by
  induction levels, tokens, m using trace.induct with
  | case1 levels m =>
    refine ⟨none, setsTempo_none fun mode m' m'' _ h => ?_⟩
    rw [run_nil] at h
    exact congrArg Machine.tempo (Except.ok.inj h).symm
  | case2 levels m token rest ihrest ihafter ihcall =>
    refine Exists.imp (fun set h => SetsTempo.congr h fun mode m' _ =>
      run_cons mode levels token rest m') ?_
    refine (setsTempo_enter m levels token.span).bind (isCore_enter levels token.span) ?_
    intro entered
    -- The table of definitions is in the core, so that all these machines read one role.
    have hdefinitions : ∀ m' : Machine, m'.core = entered.core →
        m'.definitions = entered.definitions := fun m' h => (congrArg Machine.definitions h :)
    cases hrole : token.role entered.definitions with
    | performed =>
      obtain ⟨set, hset⟩ :=
        (setsTempo_perform entered token).bind (isCore_perform token) ihrest
      refine ⟨set, hset.congr fun mode m' hm' => ?_⟩
      rw [hdefinitions m' hm', hrole]
    | definition =>
      let table := (readDefinition entered.definitions rest).2
      obtain ⟨set, hset⟩ := ihafter entered { entered with definitions := table }
      refine ⟨set, hset.isTempo, fun mode m' m'' hm' h => ?_⟩
      rw [hdefinitions m' hm', hrole] at h
      exact hset.tempo_eq mode { m' with definitions := table } m''
        (congrArg (fun m => { m with definitions := table }) hm') h
    | call s body =>
      have ih := ihcall entered body
      cases levels with
      | zero =>
        refine ⟨none, setsTempo_none fun mode m' m'' hm' h => ?_⟩
        rw [hdefinitions m' hm', hrole] at h
        cases h
      | succ fewer =>
        obtain ⟨inner, hinner⟩ := ih.1
        obtain ⟨set, hset⟩ :=
          hinner.bind (fun mode mode' m m' h => run_core mode mode' fewer body h) ih.2
        refine ⟨set, hset.congr fun mode m' hm' => ?_⟩
        rw [hdefinitions m' hm', hrole]

end Machine

/-! ## Compiles -/

/-- A compile that only shows asks for no samples. -/
theorem requests_eval {tempo : Float} {source : String} {program : Program}
    (h : compile .eval tempo source = .ok program) : program.requests = [] := by
  have houtput : ∀ m m' : Machine, m.requests = #[] → Machine.Output .eval m m' →
      m'.requests = #[] := by
    intro m m' hm hm'
    cases hm' with
    | kept _ hrequests _ => exact hrequests.trans hm
    | issued w p _ hrequests _ => exact hrequests.trans hm
    | retimed _ hrequests _ _ => exact hrequests.trans hm
  obtain ⟨m, hm, rfl⟩ := exists_finish_of_output houtput (fun _ _ _ hm => hm) rfl h
  rw [Machine.finish, hm]

/-- There is a tempo for each source text, or none, such that every compile that succeeds ends with
it, or with the tempo it started from. -/
theorem exists_tempo_compile (source : String) :
    ∃ set : Option Float, (∀ x, set = some x → x.isFinite = true ∧ x > 0) ∧
      ∀ mode tempo program, compile mode tempo source = .ok program →
        program.tempo = set.getD tempo := by
  obtain ⟨set, hset⟩ :=
    Machine.exists_setsTempo_run Limit.callDepth (Token.tokenize source) (.initial 0)
  refine ⟨set, hset.isTempo, fun mode tempo program h => ?_⟩
  rw [compile] at h
  cases hrun : Machine.run mode Limit.callDepth (Token.tokenize source) (.initial tempo) with
  | error e =>
    rw [hrun] at h
    cases h
  | ok m =>
    rw [hrun] at h
    cases h
    exact hset.tempo_eq mode (.initial tempo) m rfl hrun

/-- Showing a source text tells what playing it would do, whatever the tempos are that the two
compiles start from. Both fail with the same error, or both come to the same commands and the same
stack, and what is only shown asks for no samples. The tempo that each of them ends with is the one
that the source text sets, and otherwise its own. -/
theorem compile_preview (source : String) :
    ∃ set : Option Float, (∀ x, set = some x → x.isFinite = true ∧ x > 0) ∧
      ∀ tempo tempo' : Float,
        (∃ e, compile .commit tempo source = .error e ∧ compile .eval tempo' source = .error e) ∨
          ∃ played shown : Program,
            compile .commit tempo source = .ok played ∧ compile .eval tempo' source = .ok shown ∧
              shown.commands = played.commands ∧ shown.stack = played.stack ∧
              shown.requests = [] ∧ played.tempo = set.getD tempo ∧
              shown.tempo = set.getD tempo' := by
  obtain ⟨set, hset, htempo⟩ := exists_tempo_compile source
  refine ⟨set, hset, fun tempo tempo' => ?_⟩
  have hcore := compile_core .commit .eval tempo tempo' source
  cases hplayed : compile .commit tempo source with
  | error e =>
    cases hshown : compile .eval tempo' source with
    | error e' =>
      rw [hplayed, hshown] at hcore
      exact .inl ⟨e, rfl, congrArg Except.error (Except.error.inj hcore).symm⟩
    | ok shown =>
      rw [hplayed, hshown] at hcore
      cases hcore
  | ok played =>
    cases hshown : compile .eval tempo' source with
    | error e' =>
      rw [hplayed, hshown] at hcore
      cases hcore
    | ok shown =>
      rw [hplayed, hshown] at hcore
      obtain ⟨hcommands, hstack⟩ := Prod.mk.inj (Except.ok.inj hcore)
      exact .inr ⟨played, shown, rfl, rfl, hcommands.symm, hstack.symm, requests_eval hshown,
        htempo .commit tempo played hplayed, htempo .eval tempo' shown hshown⟩

end PatternSynth
