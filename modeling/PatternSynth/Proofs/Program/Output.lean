import PatternSynth.Proofs.Program.Effect

/-!
# What performing a token does to what a program puts out

Besides its stack, the machine keeps the commands, the samples to fetch and the tempo. Words that
render issue one command at most, and one word sets a tempo that time can pass in. All other words
leave the three alone (`output_of_perform`), so that an invariant of them needs these cases and no
look at the stack.
-/

namespace PatternSynth

namespace Machine

/-- The machine with other commands, other samples to fetch and another tempo. -/
def withOutput (commands : Array Command) (requests : Array String) (tempo : Float)
    (m : Machine) : Machine :=
  { m with commands, requests, tempo }

theorem isAside_withOutput (commands : Array Command) (requests : Array String) (tempo : Float) :
    IsAside (withOutput commands requests tempo) :=
  ⟨fun _ => rfl, fun _ => rfl, fun _ _ => rfl, fun _ _ => rfl⟩

/-- What performing a token may do to the commands, the samples to fetch and the tempo. -/
inductive Output (mode : Mode) (m m' : Machine) : Prop where
  | kept (hcommands : m'.commands = m.commands) (hrequests : m'.requests = m.requests)
    (htempo : m'.tempo = m.tempo)
  /-- A command is issued, and if it is to be played its samples are asked for. -/
  | issued (w : Waveform) (p : Pattern) (hcommands : m'.commands = m.commands.push ⟨w, p⟩)
    (hrequests : m'.requests =
      if mode = .commit ∧ w = .sample then p.requestsAfter m.requests else m.requests)
    (htempo : m'.tempo = m.tempo)
  | retimed (hcommands : m'.commands = m.commands) (hrequests : m'.requests = m.requests)
    (hfinite : m'.tempo.isFinite = true) (hpositive : m'.tempo > 0)

variable {mode : Mode} {m m' : Machine}

/-- A step that goes on in the same way with any commands, samples and tempo leaves them alone. -/
theorem Output.of_aside (step : Machine → Except CompileError Machine)
    (haside : ∀ u, IsAside u → step (u m) = (step m).map u) (h : step m = .ok m') :
    Output mode m m' := by
  have hself : m.withOutput m.commands m.requests m.tempo = m := rfl
  have hstep := haside _ (isAside_withOutput m.commands m.requests m.tempo)
  rw [hself, h] at hstep
  rw [Except.ok.inj hstep]
  exact .kept rfl rfl rfl

theorem output_of_render {w : Waveform} {span : Span} (h : m.render mode w span = .ok m') :
    Output mode m m' := by
  simp only [render] at h
  split at h
  · cases h
    exact .kept rfl rfl rfl
  · cases h
    exact .issued w _ rfl rfl rfl
  · cases hcharge : charge { m with stack := [] }
        (.collect .sequence (StackItem.values m.stack)) span with
    | error e =>
      rw [hcharge] at h
      cases h
    | ok charged =>
      rw [hcharge] at h
      obtain ⟨-, -, rfl⟩ := charge_eq_ok hcharge
      cases h
      exact .issued w _ rfl rfl rfl

theorem output_of_execute {w : Word} {span : Span} (h : m.execute mode w span = .ok m') :
    Output mode m m' := by
  cases w with
  | render w => exact output_of_render h
  | tempo =>
    simp only [execute] at h
    split at h
    · cases h
      split
      · next htempo =>
        obtain ⟨hfinite, hpositive⟩ := Bool.and_eq_true_iff.1 htempo
        exact .retimed rfl rfl hfinite (of_decide_eq_true hpositive)
      · exact .kept rfl rfl rfl
    · cases h
      exact .kept rfl rfl rfl
  | _ =>
    refine Output.of_aside (·.execute mode _ span) (fun u hu => hu.execute m span mode ?_ ?_) h
    · exact fun _ hrender => by cases hrender
    · exact fun htempo => by cases htempo

theorem output_of_perform {token : Token} (h : m.perform mode token = .ok m') :
    Output mode m m' := by
  simp only [perform] at h
  split at h
  · exact Output.of_aside (·.push _ token.span) (fun u hu => hu.push m token.span _) h
  · exact output_of_execute h
  · exact Output.of_aside (·.push _ token.span) (fun u hu => hu.push m token.span _) h

end Machine

/-- What every token keeps of the commands, the samples to fetch and the tempo holds of the machine
that a compile finishes. -/
theorem exists_finish_of_output {P : Machine → Prop} {mode : Mode} {tempo : Float}
    {source : String} {program : Program}
    (houtput : ∀ m m', P m → Machine.Output mode m m' → P m')
    (htable : ∀ definitions expanded m, P m → P (m.withTable definitions expanded))
    (hinitial : P (.initial tempo)) (hprogram : compile mode tempo source = .ok program) :
    ∃ m, P m ∧ m.finish = program := by
  have hperform : ∀ token m, True → P m → Meets P (fun _ => True) (m.perform mode token) := by
    intro token m _ hm
    cases hresult : m.perform mode token with
    | error e => trivial
    | ok m' => exact houtput m m' hm (Machine.output_of_perform hresult)
  have hmeets : (compileTrace mode tempo source).Meets P fun _ => True :=
    (Machine.meets_trace (S := fun _ => True) hperform htable (fun _ _ => trivial)
      (fun _ _ _ => trivial) (fun _ _ => trivial) hinitial (Machine.bodiesFrom_empty _)).imp
      (fun _ hm => hm.1) fun _ he => he
  exact hmeets.finish hprogram

end PatternSynth
