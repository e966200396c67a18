import PatternSynth.Proofs.Engine.Highlights
import PatternSynth.Proofs.Program.Replies
import PatternSynth.Proofs.Sound.Voices

/-!
# What holds of every sound of a session

Sounds enter an engine when a program is played, each with voices of its own or with those of the
sound that it replaces, and from then on they only change frame by frame. So what holds of every new
sound and is kept by a frame holds of every sound in every session (`Sound.Invariant.run`). This is
how all sounds are known to be consistent, whatever is sent to the engine.
-/

namespace PatternSynth

/-- A property that every new sound has, whatever voices it is given, and that each frame keeps. -/
structure Sound.Invariant (P : Sound Float → Prop) : Prop where
  fresh : ∀ (c : Command) (voices : List Voice), P { Sound.ofCommand c with voices }
  frame : ∀ (rig : Rig) (timing : ChordTiming Float) (env : Env) (cap : Nat) (g : Noise)
    (s : Sound Float), P s → P ((s.advance timing env env.beat cap).render rig env g).2.1

namespace Sound.Invariant

open Engine

variable {P : Sound Float → Prop}

/-! ## Playing a program -/

theorem carryVoices (h : Invariant P) (old : List (Sound Float)) (commands : List Command) :
    ∀ s ∈ Engine.carryVoices old (commands.map Sound.ofCommand), P s := by
  induction commands generalizing old with
  | nil => exact List.forall_mem_nil _
  | cons c commands ih =>
    rw [List.map_cons, Engine.carryVoices]
    split
    · exact List.forall_mem_cons.2 ⟨h.fresh c [], ih old⟩
    · next voices left _ => exact List.forall_mem_cons.2 ⟨h.fresh c voices, ih left⟩

theorem play (h : Invariant P) (p : Program) (e : Engine) : ∀ s ∈ (e.play p).sounds, P s := by
  rw [sounds_play]
  split
  · exact h.carryVoices e.sounds p.commands
  · intro s hs
    obtain ⟨c, -, rfl⟩ := List.mem_map.1 hs
    exact h.fresh c []

theorem load (h : Invariant P) {source : String} {e e' : Engine} (hload : e.load source = .ok e') :
    ∀ s ∈ e'.sounds, P s := by
  rw [Engine.load] at hload
  cases hcompile : compile .commit e.tempo source with
  | error err =>
    rw [hcompile] at hload
    cases hload
  | ok program =>
    rw [hcompile] at hload
    cases hload
    exact h.play program e

/-! ## Rendering -/

theorem mix (h : Invariant P) (rig : Rig) (timing : ChordTiming Float) (env : Env)
    (signal : Float) (g : Noise) {sounds : List (Sound Float)} (hsounds : ∀ s ∈ sounds, P s) :
    ∀ s ∈ (Engine.mix rig timing env signal g sounds).2.1, P s := by
  induction sounds generalizing signal g with
  | nil => exact List.forall_mem_nil _
  | cons s rest ih =>
    obtain ⟨hs, hrest⟩ := List.forall_mem_cons.1 hsounds
    exact List.forall_mem_cons.2 ⟨h.frame rig timing env _ g s hs, ih _ _ hrest⟩

theorem renderFrames (h : Invariant P) (rate : UInt32) (n : Nat) (frame : UInt64)
    (rendered : Array Float32) {e : Engine} (he : ∀ s ∈ e.sounds, P s) :
    ∀ s ∈ (Engine.renderFrames rate n frame rendered e).2.sounds, P s := by
  induction n generalizing e frame rendered with
  | zero => exact he
  | succ n ih => exact ih (frame + 1) _ (h.mix _ _ _ _ _ he)

theorem render (h : Invariant P) (n : Nat) (frame : UInt64) (rate : UInt32) {e : Engine}
    (he : ∀ s ∈ e.sounds, P s) : ∀ s ∈ (e.render n frame rate).2.sounds, P s := by
  obtain ⟨reports, hrender⟩ := render_eq n frame rate e
  rw [hrender]
  exact h.renderFrames rate n frame #[] (e := e.retime frame rate) he

/-! ## Sessions -/

theorem apply (h : Invariant P) {e : Engine} (he : ∀ s ∈ e.sounds, P s) (op : Operation) :
    ∀ s ∈ (op.apply e).sounds, P s := by
  cases hsource : op.source? with
  | some source =>
    rw [(Operation.apply_of_source hsource e).1]
    cases hload : e.load source with
    | error err => exact he
    | ok e' => exact h.load hload
  | none =>
    cases op with
    | handle m =>
      cases m with
      | source text => cases hsource
      | eval text => exact he
      | sample name buffer => exact he
    | load source => cases hsource
    | silence => exact List.forall_mem_nil _
    | drain => exact he
    | render count frame rate => exact h.render count frame rate he

theorem run (h : Invariant P) (config : Config) (operations : List Operation) :
    ∀ s ∈ (Session.run config operations).engine.sounds, P s := by
  suffices ∀ session : Session, (∀ s ∈ session.engine.sounds, P s) →
      ∀ s ∈ (operations.foldl Session.step session).engine.sounds, P s from
    this (.ofConfig config) (List.forall_mem_nil _)
  induction operations with
  | nil => exact fun session hsession => hsession
  | cons op operations ih => exact fun session hsession => ih _ (h.apply hsession op)

end Sound.Invariant

theorem Sound.invariant_consistent : Sound.Invariant Sound.Consistent where
  fresh := Sound.consistent_fresh
  frame rig timing env cap g _ h := (h.advance timing env env.beat cap).render rig env g

namespace Session

/-- After any operations on an engine, each of its sounds that plays a step has as many voices as
the step has leaves and gains, all leaves are different, and each is a leaf of the sound's score,
found under its number. So a frame that looks its leaves and gains up never misses one. -/
theorem sounds_fit_steps (config : Config) (operations : List Operation) :
    ∀ sound ∈ (run config operations).engine.sounds, ∀ step, sound.current = some step →
      step.leaves.length = sound.voices.length ∧ step.gains.length = sound.voices.length ∧
      (∀ id ∈ step.leaves, id < sound.player.score.size ∧
        ∃ pattern, sound.player.score.node? id = some (.leaf id pattern)) ∧
      step.leaves.Nodup ∧
      ∀ (rig : Rig) (env : Env) (g : Noise),
        sound.renderLeaves rig env g = some (sound.render rig env g) := by
  intro sound hsound step hstep
  have hconsistent := Sound.invariant_consistent.run config operations sound hsound
  have hvoices := hconsistent.voices step hstep
  have hnotes := hconsistent.notes step hstep
  have hnumbered := hconsistent.player.numbered
  refine ⟨?_, ?_, ?_, hnotes.nodup_leaves hnumbered, hconsistent.renderLeaves_eq⟩
  · rw [hvoices, Step.leaves, List.length_map]
  · rw [hvoices, Step.gains, List.length_map]
  · intro id hid
    obtain ⟨note, hnote, rfl⟩ := List.mem_map.1 hid
    have hmem : note.leaf ∈ sound.player.score.tree.nodes :=
      hnotes.subset (List.mem_map_of_mem hnote)
    obtain ⟨hlt, hnode⟩ := hnumbered.node?_id hmem
    exact ⟨hlt, note.pattern, hnode⟩

/-- A source that plays two notes at once. -/
def chordSource : String :=
  "( 220 330 ) sine"

def chordProgram : Program :=
  ⟨[⟨.sine, .collect .chord [.literal (.number 220) ⟨2, 5⟩, .literal (.number 330) ⟨6, 9⟩]⟩], [],
    120, []⟩

theorem compile_chordSource : compile .commit 120 chordSource = .ok chordProgram := by
  have htokens : Token.tokenize chordSource = [⟨"(", ⟨0, 1⟩⟩, ⟨"220", ⟨2, 5⟩⟩, ⟨"330", ⟨6, 9⟩⟩,
      ⟨")", ⟨10, 11⟩⟩, ⟨"sine", ⟨12, 16⟩⟩] := by
    cbv
  have hwords : ∀ t ∈ Token.tokenize chordSource, Word.ofText? t.text ≠ some .define := by
    rw [htokens]
    decide
  rw [compile_of_performed fun t ht => Token.role_of_ne_define (hwords t ht), htokens]
  rfl

/-- Load the source and render a frame. -/
def chordOperations : List Operation :=
  [.load chordSource, .render 1 0 48000]

theorem sounds_fit_steps_chord :
    ∃ sound ∈ (run {} chordOperations).engine.sounds, ∃ step, sound.current = some step ∧
      step.leaves = [0, 1] ∧ sound.voices.length = 2 ∧ step.leaves.Nodup ∧
      ∀ (rig : Rig) (env : Env) (g : Noise),
        sound.renderLeaves rig env g = some (sound.render rig env g) := by
  -- What sounds is a matter of frames only, and can be evaluated.
  have hsounds : (run {} chordOperations).engine.sounds =
      (Engine.renderFrames 48000 1 0 #[]
        (((Engine.ofConfig {}).play chordProgram).retime 0 48000)).2.sounds := by
    obtain ⟨reports, hrender⟩ :=
      Engine.render_eq 1 0 48000 ((Engine.ofConfig {}).play chordProgram)
    have hload : (Engine.ofConfig {}).load chordSource =
        .ok ((Engine.ofConfig {}).play chordProgram) :=
      congrArg (Except.map _) compile_chordSource
    simp only [run, chordOperations, List.foldl_cons, List.foldl_nil, step, Operation.apply,
      ofConfig, hload, Except.toOption, Option.getD_some, hrender]
    rfl
  have hleaves : (run {} chordOperations).engine.sounds.map
      (fun sound => (sound.current.map Step.leaves, sound.voices.length)) =
        [(some [0, 1], 2)] := by
    rw [hsounds]
    decide +kernel
  obtain ⟨sound, others, hcons, hsound, -⟩ := List.map_eq_cons_iff.1 hleaves
  obtain ⟨hcurrent, hvoices⟩ := Prod.mk.inj hsound
  obtain ⟨step, hstep, hleaves⟩ := Option.map_eq_some_iff.1 hcurrent
  have hmem : sound ∈ (run {} chordOperations).engine.sounds := by
    rw [hcons]
    exact List.mem_cons_self
  obtain ⟨-, -, -, hnodup, hrender⟩ := sounds_fit_steps {} chordOperations sound hmem step hstep
  exact ⟨sound, hmem, step, hstep, hleaves, hvoices, hnodup, hrender⟩

end Session

end PatternSynth
