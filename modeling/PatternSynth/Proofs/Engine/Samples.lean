import PatternSynth.Proofs.Engine.Sounds
import PatternSynth.Proofs.Engine.Stems
import PatternSynth.Proofs.Program.Requests
import PatternSynth.Proofs.Sound.Schedule

/-!
# Every sample that can sound is known or asked for

A sound that plays samples plays the leaves of its score and nothing else, so that the names it can
ever play are in the leaves of its tree from the start. `Engine.sampleSteps` keeps every step that
such sounds go on to, also those that are passed over within one frame. Loading a source sends one
request for the names that its program plays and that are not known, if there are any, and until
another source is loaded no step plays a name that was neither known nor asked for.
-/

namespace PatternSynth

/-- The leaves that the step plays name only samples of the set. -/
def Step.PlaysOnly {β : Type} (N : String → Prop) (step : Step β) : Prop :=
  ∀ note ∈ step.notes, ∀ name, note.pattern.sampleName? = some name → N name

/-- The steps of a score play what its leaves name. -/
theorem Step.DrawsFrom.playsOnly {β : Type} {N : String → Prop} {step : Step β} {t : Tree}
    (h : step.DrawsFrom t.nodes) (hnames : ∀ name ∈ t.sampleNames, N name) :
    step.PlaysOnly N := by
  intro note hnote name hname
  have hleaf : note.leaf ∈ t.nodes := h.subset (List.mem_map_of_mem hnote)
  exact hnames name (Tree.mem_sampleNames.2 ⟨note.id, note.pattern, hleaf, hname⟩)

/-! ## Sounds -/

namespace Sound

section Pulls

variable {β : Type} [Beats β]

/-- The sound draws from its score, and if it plays samples the leaves of the score name only
samples of the set. -/
structure PlaysOnly (N : String → Prop) (s : Sound β) : Prop where
  player : s.player.Faithful
  names : s.waveform = .sample → ∀ name ∈ s.player.score.tree.sampleNames, N name

variable {N : String → Prop} {s : Sound β}

theorem PlaysOnly.pull (h : s.PlaysOnly N) (timing : ChordTiming β) (env : Env) (stop : β) :
    (s.waveform = .sample → (s.player.next timing env).1.PlaysOnly N) ∧
      (s.pull timing env stop).PlaysOnly N := by
  obtain ⟨hstep, hplayer⟩ := h.player.next timing env
  refine ⟨fun hsample => hstep.playsOnly (h.names hsample), hplayer, fun hsample => ?_⟩
  have htree : (s.pull timing env stop).player.score.tree = s.player.score.tree :=
    Player.tree_next timing s.player env
  rw [htree]
  exact h.names hsample

theorem PlaysOnly.anchor (h : s.PlaysOnly N) (beat : β) : (s.anchor beat).PlaysOnly N := by
  rw [Sound.anchor]
  split
  · exact h
  · exact ⟨h.player, h.names⟩

theorem PlaysOnly.pulls (h : s.PlaysOnly N) (timing : ChordTiming β) (env : Env) (beat : β)
    (n : Nat) :
    (s.waveform = .sample → ∀ step ∈ (s.pulls timing env beat n).1, step.PlaysOnly N) ∧
      (s.pulls timing env beat n).2.PlaysOnly N := by
  induction n generalizing s with
  | zero => exact ⟨fun _ => List.forall_mem_nil _, h⟩
  | succ n ih =>
    rw [Sound.pulls]
    split
    · exact ⟨fun _ => List.forall_mem_nil _, h⟩
    · next stop _ =>
      split
      · obtain ⟨hstep, hpull⟩ := h.pull timing env stop
        obtain ⟨hothers, hlast⟩ := ih hpull
        exact ⟨fun hsample => List.forall_mem_cons.2 ⟨hstep hsample, hothers hsample⟩, hlast⟩
      · exact ⟨fun _ => List.forall_mem_nil _, h⟩

end Pulls

variable {N : String → Prop}

theorem PlaysOnly.frame {s : Sound Float} (h : s.PlaysOnly N) (rig : Rig)
    (timing : ChordTiming Float) (env : Env) (g : Noise) :
    (s.frame rig timing env g).2.1.PlaysOnly N := by
  have hadvance := ((h.anchor env.beat).pulls timing env env.beat
    rig.config.maxStepsPerSample.toNat).2
  rw [sound_pulls] at hadvance
  rw [Sound.frame, Sound.advance, Sound.render]
  split
  · exact hadvance
  · exact ⟨hadvance.player, hadvance.names⟩

theorem playsOnly_fresh {c : Command} (h : ∀ name ∈ c.sampleNames, N name)
    (voices : List Voice) : { (ofCommand c : Sound Float) with voices }.PlaysOnly N :=
  ⟨Player.faithful_ofPattern c.pattern,
    fun hsample name hname => h name (Command.mem_sampleNames.2 ⟨hsample, hname⟩)⟩

end Sound

namespace Engine

/-! ## Playing a program -/

theorem exists_command_of_mem_carryVoices {old : List (Sound Float)} {commands : List Command}
    {s : Sound Float} (h : s ∈ carryVoices old (commands.map Sound.ofCommand)) :
    ∃ c ∈ commands, ∃ voices, s = { Sound.ofCommand c with voices } := by
  induction commands generalizing old with
  | nil => cases h
  | cons c commands ih =>
    rw [List.map_cons, carryVoices] at h
    split at h
    all_goals
      rcases List.mem_cons.1 h with rfl | h
      · exact ⟨c, List.mem_cons_self, _, rfl⟩
      · obtain ⟨c', hc', hs⟩ := ih h
        exact ⟨c', List.mem_cons_of_mem c hc', hs⟩

/-- The sounds of a program are new, apart from voices that are handed to them. -/
theorem exists_command_of_mem_play {p : Program} {e : Engine} {s : Sound Float}
    (h : s ∈ (e.play p).sounds) :
    ∃ c ∈ p.commands, ∃ voices, s = { Sound.ofCommand c with voices } := by
  rw [sounds_play] at h
  split at h
  · exact exists_command_of_mem_carryVoices h
  · obtain ⟨c, hc, rfl⟩ := List.mem_map.1 h
    exact ⟨c, hc, [], rfl⟩

/-- The names that a program asks for and that are not known. -/
def missing (e : Engine) (p : Program) : List String :=
  p.requests.filter (!e.bank.contains ·)

/-- A program that is played sends one request for what is missing, if anything is. -/
theorem outbox_play (p : Program) (e : Engine) :
    (e.play p).outbox.toList =
      e.outbox.toList ++ if e.missing p = [] then [] else [.request (e.missing p)] := by
  have hplay : (e.play p).outbox =
      if (e.missing p).isEmpty then e.outbox else e.outbox.push (.request (e.missing p)) := by
    simp only [play, apply_ite Engine.outbox]
    rfl
  rw [hplay]
  by_cases h : e.missing p = []
  · simp [h]
  · rw [if_neg (by simpa using h), if_neg h, Array.toList_push]

/-- All sounds that play samples play only samples of the set. -/
def PlaysOnly (N : String → Prop) (e : Engine) : Prop :=
  ∀ s ∈ e.sounds, s.PlaysOnly N

theorem playsOnly_play {N : String → Prop} {p : Program} (h : ∀ name ∈ p.sampleNames, N name)
    (e : Engine) : (e.play p).PlaysOnly N := by
  intro s hs
  obtain ⟨c, hc, voices, rfl⟩ := exists_command_of_mem_play hs
  exact Sound.playsOnly_fresh (fun name hname => h name (List.mem_flatMap.2 ⟨c, hc, hname⟩)) voices

/-- A source that is loaded is that of a program that is played. -/
theorem exists_program_of_loaded {op : Operation} {source : String} {e : Engine}
    (h : op.loaded? e = some source) :
    ∃ program, compile .commit e.tempo source = .ok program ∧ op.apply e = e.play program := by
  obtain ⟨hsource, hload⟩ := Option.filter_eq_some_iff.1 h
  rw [(Operation.apply_of_source hsource e).1]
  simp only [load] at hload ⊢
  cases hcompile : compile .commit e.tempo source with
  | error err =>
    rw [hcompile] at hload
    cases hload
  | ok program => exact ⟨program, rfl, rfl⟩

/-- A source that is asked for and not loaded leaves the engine as it is. -/
theorem apply_of_not_loaded {op : Operation} {source : String} {e : Engine}
    (hsource : op.source? = some source) (h : op.loaded? e = none) : op.apply e = e := by
  rw [(Operation.apply_of_source hsource e).1]
  rw [Operation.loaded?, hsource, Option.filter_some] at h
  cases hload : e.load source with
  | error err => rfl
  | ok e' =>
    rw [hload] at h
    cases h

/-! ## Steps of sounds that play samples -/

/-- The steps that sounds with samples go on to in one frame. -/
def frameSampleSteps (frame : UInt64) (rate : UInt32) (e : Engine) : List (Step Float) :=
  let env := e.envAt frame rate
  (e.sounds.filter (·.waveform = .sample)).flatMap fun s =>
    ((s.anchor env.beat).pulls e.config.chordTiming env env.beat
      e.config.maxStepsPerSample.toNat).1

/-- The steps that sounds with samples go on to in some frames. -/
def framesSampleSteps (rate : UInt32) : Nat → UInt64 → Engine → List (Step Float)
  | 0, _, _ => []
  | n + 1, frame, e =>
    e.frameSampleSteps frame rate ++
      framesSampleSteps rate n (frame + 1) (e.renderFrame frame rate).2

variable {N : String → Prop} {e : Engine}

theorem PlaysOnly.renderFrame (h : e.PlaysOnly N) (frame : UInt64) (rate : UInt32) :
    (e.renderFrame frame rate).2.PlaysOnly N := by
  rw [PlaysOnly, sounds_renderFrame]
  intro next hnext
  obtain ⟨s, hs, rfl⟩ := List.mem_map.1 hnext
  exact (h s hs).frame _ _ _ _

theorem PlaysOnly.frameSampleSteps (h : e.PlaysOnly N) (frame : UInt64) (rate : UInt32) :
    ∀ step ∈ e.frameSampleSteps frame rate, step.PlaysOnly N := by
  intro step hstep
  obtain ⟨s, hs, hstep⟩ := List.mem_flatMap.1 hstep
  obtain ⟨hs, hsample⟩ := List.mem_filter.1 hs
  have hanchor : ∀ beat, (s.anchor beat).waveform = s.waveform := by
    intro beat
    rw [Sound.anchor]
    split <;> rfl
  refine (((h s hs).anchor _).pulls _ _ _ _).1 ?_ step hstep
  rw [hanchor]
  exact of_decide_eq_true hsample

theorem PlaysOnly.frames (h : e.PlaysOnly N) (rate : UInt32) (n : Nat) (frame : UInt64)
    (rendered : Array Float32) :
    (renderFrames rate n frame rendered e).2.PlaysOnly N ∧
      ∀ step ∈ framesSampleSteps rate n frame e, step.PlaysOnly N := by
  induction n generalizing e frame rendered with
  | zero => exact ⟨h, List.forall_mem_nil _⟩
  | succ n ih =>
    obtain ⟨hlast, hothers⟩ := ih (h.renderFrame frame rate) (frame + 1)
      (rendered.push (e.renderFrame frame rate).1)
    exact ⟨hlast, List.forall_mem_append.2 ⟨h.frameSampleSteps frame rate, hothers⟩⟩

end Engine

/-! ## Operations -/

/-- The steps that sounds with samples go on to during an operation. -/
def Operation.sampleSteps (e : Engine) : Operation → List (Step Float)
  | render count frame rate => Engine.framesSampleSteps rate count frame (e.retime frame rate)
  | _ => []

namespace Engine

/-- The steps that sounds with samples go on to during some operations, until one of them loads a
source. -/
def sampleSteps (e : Engine) : List Operation → List (Step Float)
  | [] => []
  | op :: operations =>
    match op.loaded? e with
    | some _ => []
    | none => op.sampleSteps e ++ (op.apply e).sampleSteps operations

variable {N : String → Prop} {e : Engine}

theorem PlaysOnly.apply (h : e.PlaysOnly N) {op : Operation} (hop : op.loaded? e = none) :
    (op.apply e).PlaysOnly N ∧ ∀ step ∈ op.sampleSteps e, step.PlaysOnly N := by
  cases hsource : op.source? with
  | some source =>
    have hsteps : op.sampleSteps e = [] := by
      cases op with
      | render => cases hsource
      | _ => rfl
    rw [apply_of_not_loaded hsource hop, hsteps]
    exact ⟨h, List.forall_mem_nil _⟩
  | none =>
    cases op with
    | handle m =>
      cases m with
      | source text => cases hsource
      | eval text => exact ⟨h, List.forall_mem_nil _⟩
      | sample name buffer => exact ⟨h, List.forall_mem_nil _⟩
    | load source => cases hsource
    | silence => exact ⟨List.forall_mem_nil _, List.forall_mem_nil _⟩
    | drain => exact ⟨h, List.forall_mem_nil _⟩
    | render count frame rate =>
      obtain ⟨reports, hrender⟩ := render_eq count frame rate e
      rw [Operation.apply, hrender]
      exact PlaysOnly.frames (e := e.retime frame rate) h rate count frame #[]

theorem PlaysOnly.sampleSteps (h : e.PlaysOnly N) (operations : List Operation) :
    ∀ step ∈ e.sampleSteps operations, step.PlaysOnly N := by
  induction operations generalizing e with
  | nil => exact List.forall_mem_nil _
  | cons op operations ih =>
    rw [Engine.sampleSteps]
    split
    · exact List.forall_mem_nil _
    · next hop =>
      obtain ⟨hnext, hsteps⟩ := h.apply hop
      exact List.forall_mem_append.2 ⟨hsteps, ih hnext⟩

/-- A program to be played asks, each once and where it first occurs, for the names in the leaves of
the trees that it plays with samples, apart from builtin words. A source that is loaded sends one
request for those of them that are not known, if there are any. From then on, and until another
source is loaded, whatever step a sound with samples goes on to, the names in it are those of
builtin words, or were known when the source was loaded, or are in that request. -/
theorem requests_cover_steps :
    (∀ (tempo : Float) (source : String) (program : Program),
      compile .commit tempo source = .ok program →
        program.requests.Nodup ∧
        program.requests = (program.sampleNames.filter Word.isFree).eraseDups ∧
        ∀ name, name ∈ program.requests ↔ Word.ofText? name = none ∧
          ∃ c ∈ program.commands, c.waveform = .sample ∧
            ∃ id pattern, .leaf id pattern ∈ (Score.ofPattern c.pattern).tree.nodes ∧
              pattern.sampleName? = some name) ∧
    ∀ (e : Engine) (op : Operation) (source : String), op.loaded? e = some source →
      ∃ program, compile .commit e.tempo source = .ok program ∧
        (op.apply e).outbox.toList = e.outbox.toList ++
          (if e.missing program = [] then [] else [.request (e.missing program)]) ∧
        ∀ operations, ∀ step ∈ (op.apply e).sampleSteps operations, ∀ note ∈ step.notes,
          ∀ name, note.pattern.sampleName? = some name →
            (Word.ofText? name).isSome = true ∨ e.bank.contains name = true ∨
              name ∈ e.missing program := by
  constructor
  · intro tempo source program hcompile
    have hrequests := requests_of_compile hcompile
    refine ⟨?_, hrequests, fun name => ?_⟩
    · rw [hrequests]
      exact Pattern.nodup_eraseDups _
    · rw [hrequests, List.mem_eraseDups, List.mem_filter, Word.isFree, Option.isNone_iff_eq_none,
        and_comm, Program.sampleNames, List.mem_flatMap]
      simp only [Command.mem_sampleNames, Tree.mem_sampleNames]
  · intro e op source hloaded
    obtain ⟨program, hcompile, happly⟩ := exists_program_of_loaded hloaded
    refine ⟨program, hcompile, ?_, ?_⟩
    · rw [happly]
      exact outbox_play program e
    · rw [happly]
      refine (playsOnly_play (fun name hname => ?_) e).sampleSteps
      by_cases hword : Word.ofText? name = none
      · have hmem : name ∈ program.requests := by
          rw [requests_of_compile hcompile, List.mem_eraseDups, List.mem_filter, Word.isFree, hword]
          exact ⟨hname, rfl⟩
        cases hknown : e.bank.contains name with
        | true => exact .inr (.inl rfl)
        | false => exact .inr (.inr (List.mem_filter.2 ⟨hmem, by rw [hknown]; rfl⟩))
      · exact .inl (Option.isSome_iff_ne_none.2 hword)

/-- A source that plays four samples of three names. -/
def drumSource : String :=
  "bd sn hh sn play"

def drumPattern : Pattern :=
  .collect .sequence [.literal (.word "bd") ⟨0, 2⟩, .literal (.word "sn") ⟨3, 5⟩,
    .literal (.word "hh") ⟨6, 8⟩, .literal (.word "sn") ⟨9, 11⟩]

def drumProgram : Program :=
  ⟨[⟨.sample, drumPattern⟩], [], 120, (drumPattern.requestsAfter #[]).toList⟩

theorem compile_drumSource : compile .commit 120 drumSource = .ok drumProgram := by
  have htokens : Token.tokenize drumSource = [⟨"bd", ⟨0, 2⟩⟩, ⟨"sn", ⟨3, 5⟩⟩, ⟨"hh", ⟨6, 8⟩⟩,
      ⟨"sn", ⟨9, 11⟩⟩, ⟨"play", ⟨12, 16⟩⟩] := by
    cbv
  rw [compile_of_tokens htokens (by decide)]
  rfl

/-- An engine that knows the first of the samples. -/
def drumEngine : Engine :=
  (ofConfig {}).register "bd" ⟨#[0.5], 48000⟩

/-- The engine once it has loaded the source. -/
def drumsLoaded : Engine :=
  { drumEngine with
    sounds := [.ofCommand ⟨.sample, drumPattern⟩]
    outbox := #[.request ["sn", "hh"]] }

theorem requests_cover_drums :
    drumProgram.requests = ["bd", "sn", "hh"] ∧ drumProgram.requests.Nodup ∧
      (Operation.load drumSource).apply drumEngine = drumsLoaded ∧
      (drumsLoaded.sampleSteps [.render 1 0 48000]).map
        (fun step => step.notes.map (·.pattern.sampleName?)) = [[some "bd"]] ∧
      ∀ operations, ∀ step ∈ drumsLoaded.sampleSteps operations,
        ∀ note ∈ step.notes, ∀ name, note.pattern.sampleName? = some name →
          (Word.ofText? name).isSome = true ∨ drumEngine.bank.contains name = true ∨
            name ∈ ["sn", "hh"] := by
  have hcompile : compile .commit drumEngine.tempo drumSource = .ok drumProgram :=
    compile_drumSource
  have hloaded : (Operation.load drumSource).loaded? drumEngine = some drumSource := by
    rw [Operation.loaded?, Operation.source?, Option.filter_some, load, hcompile]
    rfl
  obtain ⟨hrequests, hsteps⟩ := requests_cover_steps
  obtain ⟨hnodup, hfirst, -⟩ := hrequests _ _ _ hcompile
  have hnames : drumProgram.requests = ["bd", "sn", "hh"] := by
    rw [hfirst]
    decide
  have hmissing : drumProgram.requests.filter (!drumEngine.bank.contains ·) = ["sn", "hh"] := by
    rw [hnames]
    simp [drumEngine, register, ofConfig]
  have happly : (Operation.load drumSource).apply drumEngine = drumsLoaded := by
    have hplay : (Operation.load drumSource).apply drumEngine = drumEngine.play drumProgram := by
      rw [Operation.apply, load, hcompile]
      rfl
    simp only [hplay, play, hmissing]
    rfl
  obtain ⟨program, hprogram, -, honly⟩ := hsteps drumEngine (.load drumSource) drumSource hloaded
  obtain rfl : drumProgram = program := Except.ok.inj (hcompile.symm.trans hprogram)
  rw [happly, missing, hmissing] at honly
  exact ⟨hnames, hnodup, happly, by decide +kernel, honly⟩

end Engine

end PatternSynth
