import PatternSynth.Proofs.Engine.Highlights

/-!
# Sounds do not disturb one another

The stem of a sound is what the sound alone adds to each frame. All sounds of an engine draw from
one generator of noise, and how far it has got when it is a sound's turn depends on the sounds
before it. But a voice keeps nothing of what it draws, so that a frame takes each sound on by itself
(`Engine.sounds_mix`), and only noise is heard differently. The main result of this file is that a
sound goes on in the same way and has the same stem in any company.
-/

namespace PatternSynth

/-! ## What noise changes -/

namespace Voice

variable (rig : Rig) (env : Env) (note : Note) (v : Voice) (g g' : Noise)

/-- A frame leaves the same of a voice, whatever the noise. -/
theorem voice_play_congr (w : Waveform) :
    (v.play rig w env note g').2.1 = (v.play rig w env note g).2.1 := by
  cases w with
  | raw => rfl
  | sample => rfl
  | _ =>
    simp only [play, playOscillator]
    split <;> rfl

/-- A voice sounds the same, whatever the noise, unless noise is what it plays. -/
theorem signal_play_congr {w : Waveform} (hw : w ≠ .noise) :
    (v.play rig w env note g').1 = (v.play rig w env note g).1 := by
  cases w with
  | noise => exact absurd rfl hw
  | raw => rfl
  | sample => rfl
  | _ =>
    simp only [play, playOscillator]
    split <;> rfl

end Voice

namespace Sound

section Notes

variable (rig : Rig) (env : Env) (notes : List Note) (voices : List Voice)

theorem voices_playNotes_congr (w : Waveform) (signal signal' : Float) (g g' : Noise) :
    (playNotes rig w env signal' g' notes voices).2.1 =
      (playNotes rig w env signal g notes voices).2.1 := by
  induction notes generalizing signal signal' g g' voices with
  | nil => rfl
  | cons note notes ih =>
    cases voices with
    | nil => rfl
    | cons v voices => exact congrArg₂ List.cons (v.voice_play_congr rig env note g g' w) (ih ..)

theorem signal_playNotes_congr {w : Waveform} (hw : w ≠ .noise) (signal : Float) (g g' : Noise) :
    (playNotes rig w env signal g' notes voices).1 =
      (playNotes rig w env signal g notes voices).1 := by
  induction notes generalizing signal g g' voices with
  | nil => rfl
  | cons note notes ih =>
    cases voices with
    | nil => rfl
    | cons v voices =>
      simp only [playNotes, v.signal_play_congr rig env note g g' hw]
      exact ih ..

end Notes

variable (rig : Rig) (timing : ChordTiming Float) (env : Env) (g g' : Noise) (s : Sound Float)

theorem sound_render_congr : (s.render rig env g').2.1 = (s.render rig env g).2.1 := by
  simp only [render]
  split
  · rfl
  · exact congrArg (fun voices => { s with voices }) (voices_playNotes_congr ..)

theorem signal_render_congr (hs : s.waveform ≠ .noise) :
    (s.render rig env g').1 = (s.render rig env g).1 := by
  simp only [render]
  split
  · rfl
  · exact signal_playNotes_congr rig env _ _ hs 0 g g'

/-- Playing leaves the waveform and the signature of a sound alone. -/
theorem catchUp_unchanged (beat : Float) (steps : Nat) :
    ∃ player current endBeat voices,
      s.catchUp timing env beat steps = { s with player, current, endBeat, voices } := by
  induction steps generalizing s with
  | zero => exact ⟨s.player, s.current, s.endBeat, s.voices, rfl⟩
  | succ steps ih =>
    rw [catchUp]
    split
    · exact ⟨s.player, s.current, s.endBeat, s.voices, rfl⟩
    · next stop _ =>
      split
      · obtain ⟨player, current, endBeat, voices, hpull⟩ := ih (s.pull timing env stop)
        exact ⟨player, current, endBeat, voices, hpull⟩
      · exact ⟨s.player, s.current, s.endBeat, s.voices, rfl⟩

theorem advance_unchanged (beat : Float) (cap : Nat) :
    ∃ player current endBeat voices,
      s.advance timing env beat cap = { s with player, current, endBeat, voices } := by
  obtain ⟨player, current, endBeat, voices, hcatchUp⟩ :=
    catchUp_unchanged timing env (s.anchor beat) beat cap
  refine ⟨player, current, endBeat, voices, ?_⟩
  rw [advance, hcatchUp, anchor]
  split <;> rfl

/-- Bring the sound to the present beat and render one frame of it. -/
def frame : Float × Sound Float × Noise :=
  (s.advance timing env env.beat rig.config.maxStepsPerSample.toNat).render rig env g

theorem sound_frame_congr :
    (s.frame rig timing env g').2.1 = (s.frame rig timing env g).2.1 :=
  sound_render_congr ..

theorem signal_frame_congr (hs : s.waveform ≠ .noise) :
    (s.frame rig timing env g').1 = (s.frame rig timing env g).1 := by
  refine signal_render_congr rig env g g' _ ?_
  obtain ⟨player, current, endBeat, voices, hadvance⟩ :=
    s.advance_unchanged timing env env.beat rig.config.maxStepsPerSample.toNat
  rw [hadvance]
  exact hs

theorem frame_unchanged :
    ∃ player current endBeat voices,
      (s.frame rig timing env g).2.1 = { s with player, current, endBeat, voices } := by
  obtain ⟨player, current, endBeat, voices, hadvance⟩ :=
    s.advance_unchanged timing env env.beat rig.config.maxStepsPerSample.toNat
  rw [frame, hadvance, render]
  split
  · exact ⟨player, current, endBeat, voices, rfl⟩
  · exact ⟨player, current, endBeat, _, rfl⟩

theorem waveform_frame : (s.frame rig timing env g).2.1.waveform = s.waveform := by
  obtain ⟨player, current, endBeat, voices, hframe⟩ := s.frame_unchanged rig timing env g
  rw [hframe]

theorem signature_frame : (s.frame rig timing env g).2.1.signature = s.signature := by
  obtain ⟨player, current, endBeat, voices, hframe⟩ := s.frame_unchanged rig timing env g
  rw [hframe]

end Sound

namespace Engine

/-! ## Stems -/

section Mix

variable (rig : Rig) (timing : ChordTiming Float) (env : Env) (g : Noise)
  (sounds : List (Sound Float))

/-- What each sound adds to one frame. -/
def mixStems (g : Noise) : List (Sound Float) → List Float
  | [] => []
  | s :: rest =>
    (s.frame rig timing env g).1 :: mixStems (s.frame rig timing env g).2.2 rest

theorem mix_cons (signal : Float) (s : Sound Float) :
    mix rig timing env signal g (s :: sounds) =
      let first := s.frame rig timing env g
      let others := mix rig timing env (signal + first.1) first.2.2 sounds
      (others.1, first.2.1 :: others.2.1, others.2.2) := rfl

/-- A frame is the sum of the stems, from left to right. -/
theorem signal_mix (signal : Float) :
    (mix rig timing env signal g sounds).1 =
      (mixStems rig timing env g sounds).foldl (· + ·) signal := by
  induction sounds generalizing signal g with
  | nil => rfl
  | cons s rest ih =>
    rw [mix_cons, mixStems, List.foldl_cons]
    exact ih ..

/-- A frame takes each sound on by itself. -/
theorem sounds_mix (signal : Float) :
    (mix rig timing env signal g sounds).2.1 =
      sounds.map fun s => (s.frame rig timing env g).2.1 := by
  suffices ∀ (signal : Float) (g' : Noise), (mix rig timing env signal g' sounds).2.1 =
      sounds.map fun s => (s.frame rig timing env g).2.1 from this signal g
  induction sounds with
  | nil => exact fun _ _ => rfl
  | cons s rest ih =>
    intro signal g'
    rw [mix_cons, List.map_cons]
    exact congrArg₂ List.cons (s.sound_frame_congr rig timing env g g') (ih _ _)

/-- The stem of the sound at a place is that of the sound alone, at some state of the noise. -/
theorem getElem?_mixStems (i : Nat) :
    ∃ g', (mixStems rig timing env g sounds)[i]? =
      sounds[i]?.map fun s => (s.frame rig timing env g').1 := by
  induction sounds generalizing g i with
  | nil => exact ⟨g, by simp [mixStems]⟩
  | cons s rest ih =>
    cases i with
    | zero => exact ⟨g, rfl⟩
    | succ i => exact ih (s.frame rig timing env g).2.2 i

end Mix

/-- The moment of a frame. -/
def envAt (frame : UInt64) (rate : UInt32) (e : Engine) : Env :=
  .atFrame frame rate (e.clock.beatAt frame rate)

/-- What each sound adds to a frame. -/
def frameStems (frame : UInt64) (rate : UInt32) (e : Engine) : List Float :=
  mixStems ⟨e.config, e.bank, rate⟩ e.config.chordTiming (e.envAt frame rate) e.noise e.sounds

/-- What each sound adds to each of some frames. -/
def stems (rate : UInt32) : Nat → UInt64 → Engine → List (List Float)
  | 0, _, _ => []
  | n + 1, frame, e =>
    e.frameStems frame rate :: stems rate n (frame + 1) (e.renderFrame frame rate).2

/-- One frame of output from its stems. -/
def mixDown (e : Engine) (stems : List Float) : Float32 :=
  (stems.foldl (· + ·) 0 * e.config.headroom).toFloat32

theorem sample_renderFrame (frame : UInt64) (rate : UInt32) (e : Engine) :
    (e.renderFrame frame rate).1 = e.mixDown (e.frameStems frame rate) :=
  congrArg (fun signal => (signal * e.config.headroom).toFloat32) (signal_mix ..)

theorem sounds_renderFrame (frame : UInt64) (rate : UInt32) (e : Engine) :
    (e.renderFrame frame rate).2.sounds = e.sounds.map fun s =>
      (s.frame ⟨e.config, e.bank, rate⟩ e.config.chordTiming (e.envAt frame rate) e.noise).2.1 :=
  sounds_mix ..

theorem samples_renderFrames (rate : UInt32) (n : Nat) (frame : UInt64) (e : Engine) :
    (renderFrames rate n frame #[] e).1.toList = (stems rate n frame e).map e.mixDown := by
  induction n generalizing frame e with
  | zero => rfl
  | succ n ih =>
    simp only [renderFrames]
    rw [renderFrames_rendered, stems, List.map_cons, ← sample_renderFrame, Array.toList_append, ih]
    rfl

/-! ## Two engines with one sound in common -/

/-- Engines with the same settings, clock and samples, one of which has at place `i` the sound that
the other has at place `j`, one with this waveform. -/
structure Shares (i j : Nat) (w : Waveform) (e e' : Engine) : Prop where
  config : e'.config = e.config
  clock : e'.clock = e.clock
  bank : e'.bank = e.bank
  sound : ∃ s, s.waveform = w ∧ e.sounds[i]? = some s ∧ e'.sounds[j]? = some s

section Frames

variable {i j : Nat} {w : Waveform} {e e' : Engine}

theorem Shares.renderFrame (h : e.Shares i j w e') (frame : UInt64) (rate : UInt32) :
    (e.renderFrame frame rate).2.Shares i j w (e'.renderFrame frame rate).2 := by
  obtain ⟨hconfig, hclock, hbank, s, hwaveform, hs, hs'⟩ := h
  let next := s.frame ⟨e.config, e.bank, rate⟩ e.config.chordTiming (e.envAt frame rate) e.noise
  refine ⟨hconfig, hclock, hbank, next.2.1, ?_, ?_, ?_⟩
  · rw [Sound.waveform_frame]
    exact hwaveform
  · rw [sounds_renderFrame, List.getElem?_map, hs]
    rfl
  · rw [sounds_renderFrame, List.getElem?_map, hs', envAt, hconfig, hclock, hbank]
    exact congrArg some (s.sound_frame_congr ..)

theorem Shares.renderFrames (h : e.Shares i j w e') (rate : UInt32) (n : Nat) (frame : UInt64)
    (rendered rendered' : Array Float32) :
    (Engine.renderFrames rate n frame rendered e).2.Shares i j w
      (Engine.renderFrames rate n frame rendered' e').2 := by
  induction n generalizing e e' frame rendered rendered' with
  | zero => exact h
  | succ n ih => exact ih (h.renderFrame frame rate) (frame + 1) _ _

/-- A sound that does not play noise adds the same to a frame of either engine. -/
theorem Shares.frameStems (h : e.Shares i j w e') (hw : w ≠ .noise) (frame : UInt64)
    (rate : UInt32) :
    ∃ x, (e.frameStems frame rate)[i]? = some x ∧ (e'.frameStems frame rate)[j]? = some x := by
  obtain ⟨hconfig, hclock, hbank, s, hwaveform, hs, hs'⟩ := h
  obtain ⟨g, hstem⟩ := getElem?_mixStems ⟨e.config, e.bank, rate⟩ e.config.chordTiming
    (e.envAt frame rate) e.noise e.sounds i
  obtain ⟨g', hstem'⟩ := getElem?_mixStems ⟨e.config, e.bank, rate⟩ e.config.chordTiming
    (e.envAt frame rate) e'.noise e'.sounds j
  have htonal : s.waveform ≠ .noise := hwaveform ▸ hw
  rw [hs] at hstem
  rw [hs', Option.map_some, s.signal_frame_congr _ _ _ g g' htonal] at hstem'
  refine ⟨_, hstem, ?_⟩
  rw [Engine.frameStems, envAt, hconfig, hclock, hbank]
  exact hstem'

theorem Shares.stems (h : e.Shares i j w e') (hw : w ≠ .noise) (rate : UInt32) (n : Nat)
    (frame : UInt64) : ∃ stem : List Float, (Engine.stems rate n frame e).map (·[i]?) =
      stem.map some ∧ (Engine.stems rate n frame e').map (·[j]?) = stem.map some := by
  induction n generalizing e e' frame with
  | zero => exact ⟨[], rfl, rfl⟩
  | succ n ih =>
    obtain ⟨x, hx, hx'⟩ := h.frameStems hw frame rate
    obtain ⟨stem, hstem, hstem'⟩ := ih (h.renderFrame frame rate) (frame + 1)
    refine ⟨x :: stem, ?_, ?_⟩
    · rw [Engine.stems, List.map_cons, hx, hstem, List.map_cons]
    · rw [Engine.stems, List.map_cons, hx', hstem', List.map_cons]

end Frames

end Engine

/-! ## Operations -/

namespace Operation

/-- Whether an operation lets the present sounds play on: it neither plays a source nor stops
them. -/
def isPlayback : Operation → Bool
  | handle (.source _) => false
  | load _ => false
  | silence => false
  | _ => true

/-- What each sound adds to each frame that an operation renders. -/
def stems (e : Engine) : Operation → List (List Float)
  | render count frame rate => Engine.stems rate count frame (e.retime frame rate)
  | _ => []

end Operation

namespace Engine

/-- What each sound adds to each frame that some operations render. -/
def stemsOver (e : Engine) : List Operation → List (List Float)
  | [] => []
  | op :: operations => op.stems e ++ (op.apply e).stemsOver operations

/-- What a block renders is the sum of the stems. -/
theorem samples_render (count : Nat) (frame : UInt64) (rate : UInt32) (e : Engine) :
    (e.render count frame rate).1.toList =
      ((Operation.render count frame rate).stems e).map e.mixDown := by
  obtain ⟨reports, hrender⟩ := render_eq count frame rate e
  rw [hrender]
  exact samples_renderFrames rate count frame (e.retime frame rate)

section Operations

variable {i j : Nat} {w : Waveform} {e e' : Engine}

theorem Shares.retime (h : e.Shares i j w e') (frame : UInt64) (rate : UInt32) :
    (e.retime frame rate).Shares i j w (e'.retime frame rate) :=
  ⟨h.config, congrArg (Clock.retime frame rate) h.clock, h.bank, h.sound⟩

theorem Shares.apply (h : e.Shares i j w e') {op : Operation} (hop : op.isPlayback = true) :
    (op.apply e).Shares i j w (op.apply e') := by
  cases op with
  | handle m =>
    cases m with
    | source text => cases hop
    | eval text => exact ⟨h.config, h.clock, h.bank, h.sound⟩
    | sample name buffer =>
      exact ⟨h.config, h.clock, congrArg (·.insert name buffer) h.bank, h.sound⟩
  | load source => cases hop
  | silence => cases hop
  | drain => exact ⟨h.config, h.clock, h.bank, h.sound⟩
  | render count frame rate =>
    obtain ⟨reports, hrender⟩ := render_eq count frame rate e
    obtain ⟨reports', hrender'⟩ := render_eq count frame rate e'
    obtain ⟨hconfig, hclock, hbank, hsound⟩ :=
      (h.retime frame rate).renderFrames rate count frame #[] #[]
    rw [Operation.apply, Operation.apply, hrender, hrender']
    exact ⟨hconfig, hclock, hbank, hsound⟩

theorem Shares.operationStems (h : e.Shares i j w e') (hw : w ≠ .noise) (op : Operation) :
    ∃ stem : List Float, (op.stems e).map (·[i]?) = stem.map some ∧
      (op.stems e').map (·[j]?) = stem.map some := by
  cases op with
  | render count frame rate => exact (h.retime frame rate).stems hw rate count frame
  | _ => exact ⟨[], rfl, rfl⟩

theorem Shares.foldl_apply (h : e.Shares i j w e') {operations : List Operation}
    (hops : ∀ op ∈ operations, op.isPlayback = true) :
    (operations.foldl Operation.apply e).Shares i j w (operations.foldl Operation.apply e') := by
  induction operations generalizing e e' with
  | nil => exact h
  | cons op operations ih =>
    obtain ⟨hop, hops⟩ := List.forall_mem_cons.1 hops
    exact ih (h.apply hop) hops

theorem Shares.stemsOver (h : e.Shares i j w e') (hw : w ≠ .noise) {operations : List Operation}
    (hops : ∀ op ∈ operations, op.isPlayback = true) :
    ∃ stem : List Float, (e.stemsOver operations).map (·[i]?) = stem.map some ∧
      (e'.stemsOver operations).map (·[j]?) = stem.map some := by
  induction operations generalizing e e' with
  | nil => exact ⟨[], rfl, rfl⟩
  | cons op operations ih =>
    obtain ⟨hop, hops⟩ := List.forall_mem_cons.1 hops
    obtain ⟨first, hfirst, hfirst'⟩ := h.operationStems hw op
    obtain ⟨others, hothers, hothers'⟩ := ih (h.apply hop) hops
    refine ⟨first ++ others, ?_, ?_⟩
    · rw [Engine.stemsOver, List.map_append, hfirst, hothers, List.map_append]
    · rw [Engine.stemsOver, List.map_append, hfirst', hothers', List.map_append]

end Operations

/-- If two engines agree in settings, clock and samples and have one sound in common, then the sound
stays the same in both of them while both play on, wherever it stands, whatever sounds are beside it
and whatever the noise. Its stem is the same as well, unless it plays noise. The stems are all that
is rendered: a block is their sum. -/
theorem sound_undisturbed {e e' : Engine} {i j : Nat} {s : Sound Float}
    (hconfig : e'.config = e.config) (hclock : e'.clock = e.clock) (hbank : e'.bank = e.bank)
    (hs : e.sounds[i]? = some s) (hs' : e'.sounds[j]? = some s) {operations : List Operation}
    (hops : ∀ op ∈ operations, op.isPlayback = true) :
    (∃ t, (operations.foldl Operation.apply e).sounds[i]? = some t ∧
        (operations.foldl Operation.apply e').sounds[j]? = some t) ∧
      (s.waveform ≠ .noise →
        ∃ stem : List Float, (e.stemsOver operations).map (·[i]?) = stem.map some ∧
          (e'.stemsOver operations).map (·[j]?) = stem.map some) ∧
      ∀ (e : Engine) (count : Nat) (frame : UInt64) (rate : UInt32),
        (e.render count frame rate).1.toList =
          ((Operation.render count frame rate).stems e).map e.mixDown := by
  have hshares : e.Shares i j s.waveform e' := ⟨hconfig, hclock, hbank, s, rfl, hs, hs'⟩
  refine ⟨?_, fun hw => hshares.stemsOver hw hops, fun e count frame rate =>
    samples_render count frame rate e⟩
  obtain ⟨t, -, ht, ht'⟩ := (hshares.foldl_apply hops).sound
  exact ⟨t, ht, ht'⟩

/-- An engine that plays `220 sine`. -/
def sineAlone : Engine :=
  (ofConfig {}).play ⟨[⟨.sine, .literal (.number 220) ⟨0, 3⟩⟩], [], 120, []⟩

/-- An engine that plays `440 noise 220 sine`, with noise of another seed. -/
def sineBesideNoise : Engine :=
  { (ofConfig {}).play ⟨[⟨.noise, .literal (.number 440) ⟨0, 3⟩⟩,
      ⟨.sine, .literal (.number 220) ⟨0, 3⟩⟩], [], 120, []⟩ with noise := .ofSeed 7 }

/-- Two blocks, and between them a sample that neither engine knows. -/
def kickBetweenBlocks : List Operation :=
  [.render 64 0 48000, .handle (.sample "kick" ⟨#[0.5], 48000⟩), .render 64 64 48000]

theorem sine_undisturbed :
    (∃ t, (kickBetweenBlocks.foldl Operation.apply sineAlone).sounds[0]? = some t ∧
        (kickBetweenBlocks.foldl Operation.apply sineBesideNoise).sounds[1]? = some t) ∧
      ∃ stem : List Float, (sineAlone.stemsOver kickBetweenBlocks).map (·[0]?) = stem.map some ∧
        (sineBesideNoise.stemsOver kickBetweenBlocks).map (·[1]?) = stem.map some := by
  let sine : Sound Float := .ofCommand ⟨.sine, .literal (.number 220) ⟨0, 3⟩⟩
  have halone : sineAlone.sounds[0]? = some sine := rfl
  have hbeside : sineBesideNoise.sounds[1]? = some sine := rfl
  have hwaveform : sine.waveform ≠ .noise := by decide
  have hops : ∀ op ∈ kickBetweenBlocks, op.isPlayback = true := by decide
  have hconfig : sineBesideNoise.config = sineAlone.config := rfl
  obtain ⟨hsound, hstem, -⟩ := sound_undisturbed hconfig rfl rfl halone hbeside hops
  exact ⟨hsound, hstem hwaveform⟩

end Engine

end PatternSynth
