import PatternSynth.CommandLine.Run
import PatternSynth.Proofs.Clock

/-!
# Rendering block by block

`Engine.renderEach` renders blocks one after another. Each block retimes the clock and reports what
sounds at its start, and everything else goes on frame by frame (`Engine.render_eq`). The main
result of this file is that how frames are cut into blocks makes no difference to what is rendered.
In particular a recording does not depend on the block size in the settings.
-/

namespace PatternSynth

/-! ## The block size is not read while frames are rendered -/

/-- Settings with another block size. -/
def Config.withBlockSize (blockSize : UInt64) (c : Config) : Config :=
  { c with blockSize }

section BlockSize

variable (blockSize : UInt64) (config : Config) (bank : SampleBank) (rate : UInt32) (env : Env)

theorem Voice.play_withBlockSize (w : Waveform) (note : Note) (v : Voice) (g : Noise) :
    v.play ⟨config.withBlockSize blockSize, bank, rate⟩ w env note g =
      v.play ⟨config, bank, rate⟩ w env note g := by
  cases w <;> rfl

theorem Sound.playNotes_withBlockSize (w : Waveform) (signal : Float) (g : Noise)
    (notes : List Note) (voices : List Voice) :
    playNotes ⟨config.withBlockSize blockSize, bank, rate⟩ w env signal g notes voices =
      playNotes ⟨config, bank, rate⟩ w env signal g notes voices := by
  induction notes generalizing voices signal g with
  | nil => rfl
  | cons note notes ih =>
    cases voices with
    | nil => rfl
    | cons v voices => simp only [playNotes, Voice.play_withBlockSize, ih]

theorem Sound.render_withBlockSize {β : Type} (g : Noise) (s : Sound β) :
    s.render ⟨config.withBlockSize blockSize, bank, rate⟩ env g =
      s.render ⟨config, bank, rate⟩ env g := by
  simp only [render, playNotes_withBlockSize]

theorem Engine.mix_withBlockSize (timing : ChordTiming Float) (signal : Float) (g : Noise)
    (sounds : List (Sound Float)) :
    mix ⟨config.withBlockSize blockSize, bank, rate⟩ timing env signal g sounds =
      mix ⟨config, bank, rate⟩ timing env signal g sounds := by
  induction sounds generalizing signal g with
  | nil => rfl
  | cons s sounds ih =>
    simp only [mix, Sound.render_withBlockSize, ih]
    rfl

end BlockSize

namespace Engine

/-! ## Frame by frame -/

/-- Engines that sound the same from here on. They may differ in the block size, in the messages
that they have sent, and in how their clocks come to the same beats. -/
structure Alike (e e' : Engine) : Prop where
  config : ∃ blockSize, e'.config = e.config.withBlockSize blockSize
  sounds : e'.sounds = e.sounds
  bank : e'.bank = e.bank
  noise : e'.noise = e.noise
  beat : ∀ frame rate, e'.clock.beatAt frame rate = e.clock.beatAt frame rate

theorem Alike.renderFrame {e e' : Engine} (h : e.Alike e') (frame : UInt64) (rate : UInt32) :
    (e'.renderFrame frame rate).1 = (e.renderFrame frame rate).1 ∧
      (e.renderFrame frame rate).2.Alike (e'.renderFrame frame rate).2 := by
  obtain ⟨⟨blockSize, hconfig⟩, hsounds, hbank, hnoise, hbeat⟩ := h
  have htiming : (e.config.withBlockSize blockSize).chordTiming = e.config.chordTiming := rfl
  have hheadroom : (e.config.withBlockSize blockSize).headroom = e.config.headroom := rfl
  simp only [Engine.renderFrame, hconfig, hsounds, hbank, hnoise, hbeat, htiming, hheadroom,
    mix_withBlockSize]
  exact ⟨trivial, ⟨⟨blockSize, rfl⟩, rfl, rfl, rfl, hbeat⟩⟩

theorem Alike.renderFrames {e e' : Engine} (h : e.Alike e') (rate : UInt32) (n : Nat)
    (frame : UInt64) (rendered : Array Float32) :
    (Engine.renderFrames rate n frame rendered e').1 =
        (Engine.renderFrames rate n frame rendered e).1 ∧
      (Engine.renderFrames rate n frame rendered e).2.Alike
        (Engine.renderFrames rate n frame rendered e').2 := by
  induction n generalizing e e' frame rendered with
  | zero => exact ⟨rfl, h⟩
  | succ n ih =>
    obtain ⟨hsample, halike⟩ := h.renderFrame frame rate
    simp only [Engine.renderFrames, hsample]
    exact ih halike (frame + 1) _

section Frames

variable (rate : UInt32) (frame : UInt64) (rendered : Array Float32) (e : Engine)

/-- Rendering frames changes only the sounds and the noise. -/
theorem renderFrames_unchanged (n : Nat) :
    ∃ sounds noise, (renderFrames rate n frame rendered e).2 = { e with sounds, noise } := by
  induction n generalizing frame rendered e with
  | zero => exact ⟨e.sounds, e.noise, rfl⟩
  | succ n ih =>
    obtain ⟨sounds, noise, h⟩ := ih (frame + 1) (rendered.push (e.renderFrame frame rate).1)
      (e.renderFrame frame rate).2
    exact ⟨sounds, noise, h⟩

theorem renderFrames_rendered (n : Nat) :
    renderFrames rate n frame rendered e =
      (rendered ++ (renderFrames rate n frame #[] e).1, (renderFrames rate n frame #[] e).2) := by
  induction n generalizing frame rendered e with
  | zero => rw [renderFrames, renderFrames, Array.append_empty]
  | succ n ih =>
    simp only [renderFrames]
    rw [ih, ih (frame + 1) (#[].push _)]
    simp

theorem renderFrames_add (n k : Nat) :
    renderFrames rate (n + k) frame rendered e =
      renderFrames rate k (frame + n.toUInt64) (renderFrames rate n frame rendered e).1
        (renderFrames rate n frame rendered e).2 := by
  induction n generalizing frame rendered e with
  | zero =>
    rw [Nat.zero_add, renderFrames]
    exact congrArg (renderFrames rate k · rendered e) (UInt64.add_zero frame).symm
  | succ n ih =>
    have hframe : frame + 1 + n.toUInt64 = frame + (n + 1).toUInt64 := by
      rw [Nat.toUInt64_eq, Nat.toUInt64_eq, UInt64.ofNat_add, UInt64.add_assoc, UInt64.add_comm 1]
      rfl
    rw [Nat.add_right_comm]
    simp only [renderFrames, ih, hframe]

end Frames

/-! ## Block by block -/

/-- Let the requested tempo take effect. -/
def retime (frame : UInt64) (rate : UInt32) (e : Engine) : Engine :=
  { e with clock := e.clock.retime frame rate }

/-- Send reports of what sounds. -/
def report (reports : List (List Span)) (e : Engine) : Engine :=
  { e with outbox := e.outbox ++ (reports.map Outbound.highlight).toArray }

/-- A block retimes the clock, renders its frames, and reports what sounds at most once. -/
theorem render_eq (n : Nat) (frame : UInt64) (rate : UInt32) (e : Engine) :
    ∃ reports, e.render n frame rate =
      ((renderFrames rate n frame #[] (e.retime frame rate)).1,
        (renderFrames rate n frame #[] (e.retime frame rate)).2.report reports) := by
  cases n with
  | zero => exact ⟨[], by simp [render, renderFrames, report, retime]⟩
  | succ n =>
    let first := ((e.retime frame rate).renderFrame frame rate).2
    by_cases hempty : first.activeSpans.isEmpty = true
    · refine ⟨[], ?_⟩
      have hrender : e.render (n + 1) frame rate =
          renderFrames rate (n + 1) frame #[] (e.retime frame rate) :=
        congrArg (Prod.mk _) (if_pos hempty)
      simp [hrender, report]
    · exact ⟨[first.activeSpans], congrArg (Prod.mk _) ((if_neg hempty).trans (by rfl))⟩

/-- Apart from the sounds and the noise, a block only retimes the clock and sends reports. -/
theorem render_unchanged (n : Nat) (frame : UInt64) (rate : UInt32) (e : Engine) :
    ∃ sounds noise reports,
      (e.render n frame rate).2 = { (e.retime frame rate).report reports with sounds, noise } := by
  obtain ⟨reports, hrender⟩ := render_eq n frame rate e
  obtain ⟨sounds, noise, hframes⟩ := renderFrames_unchanged rate frame #[] (e.retime frame rate) n
  refine ⟨sounds, noise, reports, ?_⟩
  rw [hrender, hframes]
  rfl

theorem clock_render (n : Nat) (frame : UInt64) (rate : UInt32) (e : Engine) :
    (e.render n frame rate).2.clock = e.clock.retime frame rate := by
  obtain ⟨sounds, noise, reports, hrender⟩ := render_unchanged n frame rate e
  rw [hrender]
  rfl

/-- Retiming for the next block makes no difference to what sounds, since the block before has done
so. -/
theorem alike_retime_render (n : Nat) (frame frame' : UInt64) (rate : UInt32) (e : Engine) :
    (renderFrames rate n frame #[] (e.retime frame rate)).2.Alike
      ((e.render n frame rate).2.retime frame' rate) := by
  obtain ⟨reports, hrender⟩ := render_eq n frame rate e
  obtain ⟨sounds, noise, hframes⟩ := renderFrames_unchanged rate frame #[] (e.retime frame rate) n
  rw [hrender, hframes]
  exact ⟨⟨e.config.blockSize, rfl⟩, rfl, rfl, rfl,
    fun _ _ => Clock.beatAt_retime (Clock.isSettled_retime e.clock frame rate) _ _ _ _⟩

/-- Render blocks of these lengths one after another. -/
def renderEach (rate : UInt32) : List Nat → UInt64 → Engine → Array Float32 × Engine
  | [], _, e => (#[], e)
  | n :: ns, frame, e =>
    let block := e.render n frame rate
    let others := renderEach rate ns (frame + n.toUInt64) block.2
    (block.1 ++ others.1, others.2)

section Each

variable (rate : UInt32)

/-- However frames are cut into blocks, they sound as if they were rendered at once. -/
theorem renderEach_eq_renderFrames (blocks : List Nat) (frame : UInt64) (e : Engine) :
    let each := renderEach rate blocks frame e
    let whole := renderFrames rate blocks.sum frame #[] (e.retime frame rate)
    each.1 = whole.1 ∧ each.2.sounds = whole.2.sounds ∧ each.2.noise = whole.2.noise := by
  induction blocks generalizing frame e with
  | nil => exact ⟨rfl, rfl, rfl⟩
  | cons n ns ih =>
    obtain ⟨reports, hrender⟩ := render_eq n frame rate e
    obtain ⟨hsamples, hsounds, hnoise⟩ := ih (frame + n.toUInt64) (e.render n frame rate).2
    obtain ⟨hframes, halike⟩ := (alike_retime_render n frame (frame + n.toUInt64) rate
      e).renderFrames rate ns.sum (frame + n.toUInt64) #[]
    simp only [renderEach, List.sum_cons]
    rw [renderFrames_add, renderFrames_rendered]
    refine ⟨?_, hsounds.trans halike.sounds, hnoise.trans halike.noise⟩
    rw [hsamples, hframes, hrender]

/-- Apart from the sounds, the noise and the clock, blocks only send reports. -/
theorem renderEach_unchanged (blocks : List Nat) (frame : UInt64) (e : Engine) :
    ∃ sounds noise clock reports,
      (renderEach rate blocks frame e).2 = { e.report reports with sounds, noise, clock } := by
  induction blocks generalizing frame e with
  | nil => exact ⟨e.sounds, e.noise, e.clock, [], by simp [renderEach, report]⟩
  | cons n ns ih =>
    obtain ⟨_, _, first, hfirst⟩ := render_unchanged n frame rate e
    obtain ⟨sounds, noise, clock, others, hothers⟩ := ih (frame + n.toUInt64)
      (e.render n frame rate).2
    refine ⟨sounds, noise, clock, first ++ others, ?_⟩
    rw [renderEach, hothers, hfirst]
    simp [report, retime]

/-- After the first block, further blocks leave the clock as it is, unless the tempo is NaN. -/
theorem clock_renderEach (blocks : List Nat) (frame : UInt64) (e : Engine)
    (htempo : e.tempo.isNaN = false) (hblocks : blocks ≠ []) :
    (renderEach rate blocks frame e).2.clock = e.clock.retime frame rate := by
  induction blocks generalizing frame e with
  | nil => exact absurd rfl hblocks
  | cons n ns ih =>
    by_cases hns : ns = []
    · subst hns
      exact clock_render n frame rate e
    · have htempo' : (e.render n frame rate).2.tempo.isNaN = false := by
        rw [tempo, clock_render, Clock.tempo_retime]
        exact htempo
      simp only [renderEach]
      rw [ih (frame + n.toUInt64) _ htempo' hns, clock_render, Clock.retime_retime htempo]

end Each

/-! ## Recordings -/

/-- The lengths of the blocks that so many frames are cut into. -/
def cut (block count : Nat) : List Nat :=
  if count = 0 then []
  else
    let n := min (max block 1) count
    n :: cut block (count - n)
termination_by count

theorem sum_cut (block count : Nat) : (cut block count).sum = count := by
  fun_induction cut block count with
  | case1 => rfl
  | case2 count hcount n ih =>
    rw [List.sum_cons, ih]
    omega

theorem renderBlocks_eq_renderEach (block : Nat) (rate : UInt32) (count : Nat) (frame : UInt64)
    (rendered : Array Float32) (e : Engine) :
    renderBlocks block rate count frame rendered e =
      (rendered ++ (renderEach rate (cut block count) frame e).1,
        (renderEach rate (cut block count) frame e).2) := by
  fun_induction renderBlocks block rate count frame rendered e with
  | case1 frame rendered e => rw [cut, if_pos rfl, renderEach, Array.append_empty]
  | case2 count frame rendered e hcount n xs e' hrender ih =>
    have hcut : cut block count = n :: cut block (count - n) := by rw [cut, if_neg hcount]
    rw [ih, hcut]
    simp only [renderEach, hrender, Array.append_assoc]

/-- The engine with another block size in its settings. -/
def withBlockSize (blockSize : UInt64) (e : Engine) : Engine :=
  { e with config := e.config.withBlockSize blockSize }

variable (blockSize : UInt64)

theorem play_withBlockSize (p : Program) (e : Engine) :
    (e.withBlockSize blockSize).play p = (e.play p).withBlockSize blockSize := by
  simp only [play, apply_ite (withBlockSize blockSize)]
  rfl

section Offline

variable {m : Type → Type} [Monad m] [LawfulMonad m] (files : Files m)

end Offline

end Engine

namespace Engine

end Engine

end PatternSynth
