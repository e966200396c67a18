import PatternSynth.Proofs.Host.Process
import PatternSynth.Proofs.Program.Output

/-!
# The device plays the engine, whatever the sizes of its buffers

`Host.processEach` fills one buffer after another. The first call carries out the commands that have
queued up, and from then on every call goes on with the engine where the call before has left it, in
blocks that end where its buffer does. How the frames are cut into blocks makes no difference to
what is heard. The main result of this file is that the sizes of the buffers make none either: all
that counts is how many frames are asked for altogether.
-/

namespace PatternSynth

/-! ## The tempo is a number -/

theorem not_isNaN_of_isFinite {x : Float} (h : x.isFinite = true) : x.isNaN = false := by
  change x.toModel.unpack.isFinite = true at h
  change x.toModel.unpack.isNaN = false
  cases hx : x.toModel.unpack with
  | notANumber =>
    rw [hx] at h
    cases h
  | _ => rfl

theorem tempo_of_compile {mode : Mode} {tempo : Float} {source : String} {program : Program}
    (h : compile mode tempo source = .ok program) (htempo : tempo.isNaN = false) :
    program.tempo.isNaN = false := by
  obtain ⟨m, hm, rfl⟩ := exists_finish_of_output (P := fun m => m.tempo.isNaN = false)
    (fun m m' hm houtput => by
      cases houtput with
      | kept _ _ hkept => exact hkept ▸ hm
      | issued _ _ _ _ hkept => exact hkept ▸ hm
      | retimed _ _ hfinite => exact not_isNaN_of_isFinite hfinite)
    (fun _ _ _ hm => hm) htempo h
  exact hm

namespace Engine

theorem tempo_play (p : Program) (e : Engine) : (e.play p).tempo = p.tempo := by
  simp only [play]
  split <;> rfl

theorem not_isNaN_tempo_handle {e : Engine} (h : e.tempo.isNaN = false) (m : Inbound) :
    (e.handle m).tempo.isNaN = false := by
  cases m with
  | source text =>
    simp only [handle, load]
    cases hcompile : compile .commit e.tempo text with
    | error err => exact h
    | ok program =>
      have htempo := tempo_of_compile hcompile h
      rw [← tempo_play program e] at htempo
      exact htempo
  | eval text => exact h
  | sample name buffer => exact h

/-! ## Blocks after blocks -/

/-- The engine with messages to send before all others. -/
def owing (messages : Array Outbound) (e : Engine) : Engine :=
  { e with outbox := messages ++ e.outbox }

theorem owing_drain (e : Engine) : e.drain.2.owing e.outbox = e :=
  congrArg (fun outbox => { e with outbox }) Array.append_empty

theorem send_owing (messages : Array Outbound) (m : Outbound) (e : Engine) :
    (e.owing messages).send m = (e.send m).owing messages :=
  congrArg (fun outbox => { e with outbox }) Array.append_push.symm

section Each

variable (rate : UInt32)

theorem renderFrames_owing (messages : Array Outbound) (n : Nat) (frame : UInt64)
    (rendered : Array Float32) (e : Engine) :
    renderFrames rate n frame rendered (e.owing messages) =
      ((renderFrames rate n frame rendered e).1,
        (renderFrames rate n frame rendered e).2.owing messages) := by
  induction n generalizing e frame rendered with
  | zero => rfl
  | succ n ih => exact ih (frame + 1) _ (e.renderFrame frame rate).2

theorem render_owing (messages : Array Outbound) (n : Nat) (frame : UInt64) (e : Engine) :
    (e.owing messages).render n frame rate =
      ((e.render n frame rate).1, (e.render n frame rate).2.owing messages) := by
  cases n with
  | zero => rfl
  | succ n =>
    let first := (e.retime frame rate).renderFrame frame rate
    let frames := renderFrames rate n (frame + 1) #[first.1] first.2
    let spans := first.2.activeSpans
    have hrender : e.render (n + 1) frame rate =
        (frames.1, if spans.isEmpty then frames.2 else frames.2.send (.highlight spans)) := rfl
    have howing : (e.owing messages).render (n + 1) frame rate =
        let frames := renderFrames rate n (frame + 1) #[first.1] (first.2.owing messages)
        (frames.1, if spans.isEmpty then frames.2 else frames.2.send (.highlight spans)) := rfl
    rw [howing, hrender, renderFrames_owing]
    simp only [send_owing, apply_ite (owing messages), frames]

/-- What is rendered does not depend on the messages that wait for the host. -/
theorem renderEach_owing (messages : Array Outbound) (blocks : List Nat) (frame : UInt64)
    (e : Engine) :
    renderEach rate blocks frame (e.owing messages) =
      ((renderEach rate blocks frame e).1, (renderEach rate blocks frame e).2.owing messages) := by
  induction blocks generalizing e frame with
  | nil => rfl
  | cons n ns ih => simp only [renderEach, render_owing, ih]

theorem frame_add_add (frame : UInt64) (n k : Nat) :
    frame + n.toUInt64 + k.toUInt64 = frame + (n + k).toUInt64 := by
  rw [Nat.toUInt64_eq, Nat.toUInt64_eq, Nat.toUInt64_eq, UInt64.ofNat_add, UInt64.add_assoc]

theorem renderEach_append (blocks blocks' : List Nat) (frame : UInt64) (e : Engine) :
    renderEach rate (blocks ++ blocks') frame e =
      let first := renderEach rate blocks frame e
      let others := renderEach rate blocks' (frame + blocks.sum.toUInt64) first.2
      (first.1 ++ others.1, others.2) := by
  induction blocks generalizing frame e with
  | nil =>
    have hframe : frame + Nat.toUInt64 0 = frame := UInt64.add_zero frame
    simp only [List.nil_append, renderEach, List.sum_nil, hframe, Array.empty_append]
  | cons n ns ih =>
    simp only [List.cons_append, renderEach, ih, List.sum_cons, frame_add_add, Array.append_assoc]

theorem size_renderFrames (n : Nat) (frame : UInt64) (rendered : Array Float32) (e : Engine) :
    (renderFrames rate n frame rendered e).1.size = rendered.size + n := by
  induction n generalizing e frame rendered with
  | zero => rfl
  | succ n ih =>
    simp only [renderFrames]
    rw [ih, Array.size_push]
    omega

theorem size_renderEach (blocks : List Nat) (frame : UInt64) (e : Engine) :
    (renderEach rate blocks frame e).1.size = blocks.sum := by
  rw [(renderEach_eq_renderFrames rate blocks frame e).1, size_renderFrames]
  exact Nat.zero_add _

/-- Blocks that come to the same number of frames render the same and leave the same, apart from
messages. -/
theorem renderEach_congr_sum {blocks blocks' : List Nat} (hsum : blocks.sum = blocks'.sum)
    (hnil : blocks = [] ↔ blocks' = []) (frame : UInt64) {e : Engine}
    (htempo : e.tempo.isNaN = false) :
    (renderEach rate blocks frame e).1 = (renderEach rate blocks' frame e).1 ∧
      (renderEach rate blocks frame e).2.drain.2 =
        (renderEach rate blocks' frame e).2.drain.2 := by
  obtain ⟨hsamples, hsounds, hnoise⟩ := renderEach_eq_renderFrames rate blocks frame e
  obtain ⟨hsamples', hsounds', hnoise'⟩ := renderEach_eq_renderFrames rate blocks' frame e
  rw [hsum] at hsamples hsounds hnoise
  refine ⟨hsamples.trans hsamples'.symm, ?_⟩
  have hclock : (renderEach rate blocks frame e).2.clock =
      (renderEach rate blocks' frame e).2.clock := by
    by_cases hblocks : blocks = []
    · rw [hblocks, hnil.1 hblocks]
    · rw [clock_renderEach rate blocks frame e htempo hblocks,
        clock_renderEach rate blocks' frame e htempo (fun h => hblocks (hnil.2 h))]
  obtain ⟨sounds, noise, clock, reports, heach⟩ := renderEach_unchanged rate blocks frame e
  obtain ⟨sounds', noise', clock', reports', heach'⟩ := renderEach_unchanged rate blocks' frame e
  have hsame := hsounds.trans hsounds'.symm
  have hsame' := hnoise.trans hnoise'.symm
  rw [heach, heach'] at hsame hsame' hclock ⊢
  simp only at hsame hsame' hclock
  rw [hsame, hsame', hclock]
  rfl

theorem sum_flatMap_cut (block : Nat) (counts : List Nat) :
    (counts.flatMap (cut block)).sum = counts.sum := by
  induction counts with
  | nil => rfl
  | cons count counts ih => rw [List.flatMap_cons, List.sum_append, sum_cut, ih, List.sum_cons]

/-- No frames are cut into no blocks. -/
theorem flatMap_cut_eq_nil_iff (block : Nat) (counts : List Nat) :
    counts.flatMap (cut block) = [] ↔ counts.sum = 0 := by
  constructor
  · intro h
    rw [← sum_flatMap_cut block counts, h]
    rfl
  · intro h
    rw [List.flatMap_eq_nil_iff]
    intro count hcount
    rw [cut, if_pos (List.sum_eq_zero_iff.1 h count hcount)]

end Each

end Engine

namespace Queue

/-! ## Reports in a queue -/

/-- The queue without the reports of what sounds. -/
def withoutReports (q : Queue Outbound) : Queue Outbound :=
  { q with entries := q.entries.filter (!·.isReport) }

theorem withoutReports_offerAll_highlight (q : Queue Outbound) (reports : List (List Span)) :
    (q.offerAll (reports.map Outbound.highlight)).withoutReports = q.withoutReports := by
  have hentries : (q.offerAll (reports.map Outbound.highlight)).entries.filter (!·.isReport) =
      q.entries.filter (!·.isReport) := by
    apply Array.ext'
    rw [Array.toList_filter, Array.toList_filter, toList_offerAll, ← List.map_take]
    refine (Outbound.lasting_append ..).trans ?_
    rw [Outbound.lasting_map_highlight, List.append_nil]
    rfl
  simp only [withoutReports, hentries, capacity_offerAll]

end Queue

namespace Host

/-! ## Interleaved output -/

section Interleave

variable (channels : Nat) (volume : Float32)

theorem interleave_append (xs ys : Array Float32) :
    interleave channels volume (xs ++ ys) =
      interleave channels volume xs ++ interleave channels volume ys :=
  Array.flatMap_append

theorem toList_interleave (frames : Array Float32) :
    (interleave channels volume frames).toList =
      frames.toList.flatMap fun x => List.replicate channels (x * volume) := by
  rw [interleave, Array.toList_flatMap]
  simp only [Array.toList_replicate]

theorem size_interleave (frames : Array Float32) :
    (interleave channels volume frames).size = frames.size * channels := by
  rw [← Array.length_toList, toList_interleave, List.length_flatMap]
  simp

/-- Every channel of a frame has the frame's sample. -/
theorem getElem?_interleave {c : Nat} (hc : c < channels) (frames : Array Float32) (k : Nat) :
    (interleave channels volume frames).toList[k * channels + c]? =
      frames[k]?.map (· * volume) := by
  rw [toList_interleave, ← Array.getElem?_toList]
  induction frames.toList generalizing k with
  | nil => simp
  | cons x xs ih =>
    rw [List.flatMap_cons]
    cases k with
    | zero =>
      rw [Nat.zero_mul, Nat.zero_add,
        List.getElem?_append_left (by rw [List.length_replicate]; exact hc),
        List.getElem?_replicate_of_lt hc]
      rfl
    | succ k =>
      rw [List.getElem?_append_right (by rw [List.length_replicate, Nat.succ_mul]; omega),
        List.length_replicate, Nat.succ_mul, Nat.add_right_comm, Nat.add_sub_cancel, ih]
      rfl

end Interleave

/-! ## Calls after calls -/

/-- Fill buffers one after another. -/
def processEach : List (Array Float32) → Host → List (Array Float32) × Host
  | [], h => ([], h)
  | output :: outputs, h =>
    let first := h.process output
    let others := processEach outputs first.2
    (first.1 :: others.1, others.2)

/-- The device without the reports that wait for its host. -/
def withoutReports (h : Host) : Host :=
  { h with outbound := h.outbound.withoutReports }

/-- A device with no commands to carry out and no messages to hand on. -/
structure Quiet (h : Host) : Prop where
  controls : h.controls.entries = #[]
  outbox : h.engine.outbox = #[]

theorem quiet_forward_obeyAll (h : Host) : h.obeyAll.forward.Quiet := by
  obtain ⟨engine, volume, hobey⟩ := obeyAll_unchanged h
  rw [hobey]
  exact ⟨rfl, rfl⟩

theorem size_played (h : Host) (size : Nat) : (h.played size).1.size = size / h.channels := by
  rw [played, Engine.size_renderEach, blocks, Engine.sum_cut]

theorem played_forward (h : Host) (size : Nat) :
    h.played size =
      ((h.forward.played size).1, (h.forward.played size).2.owing h.engine.outbox) := by
  rw [played, ← Engine.owing_drain h.engine, Engine.renderEach_owing]
  rfl

/-- It makes no difference whether commands are carried out, and their replies handed on, before a
call or by the call. -/
theorem process_forward_obeyAll (h : Host) (output : Array Float32) :
    h.obeyAll.forward.process output = h.process output := by
  have hcontrols := (quiet_forward_obeyAll h).controls
  obtain ⟨engine, volume, hobey⟩ := obeyAll_unchanged h
  rw [process_eq, process_eq, obeyAll_of_controls_eq_empty hcontrols]
  simp only [played_forward h.obeyAll, Engine.owing, Array.toList_append, Queue.offerAll_append]
  rw [hobey]
  rfl

theorem processEach_forward_obeyAll (h : Host) {buffers : List (Array Float32)}
    (hbuffers : buffers ≠ []) :
    h.obeyAll.forward.processEach buffers = h.processEach buffers := by
  cases buffers with
  | nil => exact absurd rfl hbuffers
  | cons output outputs => simp only [processEach, process_forward_obeyAll]

/-- The device after a call, with what it then has for its host. -/
def after (h : Host) (size : Nat) (outbound : Queue Outbound) : Host :=
  { h with
    engine := (h.played size).2.drain.2
    frame := h.frame + (size / h.channels).toUInt64
    outbound }

/-- A call of a quiet device fills the buffer, and all that it hands on is reports. -/
theorem process_of_quiet {h : Host} (hquiet : h.Quiet) {output : Array Float32}
    (hsize : h.channels ∣ output.size) :
    (h.process output).1 = interleave h.channels h.volume (h.played output.size).1 ∧
      ∃ outbound, (h.process output).2 = h.after output.size outbound ∧
        outbound.withoutReports = h.outbound.withoutReports := by
  obtain ⟨reports, hreports⟩ := exists_outbox_played h output.size
  rw [hquiet.outbox, List.nil_append] at hreports
  have hfilled : (interleave h.channels h.volume (h.played output.size).1).size = output.size := by
    rw [size_interleave, size_played, Nat.div_mul_cancel hsize]
  rw [process_eq, obeyAll_of_controls_eq_empty hquiet.controls]
  simp only [hfilled, hreports]
  refine ⟨by simp, h.outbound.offerAll (reports.map Outbound.highlight), rfl, ?_⟩
  exact Queue.withoutReports_offerAll_highlight h.outbound reports

/-- How many frames each buffer asks for. -/
def counts (h : Host) (buffers : List (Array Float32)) : List Nat :=
  buffers.map (·.size / h.channels)

theorem counts_forward_obeyAll (h : Host) : h.obeyAll.forward.counts = h.counts := by
  obtain ⟨engine, volume, hobey⟩ := obeyAll_unchanged h
  rw [hobey]
  rfl

/-- What buffers ask for altogether. -/
theorem sum_counts {h : Host} {buffers : List (Array Float32)}
    (hsizes : ∀ output ∈ buffers, h.channels ∣ output.size) :
    (h.counts buffers).sum = (buffers.map Array.size).sum / h.channels := by
  induction buffers with
  | nil => exact (Nat.zero_div _).symm
  | cons output outputs ih =>
    have hfirst := hsizes output (List.mem_cons_self ..)
    have hothers := ih fun output hmem => hsizes output (List.mem_cons_of_mem _ hmem)
    rw [counts, List.map_cons, List.sum_cons, List.map_cons, List.sum_cons,
      Nat.add_div_of_dvd_right hfirst]
    exact congrArg (output.size / h.channels + ·) hothers

/-- The frames that calls of a quiet device play, and the engine after them. -/
def playedEach (h : Host) (buffers : List (Array Float32)) : Array Float32 × Engine :=
  Engine.renderEach h.rate
    ((h.counts buffers).flatMap (Engine.cut h.engine.config.blockSize.toNat)) h.frame h.engine

theorem playedEach_cons (h : Host) (output : Array Float32) (outputs : List (Array Float32))
    (outbound : Queue Outbound) :
    let others := (h.after output.size outbound).playedEach outputs
    h.playedEach (output :: outputs) =
      ((h.played output.size).1 ++ others.1,
        others.2.owing (h.played output.size).2.outbox) := by
  have hconfig : (h.played output.size).2.config = h.engine.config := by
    obtain ⟨sounds, noise, clock, reports, heach⟩ :=
      Engine.renderEach_unchanged h.rate (h.blocks output.size) h.frame h.engine
    rw [played, heach]
    rfl
  have hblocks : (h.after output.size outbound).engine.config = h.engine.config := hconfig
  simp only [playedEach, counts, List.map_cons, List.flatMap_cons, Engine.renderEach_append,
    Engine.sum_cut, hblocks]
  rw [← Engine.owing_drain (Engine.renderEach _ _ _ h.engine).2, Engine.renderEach_owing]
  rfl

/-- Calls of a quiet device play blocks after blocks, across the ends of buffers. -/
theorem processEach_of_quiet {h : Host} (hquiet : h.Quiet) {buffers : List (Array Float32)}
    (hsizes : ∀ output ∈ buffers, h.channels ∣ output.size) :
    let run := h.processEach buffers
    let frames := h.playedEach buffers
    run.1.flatMap Array.toList = (interleave h.channels h.volume frames.1).toList ∧
      run.1.map Array.size = buffers.map Array.size ∧
      ∃ outbound,
        run.2 =
          { h with
            engine := frames.2.drain.2
            frame := h.frame + (h.counts buffers).sum.toUInt64
            outbound } ∧
        outbound.withoutReports = h.outbound.withoutReports := by
  -- By induction on the buffers, over all quiet devices: each call leaves the next one quiet.
  induction buffers generalizing h with
  | nil =>
    refine ⟨rfl, rfl, h.outbound, ?_, rfl⟩
    have hframe : h.frame + Nat.toUInt64 0 = h.frame := UInt64.add_zero h.frame
    have hengine : h.engine.drain.2 = h.engine := by
      rw [Engine.drain, ← hquiet.outbox]
    show h = { h with engine := h.engine.drain.2, frame := h.frame + Nat.toUInt64 0 }
    rw [hframe, hengine]
  | cons output outputs ih =>
    have hfirst := hsizes output (List.mem_cons_self ..)
    have hothers := fun output hmem => hsizes output (List.mem_cons_of_mem _ hmem)
    obtain ⟨hfilled, outbound, hafter, hkept⟩ := process_of_quiet hquiet hfirst
    have hquiet' : (h.after output.size outbound).Quiet := ⟨hquiet.controls, rfl⟩
    obtain ⟨hstream, hkeep, last, hlast, hlast'⟩ := ih hquiet' hothers
    have hframe : h.frame + (output.size / h.channels).toUInt64 + (h.counts outputs).sum.toUInt64 =
        h.frame + (h.counts (output :: outputs)).sum.toUInt64 :=
      Engine.frame_add_add ..
    simp only [processEach, hafter, hfilled, playedEach_cons h output outputs outbound]
    refine ⟨?_, ?_, last, ?_, hlast'.trans hkept⟩
    · rw [List.flatMap_cons, hstream, interleave_append, Array.toList_append]
      rfl
    · rw [List.map_cons, hkeep, size_interleave, size_played, Nat.div_mul_cancel hfirst]
      rfl
    · rw [hlast, ← hframe]
      rfl

/-- Calls play what the engine renders at once, whatever their buffers. -/
theorem frames_playedEach_forward {h : Host} {buffers : List (Array Float32)}
    (hsizes : ∀ output ∈ buffers, h.channels ∣ output.size) :
    (h.forward.playedEach buffers).1 =
      (h.engine.render ((buffers.map Array.size).sum / h.channels) h.frame h.rate).1 := by
  have howing : (h.playedEach buffers).1 = (h.forward.playedEach buffers).1 := by
    rw [playedEach, ← Engine.owing_drain h.engine, Engine.renderEach_owing]
    rfl
  obtain ⟨reports, hrender⟩ := Engine.render_eq ((buffers.map Array.size).sum / h.channels)
    h.frame h.rate h.engine
  rw [← howing, playedEach, (Engine.renderEach_eq_renderFrames ..).1, Engine.sum_flatMap_cut,
    sum_counts hsizes, hrender]

/-- What calls do, from the device that has carried out its commands. -/
theorem processEach_eq (h : Host) {buffers : List (Array Float32)}
    (hsizes : ∀ output ∈ buffers, h.channels ∣ output.size) :
    let run := h.processEach buffers
    let total := (buffers.map Array.size).sum / h.channels
    let frames := (h.obeyAll.engine.render total h.frame h.rate).1
    run.1.flatMap Array.toList = (interleave h.channels h.obeyAll.volume frames).toList ∧
      run.1.map Array.size = buffers.map Array.size ∧
      run.2.frame = h.frame + total.toUInt64 ∧
      (buffers ≠ [] → run.2.withoutReports =
        { h.obeyAll.forward with
          engine := (h.obeyAll.forward.playedEach buffers).2.drain.2
          frame := h.frame + total.toUInt64 }.withoutReports) := by
  by_cases hbuffers : buffers = []
  · subst hbuffers
    rw [List.map_nil, List.sum_nil, Nat.zero_div]
    exact ⟨rfl, rfl, (UInt64.add_zero h.frame).symm, fun h => absurd rfl h⟩
  · have hsizes' : ∀ output ∈ buffers, h.obeyAll.channels ∣ output.size := by
      rw [channels_obeyAll]
      exact hsizes
    have hrun := processEach_of_quiet (quiet_forward_obeyAll h) hsizes'
    rw [processEach_forward_obeyAll h hbuffers] at hrun
    obtain ⟨hstream, hkeep, outbound, hlast, hkept⟩ := hrun
    rw [frames_playedEach_forward hsizes'] at hstream
    rw [counts_forward_obeyAll, sum_counts hsizes] at hlast
    obtain ⟨engine, volume, hobey⟩ := obeyAll_unchanged h
    rw [hobey] at hstream hlast hkept ⊢
    refine ⟨hstream, hkeep, ?_, fun _ => ?_⟩
    · rw [hlast]
      rfl
    · rw [hlast, withoutReports, withoutReports]
      simp only [hkept]
      rfl

/-- Buffers that ask for the same number of frames leave the same engine. -/
theorem engine_playedEach_congr {h : Host} {buffers buffers' : List (Array Float32)}
    (htempo : h.engine.tempo.isNaN = false)
    (hsum : (h.counts buffers).sum = (h.counts buffers').sum) :
    (h.playedEach buffers).2.drain.2 = (h.playedEach buffers').2.drain.2 := by
  apply (Engine.renderEach_congr_sum h.rate _ _ h.frame htempo).2
  · rw [Engine.sum_flatMap_cut, Engine.sum_flatMap_cut, hsum]
  · rw [Engine.flatMap_cut_eq_nil_iff, Engine.flatMap_cut_eq_nil_iff, hsum]

/-- The device plays the same whatever the sizes of its buffers: what the engine plays once it has
carried out its commands, on every channel and at the volume that they ask for. Nothing of what was
in the buffers is left. Whoever asks for as many frames in other buffers finds the device in the
same state, apart from reports, as long as it is called at all. -/
theorem processEach_independent (h : Host) (buffers buffers' : List (Array Float32))
    (htempo : h.engine.tempo.isNaN = false)
    (hsizes : ∀ output ∈ buffers, h.channels ∣ output.size)
    (hsizes' : ∀ output ∈ buffers', h.channels ∣ output.size)
    (htotal : (buffers.map Array.size).sum = (buffers'.map Array.size).sum) :
    let run := h.processEach buffers
    let run' := h.processEach buffers'
    let stream := run.1.flatMap Array.toList
    let total := (buffers.map Array.size).sum / h.channels
    let frames := (h.obeyAll.engine.render total h.frame h.rate).1
    run'.1.flatMap Array.toList = stream ∧
      (∀ k c, c < h.channels →
        stream[k * h.channels + c]? = frames[k]?.map (· * h.obeyAll.volume)) ∧
      frames.size * h.channels = (buffers.map Array.size).sum ∧
      run.1.map Array.size = buffers.map Array.size ∧
      run'.1.map Array.size = buffers'.map Array.size ∧
      run.2.frame = h.frame + total.toUInt64 ∧
      run'.2.frame = run.2.frame ∧
      (h.frame.toNat + total < 2 ^ 64 → run.2.frame.toNat = h.frame.toNat + total) ∧
      ((buffers = [] ↔ buffers' = []) → run'.2.withoutReports = run.2.withoutReports) := by
  obtain ⟨hstream, hkeep, hframe, hlast⟩ := processEach_eq h hsizes
  obtain ⟨hstream', hkeep', hframe', hlast'⟩ := processEach_eq h hsizes'
  rw [← htotal] at hstream' hframe' hlast'
  refine ⟨hstream'.trans hstream.symm, ?_, ?_, hkeep, hkeep', hframe, hframe'.trans hframe.symm,
    ?_, ?_⟩
  · intro k c hc
    rw [hstream, getElem?_interleave _ _ hc]
  · have hlength := congrArg List.length hstream
    rw [List.length_flatMap, Array.length_toList, size_interleave] at hlength
    rw [← hlength, ← hkeep]
    rfl
  · intro hfits
    rw [hframe, Nat.toUInt64_eq, UInt64.toNat_add, UInt64.toNat_ofNat', Nat.add_mod_mod,
      Nat.mod_eq_of_lt hfits]
  · intro hnil
    by_cases hbuffers : buffers = []
    · rw [hbuffers, hnil.1 hbuffers]
    · rw [hlast hbuffers, hlast' fun h => hbuffers (hnil.2 h)]
      have htempo' : h.obeyAll.forward.engine.tempo.isNaN = false :=
        engine_obeyAll (P := fun e => e.tempo.isNaN = false)
          (fun _ m h => Engine.not_isNaN_tempo_handle h m) (fun _ h => h) htempo
      have hsum : (h.obeyAll.forward.counts buffers).sum =
          (h.obeyAll.forward.counts buffers').sum := by
        rw [counts_forward_obeyAll, sum_counts hsizes, sum_counts hsizes', htotal]
      rw [engine_playedEach_congr htempo' hsum]

/-- A device with two channels that plays `220 sine` and has been asked for half the volume. -/
def halfVolumeSine : Host :=
  let sine : Program := ⟨[⟨.sine, .literal (.number 220) ⟨0, 3⟩⟩], [], 120, []⟩
  let h := starting ((Engine.ofConfig {}).play sine) 2 48000 16 64
  { h with controls := h.controls.offer (.volume 0.5) }

/-- Four frames in one buffer, whatever was in it, or one frame and then three. -/
theorem processEach_halfVolumeSine :
    let run := halfVolumeSine.processEach [#[0, 0], #[0, 0, 0, 0, 0, 0]]
    let run' := halfVolumeSine.processEach [#[1, 1, 1, 1, 1, 1, 1, 1]]
    run'.1.flatMap Array.toList = run.1.flatMap Array.toList ∧ run.2.frame.toNat = 4 ∧
      run'.2.withoutReports = run.2.withoutReports := by
  obtain ⟨hstream, -, -, -, -, -, -, hframe, hlast⟩ :=
    processEach_independent halfVolumeSine [#[0, 0], #[0, 0, 0, 0, 0, 0]]
      [#[1, 1, 1, 1, 1, 1, 1, 1]] rfl (by decide) (by decide) rfl
  exact ⟨hstream, hframe (by decide), hlast (by simp)⟩

end Host

end PatternSynth
