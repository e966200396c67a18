import PatternSynth.Proofs.Sound.Caps
import PatternSynth.Proofs.Sound.Glide

/-!
# The health of voices

A sound is brought to beats and rendered, in any order. What holds of a fresh voice and is kept by
one frame of a note holds of every voice throughout (`Sound.forall_voices`). A sound whose
oscillators start at rest stays healthy exactly as long as no voice leaps and no phase rounds up
(`Sound.healthy_iff`). Voices do not leap if the values and gains that are asked for stay below half
the overflow (`Sound.not_leaps_of_moderate`).
-/

namespace PatternSynth

namespace Sound

variable {β : Type} {rig : Rig} {w : Waveform} {env : Env} {s : Sound β}
  {P : Voice → Prop} {R : Env → Note → Voice → Prop}

/-! ## Bringing a sound to a beat -/

section Advance

variable [Beats β] (timing : ChordTiming β) (env : Env) (beat : β)

/-- Whatever holds of a fresh voice is kept when a sound goes on. -/
theorem forall_voicesFor (hfresh : P .fresh) (hw : w ≠ .sample) {voices : List Voice}
    (h : ∀ v ∈ voices, P v) (count : Nat) : ∀ v ∈ voicesFor w count voices, P v := by
  intro v hv
  rw [voicesFor, if_neg hw, Voice.resize, List.mem_append] at hv
  rcases hv with hv | hv
  · exact h v (List.mem_of_mem_take hv)
  · rw [List.eq_of_mem_replicate hv]
    exact hfresh

theorem forall_voices_catchUp (hfresh : P .fresh) (hw : s.waveform ≠ .sample)
    (h : ∀ v ∈ s.voices, P v) (n : Nat) :
    (s.catchUp timing env beat n).waveform = s.waveform ∧
      ∀ v ∈ (s.catchUp timing env beat n).voices, P v := by
  induction n generalizing s with
  | zero => exact ⟨rfl, h⟩
  | succ n ih =>
    rw [catchUp]
    split
    · exact ⟨rfl, h⟩
    · next stop _ =>
      split
      · exact ih (s := s.pull timing env stop) hw (forall_voicesFor hfresh hw h _)
      · exact ⟨rfl, h⟩

theorem forall_voices_advance (hfresh : P .fresh) (hw : s.waveform ≠ .sample)
    (h : ∀ v ∈ s.voices, P v) (cap : Nat) :
    (s.advance timing env beat cap).waveform = s.waveform ∧
      ∀ v ∈ (s.advance timing env beat cap).voices, P v := by
  have hwaveform := waveform_anchor beat s
  rw [advance, ← hwaveform]
  refine forall_voices_catchUp timing env beat hfresh (hwaveform ▸ hw) ?_ cap
  rwa [voices_anchor]

end Advance

/-! ## Rendering a frame -/

theorem forall_playNotes (hplay : ∀ note v g, P v → R env note v → P (v.play rig w env note g).2.1)
    {notes : List Note} {voices : List Voice} (h : ∀ v ∈ voices, P v)
    (hfine : ∀ p ∈ notes.zip voices, R env p.1 p.2) (signal : Float) (g : Noise) :
    ∀ v ∈ (playNotes rig w env signal g notes voices).2.1, P v := by
  induction notes generalizing voices signal g with
  | nil => cases voices <;> exact h
  | cons note notes ih =>
    cases voices with
    | nil => exact h
    | cons v voices =>
      rw [List.forall_mem_cons] at h
      rw [List.zip_cons_cons, List.forall_mem_cons] at hfine
      rw [playNotes]
      exact List.forall_mem_cons.2 ⟨hplay note v g h.1 hfine.1, ih h.2 hfine.2 _ _⟩

theorem playNotes_nil (rig : Rig) (w : Waveform) (env : Env) (signal : Float) (g : Noise)
    (notes : List Note) : playNotes rig w env signal g notes [] = (signal, [], g) := by
  cases notes <;> rfl

theorem signal_playNotes_singleton (rig : Rig) (w : Waveform) (env : Env) (signal : Float)
    (g : Noise) (note : Note) (notes : List Note) (v : Voice) :
    (playNotes rig w env signal g (note :: notes) [v]).1 =
      signal + (v.play rig w env note g).1 := by
  change (playNotes rig w env _ _ notes []).1 = _
  rw [playNotes_nil]
  rfl

/-- The notes of a frame were fine if their voices are afterwards. -/
theorem fine_of_forall_playNotes
    (hplay : ∀ note v g, P v → P (v.play rig w env note g).2.1 → R env note v)
    {notes : List Note} {voices : List Voice} (h : ∀ v ∈ voices, P v) {signal : Float} {g : Noise}
    (hafter : ∀ v ∈ (playNotes rig w env signal g notes voices).2.1, P v) :
    ∀ p ∈ notes.zip voices, R env p.1 p.2 := by
  induction notes generalizing voices signal g with
  | nil => simp
  | cons note notes ih =>
    cases voices with
    | nil => simp
    | cons v voices =>
      rw [List.forall_mem_cons] at h
      rw [playNotes, List.forall_mem_cons] at hafter
      rw [List.zip_cons_cons, List.forall_mem_cons]
      exact ⟨hplay note v g h.1 hafter.1, ih h.2 hafter.2⟩

/-- Something holds of each note of the present step and its voice. -/
def Each (Q : Note → Voice → Prop) (s : Sound β) : Prop :=
  ∀ step, s.current = some step → ∀ p ∈ step.notes.zip s.voices, Q p.1 p.2

theorem Each.mono {Q Q' : Note → Voice → Prop} (h : s.Each Q)
    (hle : ∀ note, ∀ v ∈ s.voices, Q note v → Q' note v) : s.Each Q' :=
  fun step hstep p hp => hle p.1 p.2 (List.of_mem_zip hp).2 (h step hstep p hp)

theorem waveform_render (rig : Rig) (env : Env) (g : Noise) (s : Sound β) :
    (s.render rig env g).2.1.waveform = s.waveform := by
  rw [render]
  split <;> rfl

theorem forall_voices_render
    (hplay : ∀ note v g, P v → R env note v → P (v.play rig s.waveform env note g).2.1)
    (h : ∀ v ∈ s.voices, P v) (hfine : s.Each (R env)) (g : Noise) :
    ∀ v ∈ (s.render rig env g).2.1.voices, P v := by
  rw [render]
  split
  · exact h
  · next step hstep => exact forall_playNotes hplay h (hfine step hstep) 0 g

theorem each_of_forall_voices_render
    (hplay : ∀ note v g, P v → P (v.play rig s.waveform env note g).2.1 → R env note v)
    (h : ∀ v ∈ s.voices, P v) {g : Noise} (hafter : ∀ v ∈ (s.render rig env g).2.1.voices, P v) :
    s.Each (R env) := by
  intro step hstep
  simp only [render, hstep] at hafter
  exact fine_of_forall_playNotes hplay h hafter

/-! ## Runs -/

/-- What is done to a sound: it is brought to a beat, or a frame of it is rendered. -/
inductive Event (β : Type) where
  | advance (timing : ChordTiming β) (env : Env) (beat : β) (cap : Nat)
  | render (env : Env)

variable [Beats β]

/-- The sound and the generator after an event. -/
def Event.apply (rig : Rig) (p : Sound β × Noise) : Event β → Sound β × Noise
  | .advance timing env beat cap => (p.1.advance timing env beat cap, p.2)
  | .render env => (p.1.render rig env p.2).2

/-- The sound of a command and the generator after some events. -/
def played (rig : Rig) (c : Command) (g : Noise) (events : List (Event β)) : Sound β × Noise :=
  events.foldl (Event.apply rig) (ofCommand c, g)

variable {c : Command} {g : Noise} {events : List (Event β)}

theorem played_take_succ {k : Nat} {event : Event β} (hevent : events[k]? = some event) :
    played rig c g (events.take (k + 1)) = event.apply rig (played rig c g (events.take k)) := by
  rw [played, List.take_add_one, hevent, List.foldl_append]
  rfl

theorem waveform_played (rig : Rig) (g : Noise) (hw : c.waveform ≠ .sample)
    (events : List (Event β)) :
    (played rig c g events).1.waveform = c.waveform := by
  induction events using List.reverseRecOn with
  | nil => rfl
  | append_singleton events event ih =>
    rw [played, List.foldl_append]
    cases event with
    | advance timing env beat cap =>
      exact (forall_voices_advance timing env beat (P := fun _ => True) trivial (ih ▸ hw)
        (fun _ _ => trivial) cap).1.trans ih
    | render env => exact (waveform_render ..).trans ih

/-- Whatever holds of a fresh voice and is kept by frames that are fine holds of every voice at
every point of a run of such frames. -/
theorem forall_voices (hfresh : P .fresh) (hw : c.waveform ≠ .sample)
    (hplay : ∀ env note v g, P v → R env note v → P (v.play rig c.waveform env note g).2.1)
    (hfine : ∀ k env, events[k]? = some (.render env) →
      (played rig c g (events.take k)).1.Each (R env)) (k : Nat) :
    ∀ v ∈ (played rig c g (events.take k)).1.voices, P v := by
  induction k with
  | zero => exact fun v hv => absurd hv List.not_mem_nil
  | succ k ih =>
    have hwaveform := waveform_played rig g hw (events.take k)
    cases hevent : events[k]? with
    | none => rwa [List.take_add_one, hevent, Option.toList_none, List.append_nil]
    | some event =>
      rw [played_take_succ hevent]
      cases event with
      | advance timing env beat cap =>
        exact (forall_voices_advance timing env beat hfresh (hwaveform ▸ hw) ih cap).2
      | render env =>
        exact forall_voices_render (hwaveform ▸ hplay env) ih (hfine k env hevent) _

/-! ## Oscillators -/

open Binary

section Usual

variable (hconfig : rig.config = {}) (hrate : 0 < rig.rate) (hw : c.waveform ∉ [.raw, .sample])

omit [Beats β] in
theorem ne_sample {c : Command} (hw : c.waveform ∉ [.raw, .sample]) : c.waveform ≠ .sample := by
  intro h
  simp [h] at hw

include hconfig hrate hw

/-- The voices of a run stay settled as long as none of them leaps. -/
theorem forall_settled (hleaps : ∀ k env, events[k]? = some (.render env) →
      (played rig c g (events.take k)).1.Each fun note v => ¬ v.Leaps env note) (k : Nat) :
    ∀ v ∈ (played rig c g (events.take k)).1.voices, v.Settled :=
  forall_voices Voice.healthy_fresh.toSettled (ne_sample hw)
    (fun _ _ _ g h hfine => (Voice.settled_play_iff hconfig hrate hw h g).2 hfine) hleaps k

theorem healthy_iff :
    (∀ k, ∀ v ∈ (played rig c g (events.take k)).1.voices, v.Healthy) ↔
      ∀ k env, events[k]? = some (.render env) → (played rig c g (events.take k)).1.Each
        fun note v => ¬ v.Leaps env note ∧ ¬ v.RoundsUp env note rig := by
  constructor
  · intro hhealthy k env hevent
    have hwaveform := waveform_played rig g (ne_sample hw) (events.take k)
    have hafter := hhealthy (k + 1)
    rw [played_take_succ hevent] at hafter
    refine each_of_forall_voices_render (P := Voice.Healthy) (R := fun env note v =>
      ¬ v.Leaps env note ∧ ¬ v.RoundsUp env note rig) (fun note v g h => ?_) (hhealthy k) hafter
    exact (Voice.healthy_play_iff hconfig hrate (hwaveform.symm ▸ hw) h g).1
  · exact forall_voices Voice.healthy_fresh (ne_sample hw)
      (fun _ _ _ g h hfine => (Voice.healthy_play_iff hconfig hrate hw h g).2 hfine)

omit [Beats β] in
/-- A frame of a sound with one voice that does not leap is finite. -/
theorem isFinite_render {s : Sound β} (hwaveform : s.waveform = c.waveform)
    (hsine : c.waveform = .sine → SineWithin) (hone : s.voices.length ≤ 1)
    (h : ∀ v ∈ s.voices, v.Settled) (hleaps : s.Each fun note v => ¬ v.Leaps env note) (g : Noise) :
    (s.render rig env g).1.isFinite = true := by
  have hzero : (0 : Float).isFinite = true := rfl
  rw [render]
  split
  · exact hzero
  · next step hstep =>
    have hnotes := hleaps step hstep
    dsimp only
    rw [hwaveform]
    match s.voices, hone, h, hnotes with
    | [], _, _, _ => rwa [playNotes_nil]
    | [v], _, h, hnotes =>
      cases hstep : step.notes with
      | nil => exact hzero
      | cons note notes =>
        rw [hstep] at hnotes
        have hvoice := Voice.isFinite_play hconfig hrate hw hsine (h v (by simp))
          (hnotes (note, v) (by simp)) g
        rw [signal_playNotes_singleton]
        exact ((roundsTo_add hzero hvoice).exact hvoice (by rw [real_zero, zero_add])).1

/-- Voices do not leap while what is asked for stays below half the overflow. -/
theorem not_leaps_of_moderate (hmoderate : ∀ k env, events[k]? = some (.render env) →
      (played rig c g (events.take k)).1.Each fun note _ => Voice.Moderate env note)
    (k : Nat) (env : Env) (hevent : events[k]? = some (.render env)) :
    (played rig c g (events.take k)).1.Each fun note v => ¬ v.Leaps env note := by
  have hcalm := forall_voices (R := fun env note _ => Voice.Moderate env note) Voice.calm_fresh
    (ne_sample hw) (fun _ _ _ g h hnote => h.play hconfig hrate hw hnote g) hmoderate k
  exact (hmoderate k env hevent).mono fun note v hv hnote => (hcalm v hv).not_leaps hnote

end Usual

/-- Oscillators with the usual settings are healthy at every point of a run, with a finite frequency
and amplitude and a phase below one turn, exactly as long as no frame asks a voice for a leap and no
phase rounds up to one. As long as no voice leaps, all frequencies and amplitudes are finite and so
is every frame of a sound with one voice; and no voice leaps if all values and gains that are asked
for are below half the overflow. -/
theorem oscillators_healthy_iff (rig : Rig) (hconfig : rig.config = {}) (hrate : 0 < rig.rate)
    (c : Command) (hw : c.waveform ∉ [.raw, .sample]) (hsine : c.waveform = .sine → SineWithin)
    (g : Noise) (events : List (Event β)) :
    ((∀ k, ∀ v ∈ (played rig c g (events.take k)).1.voices, v.Healthy) ↔
      ∀ k env, events[k]? = some (.render env) → (played rig c g (events.take k)).1.Each
        fun note v => ¬ v.Leaps env note ∧ ¬ v.RoundsUp env note rig) ∧
    ((∀ k env, events[k]? = some (.render env) →
        (played rig c g (events.take k)).1.Each fun note v => ¬ v.Leaps env note) →
      (∀ k, ∀ v ∈ (played rig c g (events.take k)).1.voices, v.Settled) ∧
      ∀ k env, events[k]? = some (.render env) →
        (played rig c g (events.take k)).1.voices.length ≤ 1 →
        ((played rig c g (events.take k)).1.render rig env
          (played rig c g (events.take k)).2).1.isFinite = true) ∧
    ((∀ k env, events[k]? = some (.render env) →
        (played rig c g (events.take k)).1.Each fun note _ => Voice.Moderate env note) →
      ∀ k env, events[k]? = some (.render env) →
        (played rig c g (events.take k)).1.Each fun note v => ¬ v.Leaps env note) := by
  refine ⟨healthy_iff hconfig hrate hw, fun hleaps => ?_,
    fun hmoderate => not_leaps_of_moderate hconfig hrate hw hmoderate⟩
  have hsettled := forall_settled hconfig hrate hw hleaps
  refine ⟨hsettled, fun k env hevent hone => ?_⟩
  exact isFinite_render hconfig hrate hw (waveform_played rig g (ne_sample hw) _) hsine hone
    (hsettled k) (hleaps k env hevent) _

/-- A rig with the usual settings. -/
def usualRig : Rig := ⟨{}, ∅, 48000⟩

/-- A tone of 220 hertz for one frame. -/
theorem oscillators_healthy_tone :
    let tone : Command := ⟨.saw, .literal (.number 220) ⟨0, 3⟩⟩
    let sound := (Sound.ofCommand tone : Sound Float).advance .usual .zero 0 256
    (sound.render usualRig .zero (.ofSeed 42)).1.isFinite = true ∧
      ∀ v ∈ (sound.render usualRig .zero (.ofSeed 42)).2.1.voices, v.Settled := by
  intro tone sound
  let events : List (Event Float) := [.advance .usual .zero 0 256, .render .zero]
  have hasked : (sound.current.map fun step => step.notes.map fun note =>
      (Voice.wantedFreq .zero note, Voice.wantedAmp .zero note)) = some [(220, 1)] := by
    decide +kernel
  obtain ⟨-, hsettled, hmoderate⟩ := oscillators_healthy_iff usualRig rfl (by decide) tone
    (by decide) nofun (.ofSeed 42) events
  have hleaps := hmoderate fun k env hevent step hstep p hp => by
    obtain rfl : k = 1 := by
      match k, hevent with
      | 1, _ => rfl
    cases hevent
    have hnotes : sound.current = some step := hstep
    rw [hnotes, Option.map_some, Option.some_inj] at hasked
    have hnote := List.mem_map_of_mem
      (f := fun note => (Voice.wantedFreq .zero note, Voice.wantedAmp .zero note))
      (List.of_mem_zip hp).1
    rw [hasked, List.mem_singleton, Prod.mk.injEq] at hnote
    rw [Voice.Moderate, hnote.1, hnote.2]
    exact ⟨lt_trans (by decide +kernel) two_pow_lt_overflow,
      lt_trans (by decide +kernel) two_pow_lt_overflow⟩
  exact ⟨(hsettled hleaps).2 1 .zero rfl (by decide +kernel), (hsettled hleaps).1 2⟩

/-- Two huge values of opposite signs, one after the other. -/
def leapingCommand : Command :=
  ⟨.saw, .collect .sequence [.literal (.number 1.79e308) ⟨2, 10⟩,
    .literal (.number (-1.79e308)) ⟨11, 20⟩]⟩

/-- The first value is rendered for a frame and then the second one. -/
def leapingEvents : List (Event Float) :=
  [.advance .usual ⟨0, 0, 0⟩ 0 256, .render ⟨0, 0, 0⟩,
    .advance .usual ⟨0, 0, 0.5⟩ 0.5 256, .render ⟨0, 0, 0.5⟩]

/-- Finite values make a frequency infinite, and then the phase and the frame are no numbers. -/
theorem leap_poisons :
    ((played usualRig leapingCommand (.ofSeed 42) leapingEvents).1.voices.map
        fun v => (v.freq.isFinite, v.phase.isNaN)) = [(false, true)] ∧
      ((played usualRig leapingCommand (.ofSeed 42) (leapingEvents.take 3)).1.render usualRig
        ⟨0, 0, 0.5⟩ (.ofSeed 42)).1.isNaN = true := by
  decide +kernel

end Sound

end PatternSynth
