import PatternSynth.Proofs.Step.Notes
import PatternSynth.Sound.Basic

/-!
# A voice and a leaf for each note

While a sound plays, each note of the present step has a voice of its own, and its leaf is found in
the score under its number. A sound is `Consistent` if that is so and stays so. A sound that has not
played yet is, whatever voices it was given (`Sound.consistent_fresh`), and bringing it to another
beat or rendering a frame keeps it (`Sound.Consistent.advance`, `Sound.Consistent.render`).

`Sound.renderLeaves` looks everything up, the leaves by their numbers and the gains by their places,
and gives up where something is missing. It never does on a consistent sound
(`Sound.Consistent.renderLeaves_eq`).
-/

namespace PatternSynth

variable {β : Type}

namespace Step

/-- The numbers of the leaves that sound. -/
def leaves (step : Step β) : List Nat :=
  step.notes.map Note.id

/-- The gain of each leaf that sounds. -/
def gains (step : Step β) : List Float :=
  step.notes.map Note.gain

/-- No leaf sounds twice in a step of a numbered score. -/
theorem DrawsFrom.nodup_leaves {step : Step β} {score : Score} (h : step.DrawsFrom score.tree.nodes)
    (hnumbered : score.Numbered) : step.leaves.Nodup := by
  have hsub : step.leaves.Sublist score.tree.ids := by
    rw [leaves, ← step.map_id_leaf, ← Tree.map_id_nodes]
    exact List.Sublist.map Tree.id h
  rw [hnumbered] at hsub
  exact hsub.nodup List.nodup_range

end Step

/-- The pattern of the leaf with a number. -/
def Score.leaf? (s : Score) (id : Nat) : Option Pattern :=
  match s.node? id with
  | some (.leaf _ pattern) => some pattern
  | _ => none

/-- The leaf of a note is found under its number. -/
theorem Step.DrawsFrom.leaf? {step : Step β} {score : Score} (h : step.DrawsFrom score.tree.nodes)
    (hnumbered : score.Numbered) {note : Note} (hnote : note ∈ step.notes) :
    note.id < score.size ∧ score.leaf? note.id = some note.pattern := by
  have hmem : note.leaf ∈ score.tree.nodes := h.subset (List.mem_map_of_mem hnote)
  obtain ⟨hlt, hnode⟩ := hnumbered.node?_id hmem
  refine ⟨hlt, ?_⟩
  have hid : score.node? note.id = some note.leaf := hnode
  rw [Score.leaf?, hid]
  rfl

/-! ## How many voices there are -/

theorem Voice.length_resize (count : Nat) (voices : List Voice) :
    (Voice.resize count voices).length = count := by
  rw [Voice.resize, List.length_append, List.length_take, List.length_replicate]
  omega

namespace Sound

theorem length_voicesFor (w : Waveform) (count : Nat) (voices : List Voice) :
    (voicesFor w count voices).length = count := by
  simp only [voicesFor]
  split
  · rw [List.length_map, Voice.length_resize]
  · exact Voice.length_resize count voices

theorem length_playNotes (rig : Rig) (w : Waveform) (env : Env) (signal : Float) (g : Noise)
    (notes : List Note) (voices : List Voice) :
    (playNotes rig w env signal g notes voices).2.1.length = voices.length := by
  induction notes generalizing signal g voices with
  | nil => cases voices <;> rfl
  | cons note notes ih =>
    cases voices with
    | nil => rfl
    | cons v voices =>
      simp only [playNotes, List.length_cons]
      rw [ih]

/-! ## Consistent sounds -/

/-- The player draws from its score, and while a step is played its notes are leaves of the score,
with one voice each. -/
structure Consistent (s : Sound β) : Prop where
  player : s.player.Faithful
  notes : ∀ step, s.current = some step → step.DrawsFrom s.player.score.tree.nodes
  voices : ∀ step, s.current = some step → s.voices.length = step.notes.length

theorem consistent_fresh (c : Command) (voices : List Voice) :
    { (ofCommand c : Sound β) with voices }.Consistent :=
  ⟨Player.faithful_ofPattern c.pattern, fun _ h => (nomatch h), fun _ h => (nomatch h)⟩

section Advance

variable [Beats β] {s : Sound β}

theorem Consistent.pull (h : s.Consistent) (timing : ChordTiming β) (env : Env) (stop : β) :
    (s.pull timing env stop).Consistent := by
  obtain ⟨hstep, hplayer⟩ := h.player.next timing env
  have htree := Player.tree_next timing s.player env
  refine ⟨hplayer, ?_, ?_⟩
  · rintro step ⟨⟩
    simp only [Sound.pull, htree]
    exact hstep
  · rintro step ⟨⟩
    exact length_voicesFor s.waveform _ s.voices

theorem Consistent.anchor (h : s.Consistent) (beat : β) : (s.anchor beat).Consistent := by
  rw [Sound.anchor]
  split
  · exact h
  · exact ⟨h.player, h.notes, h.voices⟩

theorem Consistent.catchUp (h : s.Consistent) (timing : ChordTiming β) (env : Env) (beat : β)
    (steps : Nat) : (s.catchUp timing env beat steps).Consistent := by
  induction steps generalizing s with
  | zero => exact h
  | succ steps ih =>
    rw [Sound.catchUp]
    split
    · exact h
    · next stop _ =>
      split
      · exact ih (h.pull timing env stop)
      · exact h

theorem Consistent.advance (h : s.Consistent) (timing : ChordTiming β) (env : Env) (beat : β)
    (cap : Nat) : (s.advance timing env beat cap).Consistent :=
  (h.anchor beat).catchUp timing env beat cap

end Advance

theorem Consistent.render {s : Sound β} (h : s.Consistent) (rig : Rig) (env : Env) (g : Noise) :
    (s.render rig env g).2.1.Consistent := by
  rw [Sound.render]
  split
  · exact h
  · next step hstep =>
    refine ⟨h.player, h.notes, fun step' hstep' => ?_⟩
    have hlength := length_playNotes rig s.waveform env 0 g step.notes s.voices
    exact hlength.trans (h.voices step' hstep')

/-! ## Looking leaves and gains up -/

/-- One frame of leaves with their gains and voices, added to a signal from left to right. The
leaves are looked up by their numbers. Nothing, if a voice has no leaf or no gain. -/
def playLeaves (rig : Rig) (w : Waveform) (env : Env) (score : Score) (signal : Float)
    (g : Noise) : List Nat → List Float → List Voice → Option (Float × List Voice × Noise)
  | id :: ids, gains, v :: voices =>
    match score.leaf? id, gains with
    | some pattern, gain :: gains =>
      let (x, v, g) := v.play rig w env ⟨id, pattern, gain⟩ g
      (playLeaves rig w env score (signal + x) g ids gains voices).map fun (signal, voices, g) =>
        (signal, v :: voices, g)
    | _, _ => none
  | _, _, voices => some (signal, voices, g)

/-- One frame of the sound, with everything that its step refers to looked up. -/
def renderLeaves (rig : Rig) (env : Env) (g : Noise) (s : Sound β) :
    Option (Float × Sound β × Noise) :=
  match s.current with
  | none => some (0, s, g)
  | some step =>
    (playLeaves rig s.waveform env s.player.score 0 g step.leaves step.gains s.voices).map
      fun (signal, voices, g) => (signal, { s with voices }, g)

theorem playLeaves_eq_playNotes (rig : Rig) (w : Waveform) (env : Env) {score : Score}
    {notes : List Note} (hnotes : ∀ note ∈ notes, score.leaf? note.id = some note.pattern)
    (signal : Float) (g : Noise) (voices : List Voice) :
    playLeaves rig w env score signal g (notes.map Note.id) (notes.map Note.gain) voices =
      some (playNotes rig w env signal g notes voices) := by
  induction notes generalizing signal g voices with
  | nil => cases voices <;> rfl
  | cons note notes ih =>
    cases voices with
    | nil => rfl
    | cons v voices =>
      obtain ⟨hnote, hnotes⟩ := List.forall_mem_cons.1 hnotes
      simp only [List.map_cons, playLeaves, hnote, ih hnotes, Option.map_some]
      rfl

/-- On a consistent sound nothing is missing, and looking everything up changes nothing. -/
theorem Consistent.renderLeaves_eq {s : Sound β} (h : s.Consistent) (rig : Rig) (env : Env)
    (g : Noise) : s.renderLeaves rig env g = some (s.render rig env g) := by
  rw [renderLeaves, Sound.render]
  cases hcurrent : s.current with
  | none => rfl
  | some step =>
    have hfound : ∀ note ∈ step.notes, s.player.score.leaf? note.id = some note.pattern :=
      fun note hnote => ((h.notes step hcurrent).leaf? h.player.numbered hnote).2
    simp only [Step.leaves, Step.gains, playLeaves_eq_playNotes rig s.waveform env hfound]
    rfl

end Sound

end PatternSynth
