import Mathlib.Algebra.Order.Field.Basic
import Mathlib.Algebra.Order.Ring.Rat
import Mathlib.Tactic.Linarith
import Mathlib.Tactic.Positivity
import Mathlib.Tactic.Ring
import PatternSynth.Clock

/-!
# The beat is the tempo summed over the frames

This file reads frames and beats as exact numbers. A retime opens a stretch, in which the clock runs
at the tempo that was requested last before it. The clock keeps one anchor and not the stretches,
and it keeps even that one as it is when the tempo stays the same. All the same the beat at a frame
is the sum, over the stretches until that frame, of the length times the beats in each frame
(`Clock.beatAt_after`). So the beat never jumps, a tempo that is replaced before a retime leaves no
trace, and with positive tempos the beat always rises.
-/

namespace PatternSynth.Clock

/-- What can happen to a clock. -/
inductive Event where
  | request (tempo : Rat)
  | retime (frame : UInt64)

namespace Event

/-- The tempo that an event requests. -/
def tempo? : Event → Option Rat
  | request tempo => some tempo
  | retime _ => none

/-- The frame that an event retimes the clock at. -/
def frame? : Event → Option UInt64
  | request _ => none
  | retime frame => some frame

end Event

/-- Let an event happen to a clock. -/
def apply (rate : UInt32) (c : Clock Rat) : Event → Clock Rat
  | .request tempo => c.request tempo
  | .retime frame => c.retime frame rate

/-- The clock after some events. -/
def after (rate : UInt32) (events : List Event) (c : Clock Rat) : Clock Rat :=
  events.foldl (apply rate) c

/-! ## Stretches -/

/-- The frames from one retime to the next. -/
structure Stretch where
  /-- The first frame. -/
  opens : UInt64
  tempo : Rat

namespace Stretch

/-- The beats of a stretch that ends at a frame. -/
def beats (rate : UInt32) (s : Stretch) (stop : UInt64) : Rat :=
  ((stop.toNat : Rat) - s.opens.toNat) * (s.tempo / (60 * rate.toNat))

/-- The beats of stretches that follow one another, when the last one ends at a frame. -/
def total (rate : UInt32) (frame : UInt64) (stretches : List Stretch) : Rat :=
  (List.zipWith (beats rate) stretches (stretches.tail.map opens ++ [frame])).sum

/-- The stretches that events open, when this tempo has been requested before them. -/
def opened : Rat → List Event → List Stretch
  | _, [] => []
  | _, .request tempo :: events => opened tempo events
  | tempo, .retime frame :: events => ⟨frame, tempo⟩ :: opened tempo events

/-- All stretches from frame zero on. -/
def all (tempo : Rat) (events : List Event) : List Stretch :=
  ⟨0, tempo⟩ :: opened tempo events

theorem total_singleton (rate : UInt32) (frame : UInt64) (s : Stretch) :
    total rate frame [s] = s.beats rate frame :=
  add_zero _

theorem total_cons (rate : UInt32) (frame : UInt64) (s t : Stretch) (more : List Stretch) :
    total rate frame (s :: t :: more) = s.beats rate t.opens + total rate frame (t :: more) :=
  rfl

end Stretch

/-! ## One event -/

variable {rate : UInt32}

theorem beatAt_eq (c : Clock Rat) (frame : UInt64) :
    c.beatAt frame rate = c.anchorBeat +
      ((frame.toNat : Rat) - c.anchorFrame.toNat) * (c.runningTempo / (60 * rate.toNat)) := rfl

/-- From one frame to another the clock moves by the beats of a stretch at the running tempo. -/
theorem beatAt_eq_add (rate : UInt32) (c : Clock Rat) (frame frame' : UInt64) :
    c.beatAt frame' rate =
      c.beatAt frame rate + Stretch.beats rate ⟨frame, c.runningTempo⟩ frame' := by
  rw [beatAt_eq, beatAt_eq, Stretch.beats]
  ring

theorem retime_eq (c : Clock Rat) (frame : UInt64) :
    c.retime frame rate =
      if c.tempo = c.runningTempo then c
      else ⟨frame, c.beatAt frame rate, c.tempo, c.tempo⟩ := by
  have heq : Beats.eq c.tempo c.runningTempo = decide (c.tempo = c.runningTempo) := rfl
  simp only [retime, heq, decide_eq_true_eq]

/-- The tempo that was requested last is the one that a retime leaves running. -/
theorem runningTempo_retime (c : Clock Rat) (frame : UInt64) :
    (c.retime frame rate).runningTempo = c.tempo := by
  rw [retime_eq]
  split
  · next h => exact h.symm
  · rfl

theorem tempo_retime_rat (c : Clock Rat) (frame : UInt64) :
    (c.retime frame rate).tempo = c.tempo := by
  rw [retime_eq]
  split <;> rfl

/-- A retime does not change the beat at its own frame. -/
theorem beatAt_retime_self (c : Clock Rat) (frame : UInt64) :
    (c.retime frame rate).beatAt frame rate = c.beatAt frame rate := by
  rw [retime_eq]
  split
  · rfl
  · rw [beatAt_eq, sub_self, zero_mul, add_zero]

/-! ## Runs of events -/

/-- From any frame on, the clock moves by the beats of the stretches that follow. -/
theorem beatAt_after (c : Clock Rat) (events : List Event) (start frame : UInt64) :
    (c.after rate events).beatAt frame rate =
      c.beatAt start rate +
        Stretch.total rate frame (⟨start, c.runningTempo⟩ :: Stretch.opened c.tempo events) := by
  induction events generalizing c start with
  | nil =>
    rw [Stretch.opened, Stretch.total_singleton]
    exact beatAt_eq_add rate c start frame
  | cons event events ih =>
    cases event with
    | request tempo => exact ih (c.request tempo) start
    | retime opens =>
      have hnext := ih (c.retime opens rate) opens
      rw [beatAt_retime_self, runningTempo_retime, tempo_retime_rat,
        beatAt_eq_add rate c start opens] at hnext
      rw [Stretch.opened, Stretch.total_cons, ← add_assoc]
      exact hnext

theorem after_append (c : Clock Rat) (events events' : List Event) :
    c.after rate (events ++ events') = (c.after rate events).after rate events' :=
  List.foldl_append

/-- Of tempos that are requested one after another only the last one counts. -/
theorem after_requests (c : Clock Rat) (tempos : List Rat) (last : Rat) :
    (c.after rate (tempos.map .request)).request last = c.request last := by
  induction tempos generalizing c with
  | nil => rfl
  | cons tempo tempos ih => exact ih (c.request tempo)

/-! ## Rising beats -/

namespace Stretch

theorem beats_nonneg (rate : UInt32) {s : Stretch} {stop : UInt64} (htempo : 0 < s.tempo)
    (hstop : s.opens ≤ stop) : 0 ≤ s.beats rate stop := by
  have hle : (s.opens.toNat : Rat) ≤ stop.toNat := by exact_mod_cast UInt64.le_iff_toNat_le.1 hstop
  exact mul_nonneg (sub_nonneg.2 hle) (by positivity)

theorem beats_pos {s : Stretch} {stop : UInt64} (hrate : 0 < rate) (htempo : 0 < s.tempo)
    (hstop : s.opens < stop) : 0 < s.beats rate stop := by
  have hlt : (s.opens.toNat : Rat) < stop.toNat := by exact_mod_cast UInt64.lt_iff_toNat_lt.1 hstop
  have hrate' : 0 < rate.toNat := UInt32.lt_iff_toNat_lt.1 hrate
  exact mul_pos (sub_pos.2 hlt) (by positivity)

end Stretch

/-- The clock runs, and will run after the next retime, at a positive tempo. -/
def IsForward (c : Clock Rat) : Prop :=
  0 < c.runningTempo ∧ 0 < c.tempo

theorem IsForward.retime {c : Clock Rat} (h : c.IsForward) (frame : UInt64) :
    (c.retime frame rate).IsForward := by
  rw [IsForward, runningTempo_retime, tempo_retime_rat]
  exact ⟨h.2, h.2⟩

theorem IsForward.after {c : Clock Rat} (h : c.IsForward) {events : List Event}
    (hevents : ∀ tempo ∈ events.filterMap Event.tempo?, 0 < tempo) :
    (c.after rate events).IsForward := by
  induction events generalizing c with
  | nil => exact h
  | cons event events ih =>
    cases event with
    | request tempo =>
      obtain ⟨htempo, hrest⟩ := List.forall_mem_cons.1 hevents
      exact ih (c := c.request tempo) ⟨h.1, htempo⟩ hrest
    | retime opens => exact ih (h.retime opens) hevents

/-- At positive tempos the beat does not fall, and it rises unless the frame stays the same. -/
theorem IsForward.beatAt_le_after {c : Clock Rat} (h : c.IsForward) (hrate : 0 < rate)
    {events : List Event} (hevents : ∀ tempo ∈ events.filterMap Event.tempo?, 0 < tempo)
    (hsorted : (events.filterMap Event.frame?).Pairwise (· ≤ ·)) {frame frame' : UInt64}
    (hbetween : ∀ opens ∈ events.filterMap Event.frame?, frame ≤ opens ∧ opens ≤ frame')
    (hle : frame ≤ frame') :
    c.beatAt frame rate ≤ (c.after rate events).beatAt frame' rate ∧
      (frame < frame' → c.beatAt frame rate < (c.after rate events).beatAt frame' rate) := by
  induction events generalizing c frame with
  | nil =>
    have hbeats := beatAt_eq_add rate c frame frame'
    have hnonneg := Stretch.beats_nonneg rate (s := ⟨frame, c.runningTempo⟩) h.1 hle
    refine ⟨?_, fun hlt => ?_⟩
    · change _ ≤ c.beatAt frame' rate
      linarith
    · have hpos := Stretch.beats_pos (s := ⟨frame, c.runningTempo⟩) hrate h.1 hlt
      change _ < c.beatAt frame' rate
      linarith
  | cons event events ih =>
    cases event with
    | request tempo =>
      obtain ⟨htempo, hrest⟩ := List.forall_mem_cons.1 hevents
      exact ih (c := c.request tempo) ⟨h.1, htempo⟩ hrest hsorted hbetween hle
    | retime opens =>
      obtain ⟨⟨hopens, hopens'⟩, -⟩ := List.forall_mem_cons.1 hbetween
      obtain ⟨hfirst, hsorted'⟩ := List.pairwise_cons.1 hsorted
      have hbetween' : ∀ later ∈ events.filterMap Event.frame?, opens ≤ later ∧ later ≤ frame' :=
        fun later hlater =>
          ⟨hfirst later hlater, (hbetween later (List.mem_cons_of_mem _ hlater)).2⟩
      obtain ⟨hrest, hrest'⟩ := ih (h.retime opens) hevents hsorted' hbetween' hopens'
      rw [beatAt_retime_self] at hrest hrest'
      have hbeats := beatAt_eq_add rate c frame opens
      have hnonneg := Stretch.beats_nonneg rate (s := ⟨frame, c.runningTempo⟩) h.1 hopens
      change _ ≤ ((c.retime opens rate).after rate events).beatAt frame' rate ∧
        (_ → _ < ((c.retime opens rate).after rate events).beatAt frame' rate)
      refine ⟨by linarith, fun hlt => ?_⟩
      -- The retime is at the first frame, or the beat has risen before it.
      rcases UInt64.lt_or_eq_of_le hopens with hlt' | rfl
      · have hpos := Stretch.beats_pos (s := ⟨frame, c.runningTempo⟩) hrate h.1 hlt'
        linarith
      · exact hrest' hlt

/-- The beat at a frame is the sum of the beats of all stretches until then, whatever has been
requested and retimed. So a retime does not change the beat at its own frame, of the tempos that are
requested between two retimes only the last one counts, and at positive tempos the beat at a later
frame of the history is higher, however many events lie between. -/
theorem beatAt_integrates (rate : UInt32) (hrate : 0 < rate) (tempo : Rat) (events : List Event)
    (hsorted : (events.filterMap Event.frame?).Pairwise (· ≤ ·)) :
    (∀ frame, ((starting tempo).after rate events).beatAt frame rate =
        Stretch.total rate frame (Stretch.all tempo events)) ∧
      (∀ frame, ((starting tempo).after rate (events ++ [.retime frame])).beatAt frame rate =
        ((starting tempo).after rate events).beatAt frame rate) ∧
      (∀ (tempos : List Rat) (last : Rat) (later : List Event),
        (starting tempo).after rate (events ++ tempos.map .request ++ .request last :: later) =
          (starting tempo).after rate (events ++ .request last :: later)) ∧
      (0 < tempo → (∀ t ∈ events.filterMap Event.tempo?, 0 < t) →
        ∀ before later, events = before ++ later → ∀ frame frame' : UInt64,
          (∀ opens ∈ later.filterMap Event.frame?, frame ≤ opens ∧ opens ≤ frame') →
          frame < frame' →
          ((starting tempo).after rate before).beatAt frame rate <
            ((starting tempo).after rate events).beatAt frame' rate) := by
  refine ⟨fun frame => ?_, fun frame => ?_, fun tempos last later => ?_, ?_⟩
  · have hzero : (starting tempo).beatAt 0 rate = 0 := by
      rw [beatAt_eq]
      simp [starting, Beats.ofNat]
    rw [beatAt_after _ events 0, hzero, zero_add]
    rfl
  · rw [after_append]
    exact beatAt_retime_self _ frame
  · rw [List.append_assoc, after_append, after_append, after_append]
    exact congrArg (after rate later) (after_requests _ tempos last)
  · rintro htempo hevents before later rfl frame frame' hbetween hlt
    rw [List.filterMap_append, List.forall_mem_append] at hevents
    rw [List.filterMap_append, List.pairwise_append] at hsorted
    have hforward : ((starting tempo).after rate before).IsForward :=
      IsForward.after ⟨htempo, htempo⟩ hevents.1
    rw [after_append]
    exact (hforward.beatAt_le_after hrate hevents.2 hsorted.2.1 hbetween
      (UInt64.le_of_lt hlt)).2 hlt

/-- A slower tempo that takes effect after half a second, and then a faster one that is taken back
before it can. -/
def slowedDown : List Event :=
  [.request 60, .retime 24000, .request 180, .request 60, .retime 36000, .retime 36000]

theorem beatAt_slowedDown :
    0 < (48000 : UInt32) ∧ (slowedDown.filterMap Event.frame?).Pairwise (· ≤ ·) ∧
      ((starting 120).after 48000 slowedDown).beatAt 48000 48000 =
        Stretch.total 48000 48000 (Stretch.all 120 slowedDown) ∧
      ((starting 120).after 48000 (slowedDown.take 2)).beatAt 30000 48000 <
        ((starting 120).after 48000 slowedDown).beatAt 48000 48000 := by
  have hslowed := beatAt_integrates 48000 (by decide) 120 slowedDown (by decide)
  refine ⟨by decide, by decide, hslowed.1 48000, ?_⟩
  exact hslowed.2.2.2 (by norm_num) (by decide +kernel) (slowedDown.take 2)
    (slowedDown.drop 2) (List.take_append_drop 2 slowedDown).symm 30000 48000
    (by simp [slowedDown, Event.frame?]) (by decide)

example : Stretch.total 48000 48000 (Stretch.all 120 slowedDown) = 3 / 2 := by
  decide +kernel

end PatternSynth.Clock
