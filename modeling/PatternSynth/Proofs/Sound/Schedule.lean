import Mathlib.Algebra.BigOperators.Group.List.Basic
import Mathlib.Algebra.Order.Ring.Rat
import Mathlib.Tactic.Linarith
import PatternSynth.Sound.Basic

/-!
# The present step covers the present beat

A sound is brought from beat to beat by calls, and on its way it goes from step to step
(`Sound.pulls`). With exact numbers its steps follow one another without a gap from the start of
the beat in which it was first called, each for its own duration (`Sound.OnSchedule`). As long as no
call is cut short by its cap, the present step is the last one pulled, and of all steps pulled it is
the only one that has begun and is not over yet.
-/

namespace PatternSynth

/-- A step with a duration that time can pass in. -/
def Step.played {β : Type} [Beats β] (timing : ChordTiming β) (step : Step β) : Step β :=
  { step with duration := Sound.usableDuration timing.minStep step.duration }

namespace Sound

/-! ## The steps of a call -/

section Pulls

variable {β : Type} [Beats β]

/-- Go on until the present step ends after `beat`, over at most so many steps, and keep the steps
on the way. -/
def pulls (timing : ChordTiming β) (env : Env) (beat : β) :
    Nat → Sound β → List (Step β) × Sound β
  | 0, s => ([], s)
  | n + 1, s =>
    match s.endBeat with
    | none => ([], s)
    | some stop =>
      if Beats.le stop beat then
        let others := pulls timing env beat n (s.pull timing env stop)
        ((s.player.next timing env).1 :: others.1, others.2)
      else ([], s)

theorem sound_pulls (timing : ChordTiming β) (env : Env) (beat : β) (n : Nat) (s : Sound β) :
    (s.pulls timing env beat n).2 = s.catchUp timing env beat n := by
  induction n generalizing s with
  | zero => rfl
  | succ n ih =>
    cases hend : s.endBeat with
    | none => simp only [pulls, catchUp, hend]
    | some stop =>
      simp only [pulls, catchUp, hend]
      split
      · exact ih _
      · rfl

variable {timing : ChordTiming β} {env : Env} {beat stop : β} {s : Sound β}

theorem pulls_of_le (hend : s.endBeat = some stop) (hle : Beats.le stop beat = true) (n : Nat) :
    s.pulls timing env beat (n + 1) =
      ((s.player.next timing env).1 :: ((s.pull timing env stop).pulls timing env beat n).1,
        ((s.pull timing env stop).pulls timing env beat n).2) := by
  simp only [pulls, hend, if_pos hle]

theorem pulls_of_not_le (hend : s.endBeat = some stop) (hle : ¬ Beats.le stop beat = true)
    (n : Nat) : s.pulls timing env beat n = ([], s) := by
  cases n with
  | zero => rfl
  | succ n => simp only [pulls, hend, if_neg hle]

/-- If the present step is over when the cap is reached, one more is pulled under a larger cap. -/
theorem length_pulls_succ {n : Nat} {s : Sound β}
    (hend : (s.pulls timing env beat n).2.endBeat = some stop) (hle : Beats.le stop beat = true) :
    (s.pulls timing env beat (n + 1)).1.length = (s.pulls timing env beat n).1.length + 1 := by
  induction n generalizing s with
  | zero =>
    have hpresent : s.endBeat = some stop := hend
    rw [pulls_of_le hpresent hle]
    rfl
  | succ n ih =>
    cases hpresent : s.endBeat with
    | none =>
      simp only [pulls, hpresent] at hend
      cases hend
    | some present =>
      by_cases hover : Beats.le present beat = true
      · rw [pulls_of_le hpresent hover] at hend
        rw [pulls_of_le hpresent hover, pulls_of_le hpresent hover, List.length_cons, ih hend,
          List.length_cons]
      · rw [pulls_of_not_le hpresent hover] at hend
        obtain rfl := Option.some.inj (hpresent.symm.trans hend)
        exact absurd hle hover

end Pulls

/-! ## Calls one after another -/

section Calls

variable {β : Type} [Beats β]

/-- A request to bring a sound to a beat, over at most `cap` steps. -/
structure Call (β : Type) where
  env : Env
  beat : β
  cap : Nat

namespace Call

variable (timing : ChordTiming β) (c : Call β) (s : Sound β)

/-- The sound after a call. -/
def apply : Sound β :=
  s.advance timing c.env c.beat c.cap

/-- The steps that are pulled in a call. -/
def steps : List (Step β) :=
  ((s.anchor c.beat).pulls timing c.env c.beat c.cap).1

/-- The call stops because of its cap: with a larger one it would pull one more step. -/
def IsCut : Prop :=
  (c.steps timing s).length < ({ c with cap := c.cap + 1 }.steps timing s).length

instance : Decidable (c.IsCut timing s) :=
  inferInstanceAs (Decidable (_ < _))

theorem apply_eq : c.apply timing s = ((s.anchor c.beat).pulls timing c.env c.beat c.cap).2 :=
  (sound_pulls timing c.env c.beat c.cap (s.anchor c.beat)).symm

end Call

variable (timing : ChordTiming β)

/-- The sound after some calls. -/
def after (calls : List (Call β)) (s : Sound β) : Sound β :=
  calls.foldl (fun s c => c.apply timing s) s

/-- The steps that are pulled over some calls. -/
def stepsOver : List (Call β) → Sound β → List (Step β)
  | [], _ => []
  | c :: calls, s => c.steps timing s ++ stepsOver calls (c.apply timing s)

/-- None of the calls stops because of its cap. -/
def Uncut : List (Call β) → Sound β → Prop
  | [], _ => True
  | c :: calls, s => ¬ c.IsCut timing s ∧ Uncut calls (c.apply timing s)

end Calls

/-! ## The schedule -/

/-- The beat at which the first `k` of some steps are over, if they follow one another from
`start`. -/
def stopAfter (timing : ChordTiming Rat) (start : Rat) (steps : List (Step Rat)) (k : Nat) : Rat :=
  start + ((steps.take k).map fun step => (step.played timing).duration).sum

/-- The sound has played these steps one after another from `start`. -/
structure OnSchedule (timing : ChordTiming Rat) (start : Rat) (steps : List (Step Rat))
    (s : Sound Rat) : Prop where
  endBeat : s.endBeat = some (stopAfter timing start steps steps.length)
  current : ∀ step, steps.getLast? = some step → s.current = some (step.played timing)

variable {timing : ChordTiming Rat} {start beat : Rat} {steps more : List (Step Rat)}
  {s : Sound Rat} {env : Env}

theorem duration_played_pos (hmin : 0 < timing.minStep) (step : Step Rat) :
    0 < (step.played timing).duration := by
  change 0 < usableDuration timing.minStep step.duration
  rw [usableDuration]
  split
  · rename_i h
    exact of_decide_eq_true (Bool.and_eq_true_iff.1 h).2
  · exact hmin

theorem stopAfter_zero : stopAfter timing start steps 0 = start := by
  simp [stopAfter]

/-- Steps that come later do not move those before them. -/
theorem stopAfter_append (k : Nat) (h : k ≤ steps.length) :
    stopAfter timing start (steps ++ more) k = stopAfter timing start steps k := by
  simp only [stopAfter, List.take_append_of_le_length h]

theorem stopAfter_concat (step : Step Rat) :
    stopAfter timing start (steps ++ [step]) (steps.length + 1) =
      stopAfter timing start steps steps.length + (step.played timing).duration := by
  simp [stopAfter, add_assoc]

theorem monotone_stopAfter (hmin : 0 < timing.minStep) :
    Monotone (stopAfter timing start steps) := by
  refine monotone_nat_of_le_succ fun k => ?_
  simp only [stopAfter, List.take_add_one, List.map_append, List.sum_append]
  cases steps[k]? with
  | none => simp
  | some step => simpa using (duration_played_pos hmin step).le

/-- If the last step has begun, a step that has begun and is not over is the last one. -/
theorem eq_length_of_between (hmin : 0 < timing.minStep) {k : Nat}
    (hlast : beat < stopAfter timing start steps steps.length)
    (hbegun : stopAfter timing start steps (steps.length - 1) ≤ beat)
    (hlower : stopAfter timing start steps (k - 1) ≤ beat)
    (hupper : beat < stopAfter timing start steps k) : k = steps.length := by
  have hmono : Monotone (stopAfter timing start steps) := monotone_stopAfter hmin
  have hle : k ≤ steps.length := by
    by_contra hlt
    have hover := hmono (show steps.length ≤ k - 1 by omega)
    linarith
  have hge : steps.length ≤ k := by
    by_contra hlt
    have hover := hmono (show k ≤ steps.length - 1 by omega)
    linarith
  exact Nat.le_antisymm hle hge

namespace OnSchedule

/-- A sound that has not started yet starts with the beat. -/
theorem anchor (h : s.endBeat = none) (beat : Rat) :
    OnSchedule timing (beat.floor : Rat) [] (s.anchor beat) := by
  refine ⟨?_, fun step hstep => by cases hstep⟩
  simp only [Sound.anchor, h, List.length_nil, stopAfter_zero]
  rfl

theorem pull (steps : List (Step Rat)) (s : Sound Rat) (env : Env) :
    OnSchedule timing start (steps ++ [(s.player.next timing env).1])
      (s.pull timing env (stopAfter timing start steps steps.length)) := by
  refine ⟨?_, ?_⟩
  · rw [List.length_append, List.length_singleton, stopAfter_concat]
    rfl
  · intro step hstep
    rw [List.getLast?_concat] at hstep
    obtain rfl := Option.some.inj hstep
    rfl

/-- Bringing a sound to a beat keeps it on schedule, and the last step that is pulled has begun. -/
theorem pulls (h : OnSchedule timing start steps s) (env : Env) (beat : Rat) (n : Nat) :
    OnSchedule timing start (steps ++ (s.pulls timing env beat n).1)
        (s.pulls timing env beat n).2 ∧
      ((s.pulls timing env beat n).1 ≠ [] →
        stopAfter timing start (steps ++ (s.pulls timing env beat n).1)
          ((steps ++ (s.pulls timing env beat n).1).length - 1) ≤ beat) := by
  induction n generalizing s steps with
  | zero =>
    rw [Sound.pulls, List.append_nil]
    exact ⟨h, fun hne => absurd rfl hne⟩
  | succ n ih =>
    by_cases hle : Beats.le (stopAfter timing start steps steps.length) beat = true
    · obtain ⟨hschedule, hbegun⟩ := ih (pull steps s env)
      rw [pulls_of_le h.endBeat hle]
      rw [List.append_assoc, List.singleton_append] at hschedule hbegun
      refine ⟨hschedule, fun _ => ?_⟩
      cases hmore : ((s.pull timing env (stopAfter timing start steps steps.length)).pulls timing
          env beat n).1 with
      | nil =>
        have hlength : (steps ++ [(s.player.next timing env).1]).length - 1 = steps.length := by
          simp
        rw [hlength, stopAfter_append _ le_rfl]
        exact of_decide_eq_true hle
      | cons step more =>
        rw [hmore] at hbegun
        exact hbegun (List.cons_ne_nil _ _)
    · rw [pulls_of_not_le h.endBeat hle, List.append_nil]
      exact ⟨h, fun hne => absurd rfl hne⟩

end OnSchedule

/-- The sound is on schedule, and the last of its steps has begun and is not over. -/
structure Covers (timing : ChordTiming Rat) (start : Rat) (steps : List (Step Rat)) (beat : Rat)
    (s : Sound Rat) : Prop where
  schedule : OnSchedule timing start steps s
  nonempty : steps ≠ []
  lower : stopAfter timing start steps (steps.length - 1) ≤ beat
  upper : beat < stopAfter timing start steps steps.length

/-- A call that is not cut short goes on to the step that covers its beat. -/
theorem covers_call {c : Call Rat} (h : OnSchedule timing start steps (s.anchor c.beat))
    (hstart : start ≤ c.beat)
    (hbegun : stopAfter timing start steps (steps.length - 1) ≤ c.beat)
    (huncut : ¬ c.IsCut timing s) :
    Covers timing start (steps ++ c.steps timing s) c.beat (c.apply timing s) := by
  obtain ⟨hschedule, hlast⟩ := h.pulls c.env c.beat c.cap
  rw [c.apply_eq]
  have hupper : c.beat <
      stopAfter timing start (steps ++ c.steps timing s) (steps ++ c.steps timing s).length := by
    by_contra hover
    refine huncut ?_
    have hmore := length_pulls_succ hschedule.endBeat (decide_eq_true (not_lt.1 hover))
    exact Nat.lt_of_succ_le hmore.ge
  have hnonempty : steps ++ c.steps timing s ≠ [] := by
    intro hnil
    rw [hnil, List.length_nil, stopAfter_zero] at hupper
    exact absurd hstart (not_le.2 hupper)
  refine ⟨hschedule, hnonempty, ?_, hupper⟩
  cases hsteps : c.steps timing s with
  | nil =>
    rw [List.append_nil]
    exact hbegun
  | cons step more =>
    rw [← hsteps]
    exact hlast fun hnil => List.cons_ne_nil step more (hsteps.symm.trans hnil)

theorem Covers.anchor (h : Covers timing start steps beat s) (beat' : Rat) :
    s.anchor beat' = s := by
  simp only [Sound.anchor, h.schedule.endBeat]

/-- A later call that is not cut short goes on to the step that covers its own beat. -/
theorem Covers.call (h : Covers timing start steps beat s) (hmin : 0 < timing.minStep)
    {c : Call Rat} (hbeat : beat ≤ c.beat) (huncut : ¬ c.IsCut timing s) :
    Covers timing start (steps ++ c.steps timing s) c.beat (c.apply timing s) := by
  have hstart : start ≤ stopAfter timing start steps (steps.length - 1) := by
    have hmono : Monotone (stopAfter timing start steps) := monotone_stopAfter hmin
    have hzero := hmono (Nat.zero_le (steps.length - 1))
    rwa [stopAfter_zero] at hzero
  have hbegun := h.lower.trans hbeat
  refine covers_call ?_ (hstart.trans hbegun) hbegun huncut
  rw [h.anchor]
  exact h.schedule

/-- So do calls one after another, at beats that never go back. -/
theorem Covers.after (hmin : 0 < timing.minStep) {c : Call Rat} {calls : List (Call Rat)}
    (h : Covers timing start steps c.beat s)
    (hbeats : (c :: calls).Pairwise fun c d => c.beat ≤ d.beat) (huncut : Uncut timing calls s) :
    Covers timing start (steps ++ stepsOver timing calls s) (calls.getLast?.getD c).beat
      (after timing calls s) := by
  induction calls generalizing c s steps with
  | nil =>
    rw [stepsOver, List.append_nil]
    exact h
  | cons next calls ih =>
    obtain ⟨hnext, hbeats⟩ := List.pairwise_cons.1 hbeats
    have hcall := h.call hmin (hnext next List.mem_cons_self) huncut.1
    rw [stepsOver, ← List.append_assoc, List.getLast?_cons, Option.getD_some]
    exact ih hcall hbeats huncut.2

/-- Over calls at beats that never go back, of which none is cut short, a sound always plays the
step that covers the beat: of the steps pulled so far, which follow one another from the start of
the beat of the first call, exactly one has begun and is not over, it is the last one, it is the
present step of the sound, and the sound leaves it when it is over. -/
theorem current_covers_beat (hmin : 0 < timing.minStep) (hfresh : s.endBeat = none)
    {first : Call Rat} {calls : List (Call Rat)}
    (hbeats : (first :: calls).Pairwise fun c d => c.beat ≤ d.beat)
    (huncut : Uncut timing (first :: calls) s) :
    let steps := stepsOver timing (first :: calls) s
    let stop := stopAfter timing (first.beat.floor : Rat) steps
    let beat := (calls.getLast?.getD first).beat
    let last := after timing (first :: calls) s
    ∃ k, (1 ≤ k ∧ stop (k - 1) ≤ beat ∧ beat < stop k) ∧
      (∀ j, 1 ≤ j → stop (j - 1) ≤ beat → beat < stop j → j = k) ∧
      (∃ step, steps[k - 1]? = some step ∧ last.current = some (step.played timing)) ∧
      last.endBeat = some (stop k) ∧ steps.length = k := by
  have hfloor : (first.beat.floor : Rat) ≤ first.beat := Rat.floor_le first.beat
  have hfirst := covers_call (.anchor hfresh first.beat) hfloor
    (by rw [List.length_nil, stopAfter_zero]; exact hfloor) huncut.1
  obtain ⟨hschedule, hnonempty, hlower, hupper⟩ := Covers.after hmin hfirst hbeats huncut.2
  intro steps stop beat last
  refine ⟨steps.length, ⟨List.length_pos_iff.2 hnonempty, hlower, hupper⟩, ?_, ?_,
    hschedule.endBeat, rfl⟩
  · intro j _ hbegun hover
    exact eq_length_of_between hmin hupper hlower hbegun hover
  · have hlast := List.getLast?_eq_some_getLast hnonempty
    rw [← List.getLast?_eq_getElem?]
    exact ⟨_, hlast, hschedule.current _ hlast⟩

/-- The pattern `[ 1 2 3 2 speed ]` as a sound, whose third step is half as long as the others. -/
def hurriedThird : Sound Rat :=
  .ofCommand ⟨.sine, .collect .sequence [.literal (.number 1) ⟨2, 3⟩, .literal (.number 2) ⟨4, 5⟩,
    .modify .speed (.literal (.number 2) ⟨8, 9⟩) (.literal (.number 3) ⟨6, 7⟩) ⟨10, 15⟩]⟩

def thousandth : ChordTiming Rat :=
  ⟨1 / 1000, 0, 0⟩

/-- A call at beat 5/2, one at 8/3, where the second step ends, and one at 4. -/
def hurriedThirdCalls : List (Call Rat) :=
  [⟨.zero, 5 / 2, 16⟩, ⟨.zero, 8 / 3, 16⟩, ⟨.zero, 4, 16⟩]

theorem current_covers_hurriedThird :
    hurriedThird.endBeat = none ∧ Uncut thousandth hurriedThirdCalls hurriedThird ∧
      ∃ step, (stepsOver thousandth hurriedThirdCalls hurriedThird)[7]? = some step ∧
        (after thousandth hurriedThirdCalls hurriedThird).current = some (step.played thousandth) ∧
        (after thousandth hurriedThirdCalls hurriedThird).endBeat = some (13 / 3) := by
  have huncut : Uncut thousandth hurriedThirdCalls hurriedThird := by
    refine ⟨?_, ?_, ?_, trivial⟩ <;> decide +kernel
  obtain ⟨k, -, -, ⟨step, hstep, hcurrent⟩, hend, hk⟩ :=
    current_covers_beat (show 0 < thousandth.minStep by decide +kernel) rfl
      (show hurriedThirdCalls.Pairwise fun c d => c.beat ≤ d.beat by decide +kernel) huncut
  have hlength : (stepsOver thousandth hurriedThirdCalls hurriedThird).length = 8 := by
    decide +kernel
  obtain rfl : k = 8 := hk.symm.trans hlength
  have hstop : stopAfter thousandth (Rat.floor (5 / 2) : Rat)
      (stepsOver thousandth hurriedThirdCalls hurriedThird) 8 = 13 / 3 := by
    decide +kernel
  exact ⟨rfl, huncut, step, hstep, hcurrent, hend.trans (congrArg some hstop)⟩

end Sound

end PatternSynth
