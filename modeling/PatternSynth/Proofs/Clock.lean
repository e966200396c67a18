import Mathlib
import PatternSynth.Clock

/-!
# Retiming the clock

`Clock.retime` lets the requested tempo take effect. Once it has, doing so again at any later frame
changes no beat (`Clock.beatAt_retime`). A tempo of NaN is the one case in which the clock itself
changes, since it never compares equal to itself, but then every beat is NaN as well.
-/

namespace PatternSynth

/-! ## NaN -/

open Float.Model

/-- The one float that is not a number. -/
def nan : Float :=
  .ofModel (.pack .notANumber)

theorem isNaN_iff (x : Float) : x.isNaN = true ↔ x.toModel.unpack = .notANumber := by
  change x.toModel.unpack.isNaN = true ↔ _
  cases x.toModel.unpack <;> simp [UnpackedFloat.isNaN]

theorem unpack_nan : nan.toModel.unpack = .notANumber := rfl

theorem div_eq_nan {x : Float} (h : x.isNaN = true) (y : Float) : x / y = nan := by
  change Float.ofModel (.pack (UnpackedFloat.div Format.binary64 x.toModel.unpack
    y.toModel.unpack)) = nan
  rw [(isNaN_iff x).1 h]
  cases y.toModel.unpack <;> rfl

theorem mul_nan (x : Float) : x * nan = nan := by
  change Float.ofModel (.pack (UnpackedFloat.mul Format.binary64 x.toModel.unpack
    nan.toModel.unpack)) = nan
  rw [unpack_nan]
  cases x.toModel.unpack <;> rfl

theorem add_nan (x : Float) : x + nan = nan := by
  change Float.ofModel (.pack (UnpackedFloat.add Format.binary64 x.toModel.unpack
    nan.toModel.unpack)) = nan
  rw [unpack_nan]
  cases x.toModel.unpack <;> rfl

/-- Every float but NaN compares equal to itself. -/
theorem beq_self_of_not_isNaN {x : Float} (h : x.isNaN = false) : (x == x) = true := by
  change x.toModel.unpack.isNaN = false at h
  change x.toModel.unpack.beq x.toModel.unpack = true
  cases hx : x.toModel.unpack with
  | infinity s => cases s <;> rfl
  | notANumber =>
    rw [hx] at h
    cases h
  | zero s => rfl
  | finite s mantissa exponent hpos =>
    cases s <;> simp [UnpackedFloat.beq, UnpackedFloat.compare]

/-! ## Retiming -/

namespace Clock

/-- The requested tempo has taken effect. -/
def IsSettled (c : Clock Float) : Prop :=
  (c.tempo == c.runningTempo) = true ∨ c.tempo.isNaN = true ∧ c.runningTempo.isNaN = true

variable {c : Clock Float} {frame : UInt64} {rate : UInt32}

theorem retime_of_eq (h : (c.tempo == c.runningTempo) = true) : c.retime frame rate = c :=
  if_pos h

theorem retime_of_ne (h : ¬ (c.tempo == c.runningTempo) = true) :
    c.retime frame rate = ⟨frame, c.beatAt frame rate, c.tempo, c.tempo⟩ :=
  if_neg h

theorem tempo_retime : (c.retime frame rate).tempo = c.tempo := by
  by_cases h : (c.tempo == c.runningTempo) = true
  · rw [retime_of_eq h]
  · rw [retime_of_ne h]

theorem isSettled_retime (c : Clock Float) (frame : UInt64) (rate : UInt32) :
    (c.retime frame rate).IsSettled := by
  by_cases h : (c.tempo == c.runningTempo) = true
  · rw [retime_of_eq h]
    exact .inl h
  · rw [retime_of_ne h]
    cases hnan : c.tempo.isNaN with
    | false => exact .inl (beq_self_of_not_isNaN hnan)
    | true => exact .inr ⟨hnan, hnan⟩

theorem beatAt_of_isNaN (h : c.runningTempo.isNaN = true) : c.beatAt frame rate = nan := by
  have hstep : c.beatsPerFrame rate = nan := div_eq_nan h _
  rw [beatAt, hstep]
  exact (congrArg (c.anchorBeat + ·) (mul_nan _)).trans (add_nan _)

/-- A tempo that has taken effect may take effect again without changing any beat. -/
theorem beatAt_retime (h : c.IsSettled) (frame frame' : UInt64) (rate rate' : UInt32) :
    (c.retime frame rate).beatAt frame' rate' = c.beatAt frame' rate' := by
  by_cases heq : (c.tempo == c.runningTempo) = true
  · rw [retime_of_eq heq]
  · obtain ⟨htempo, hrunning⟩ := h.resolve_left heq
    have hnew : (c.retime frame rate).runningTempo.isNaN = true := by
      rw [retime_of_ne heq]
      exact htempo
    rw [beatAt_of_isNaN hnew, beatAt_of_isNaN hrunning]

/-- A tempo other than NaN takes effect once. -/
theorem retime_retime (h : c.tempo.isNaN = false) (frame frame' : UInt64) (rate rate' : UInt32) :
    (c.retime frame rate).retime frame' rate' = c.retime frame rate := by
  apply retime_of_eq
  obtain heq | ⟨hnan, -⟩ := isSettled_retime c frame rate
  · exact heq
  · rw [tempo_retime, h] at hnan
    cases hnan

end Clock

end PatternSynth
