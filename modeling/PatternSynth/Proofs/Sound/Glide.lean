import PatternSynth.Proofs.Oscillator
import PatternSynth.Sound.Voice

/-!
# One frame of a voice

A voice glides toward the frequency and the amplitude that its note asks for, and both are finite
afterwards iff neither is so far from its target that the difference overflows (`Voice.Leaps`). Its
phase stays between zero and one, and it is one only where a sum rounds up (`Voice.RoundsUp`).
`Voice.settled_play_iff` and `Voice.healthy_play_iff` say so for one frame of a note.
-/

namespace PatternSynth

namespace Binary

variable {x : Float} {w : ℚ}

theorem RoundsTo.nonneg (h : RoundsTo w x) (hx : x.isFinite = true) (hw : 0 ≤ w) : 0 ≤ real x := by
  have hclosest := h.closest hx 0 rfl
  rw [real_zero, sub_zero, abs_of_nonneg hw, abs_le] at hclosest
  linarith

theorem RoundsTo.nonpos (h : RoundsTo w x) (hx : x.isFinite = true) (hw : w ≤ 0) : real x ≤ 0 := by
  have hclosest := h.closest hx 0 rfl
  rw [real_zero, sub_zero, abs_of_nonpos hw, abs_le] at hclosest
  linarith

/-- The largest float is more than one below the overflow. -/
theorem abs_real_add_one_lt (hx : x.isFinite = true) : |real x| + 1 < overflow := by
  obtain ⟨negative, m, e, hfloat, hm, -, he⟩ := ofFloat_of_isFinite hx
  have hm' : (m : ℚ) ≤ 2 ^ 53 - 1 := by
    have : (m : ℚ) + 1 ≤ 2 ^ 53 := by exact_mod_cast hm
    linarith
  have hunit : (2 : ℚ) ^ e ≤ 2 ^ (971 : Int) := zpow_le_zpow_right₀ one_le_two he
  have hmagnitude : magnitude m e ≤ (2 ^ 53 - 1) * 2 ^ (971 : Int) :=
    mul_le_mul hm' hunit (unit_pos e).le (by norm_num)
  have habs : |real x| = magnitude m e := by
    have hnonneg : 0 ≤ magnitude m e := mul_nonneg (Nat.cast_nonneg m) (unit_pos e).le
    rw [real, hfloat, toRat_finite]
    cases negative with
    | false => exact abs_of_nonneg hnonneg
    | true => exact (abs_neg _).trans (abs_of_nonneg hnonneg)
  have hdouble : (2 : ℚ) ^ (971 : Int) = 2 * 2 ^ (970 : Int) := by
    rw [show (971 : Int) = 970 + 1 by norm_num, zpow_add_one₀ two_ne_zero, mul_comm]
  have hone : (1 : ℚ) < 2 ^ (970 : Int) := one_lt_zpow₀ one_lt_two (by norm_num)
  rw [habs, overflow]
  rw [hdouble] at hmagnitude
  generalize (2 : ℚ) ^ (970 : Int) = unit at hmagnitude hone ⊢
  linarith

/-- A rate is a float. -/
theorem real_toFloat (n : UInt32) : n.toFloat.isFinite = true ∧ real n.toFloat = n.toNat := by
  have hlt := n.toNat_lt
  obtain ⟨hfinite, hreal⟩ := real_normalize (n := n.toNat) (e := 0) (by omega) (by norm_num)
    (by norm_num) .positive
  refine ⟨hfinite, hreal.trans ?_⟩
  rw [zpow_zero, mul_one, Int.cast_natCast]

end Binary

open Binary

namespace Voice

/-! ## Gliding -/

/-- A part of the way that is finite, positive and at most a quarter. -/
def IsSlow (c : Float) : Prop :=
  c.isFinite = true ∧ 0 < real c ∧ real c ≤ 1 / 4

variable {c t x : Float}

/-- The way that is gone leads toward the target and not beyond it, however it was rounded. -/
theorem way_spec (hc : IsSlow c) (ht : t.isFinite = true) (hx : x.isFinite = true)
    (h : |real t - real x| < overflow) :
    ((t - x) * c).isFinite = true ∧
      (real x ≤ real t → 0 ≤ real ((t - x) * c) ∧ real ((t - x) * c) ≤ real t - real x) ∧
      (real t ≤ real x → real t - real x ≤ real ((t - x) * c) ∧ real ((t - x) * c) ≤ 0) := by
  obtain ⟨hfinite, hpos, hquarter⟩ := hc
  have hdifference := roundsTo_sub ht hx
  have hd := hdifference.isFinite_iff.2 h
  have hway := roundsTo_mul hd hfinite
  have hscaled : |real (t - x) * real c| = |real (t - x)| * real c := by
    rw [abs_mul, abs_of_pos hpos]
  have hp : ((t - x) * c).isFinite = true := by
    refine (hway.abs_real_le hd ?_).1
    rw [hscaled]
    exact mul_le_of_le_one_right (abs_nonneg _) (by linarith)
  -- Each of the two roundings at most doubles, and the factor is at most a quarter.
  have hbound : |real ((t - x) * c)| ≤ |real t - real x| := by
    have hfirst := hdifference.double
    have hsecond := hway.double
    rw [hscaled] at hsecond
    nlinarith [abs_nonneg (real (t - x))]
  refine ⟨hp, fun hle => ?_, fun hge => ?_⟩
  · have hnonneg := hdifference.nonneg hd (sub_nonneg.2 hle)
    rw [abs_of_nonneg (sub_nonneg.2 hle)] at hbound
    exact ⟨hway.nonneg hp (mul_nonneg hnonneg hpos.le), (le_abs_self _).trans hbound⟩
  · have hnonpos := hdifference.nonpos hd (sub_nonpos.2 hge)
    rw [abs_of_nonpos (sub_nonpos.2 hge)] at hbound
    exact ⟨by linarith [neg_abs_le (real ((t - x) * c))],
      hway.nonpos hp (mul_nonpos_of_nonpos_of_nonneg hnonpos hpos.le)⟩

/-- A value that glides stays between where it was and its target. -/
theorem glide_between (hc : IsSlow c) (ht : t.isFinite = true) (hx : x.isFinite = true)
    (h : |real t - real x| < overflow) :
    (glide c t x).isFinite = true ∧ min (real x) (real t) ≤ real (glide c t x) ∧
      real (glide c t x) ≤ max (real x) (real t) := by
  obtain ⟨hp, hup, hdown⟩ := way_spec hc ht hx h
  have hsum := roundsTo_add hx hp
  rcases le_total (real x) (real t) with hle | hge
  · obtain ⟨hnonneg, hway⟩ := hup hle
    rw [min_eq_left hle, max_eq_right hle]
    exact hsum.between hx ht (by linarith) (by linarith)
  · obtain ⟨hway, hnonpos⟩ := hdown hge
    rw [min_eq_right hge, max_eq_left hge]
    exact hsum.between ht hx (by linarith) (by linarith)

/-- A value that glides stays finite iff its target is not too far. -/
theorem isFinite_glide_iff (hc : IsSlow c) (ht : t.isFinite = true) (hx : x.isFinite = true) :
    (glide c t x).isFinite = true ↔ |real t - real x| < overflow := by
  refine ⟨fun hglide => ?_, fun h => (glide_between hc ht hx h).1⟩
  by_contra hfar
  have hd : (t - x).isFinite = false :=
    Bool.not_eq_true _ ▸ mt (roundsTo_sub ht hx).isFinite_iff.1 hfar
  have hp := isFinite_mul_eq_false hd hc.1 hc.2.1.ne'
  exact absurd hglide (Bool.not_eq_true _ ▸ isFinite_add_eq_false hx hp)

/-- A value below half the overflow stays there if its target is. -/
theorem abs_glide_lt (hc : IsSlow c) (ht : t.isFinite = true) (hx : x.isFinite = true)
    (htarget : 2 * |real t| < overflow) (h : 2 * |real x| < overflow) :
    |real t - real x| < overflow ∧ 2 * |real (glide c t x)| < overflow := by
  have hnear : |real t - real x| < overflow := by
    have := abs_sub (real t) (real x)
    linarith
  refine ⟨hnear, ?_⟩
  obtain ⟨-, hlow, hhigh⟩ := glide_between hc ht hx hnear
  have hmax := abs_le_max_abs_abs hlow hhigh
  rcases le_total (real x) (real t) with hle | hge
  · rw [min_eq_left hle, max_eq_right hle] at hmax
    rcases max_cases |real x| |real t| with ⟨heq, -⟩ | ⟨heq, -⟩ <;> linarith
  · rw [min_eq_right hge, max_eq_left hge] at hmax
    rcases max_cases |real t| |real x| with ⟨heq, -⟩ | ⟨heq, -⟩ <;> linarith

theorem isSlow_default : IsSlow 0.05 := by
  refine ⟨by decide +kernel, by decide +kernel, by decide +kernel⟩

/-! ## What a note asks for -/

/-- The frequency that a note asks for. -/
def wantedFreq (env : Env) (note : Note) : Float :=
  targetFreq (note.pattern.resolve env)

/-- The amplitude that a note asks for. -/
def wantedAmp (env : Env) (note : Note) : Float :=
  targetAmp (wantedFreq env note) note.gain

variable (env : Env) (note : Note)

theorem isFinite_wantedFreq : (wantedFreq env note).isFinite = true := by
  unfold wantedFreq targetFreq
  split
  · split
    · assumption
    · rfl
  · rfl

theorem isFinite_wantedAmp : (wantedAmp env note).isFinite = true := by
  unfold wantedAmp targetAmp
  split
  · next h => exact (Bool.and_eq_true_iff.1 h).2
  · rfl

/-! ## One frame -/

/-- The frequency or the amplitude that a note asks for is so far that the difference overflows. -/
def Leaps (v : Voice) : Prop :=
  overflow ≤ |real (wantedFreq env note) - real v.freq| ∨
    overflow ≤ |real (wantedAmp env note) - real v.amp|

variable (rig : Rig)

/-- The frequency in the next frame. -/
def nextFreq (v : Voice) : Float :=
  glide rig.config.frequencySmoothing (wantedFreq env note) v.freq

/-- The amplitude in the next frame. -/
def nextAmp (v : Voice) : Float :=
  glide rig.config.amplitudeSmoothing (wantedAmp env note) v.amp

/-- The phase in the next frame, with whole turns. -/
def nextTurn (v : Voice) : Float :=
  v.phase + v.nextFreq env note rig / rig.rate.toFloat

/-- The phase in the next frame is so little below a whole turn that it rounds up to one. -/
def RoundsUp (v : Voice) : Prop :=
  v.nextAmp env note rig > rig.config.amplitudeGate ∧ JustBelow (real (v.nextTurn env note rig))

/-- The frequency and the amplitude are finite, and the phase is a fraction of a turn or one. -/
structure Settled (v : Voice) : Prop where
  freq : v.freq.isFinite = true
  amp : v.amp.isFinite = true
  phase : Within 0 1 v.phase

/-- The frequency and the amplitude are finite, and the phase is less than a turn. -/
structure Healthy (v : Voice) : Prop extends Settled v where
  below : real v.phase < 1

theorem healthy_fresh : Healthy fresh :=
  ⟨⟨rfl, rfl, by decide +kernel⟩, by decide +kernel⟩

variable {env note rig} {w : Waveform} {v : Voice}

/-- One frame of a note that is played by an oscillator. -/
theorem play_eq (hw : w ∉ [.raw, .sample]) (g : Noise) :
    v.play rig w env note g =
      let freq := v.nextFreq env note rig
      let amp := v.nextAmp env note rig
      let phase := fractionalTurn (v.nextTurn env note rig)
      if amp > rig.config.amplitudeGate then
        ((w.shape phase g).1 * amp, { v with phase, freq, amp }, (w.shape phase g).2)
      else (0, { v with freq, amp }, g) := by
  cases w with
  | raw | sample => simp at hw
  | _ => rfl

theorem freq_play (hw : w ∉ [.raw, .sample]) (g : Noise) :
    (v.play rig w env note g).2.1.freq = v.nextFreq env note rig := by
  rw [play_eq hw]
  dsimp only
  split <;> rfl

theorem amp_play (hw : w ∉ [.raw, .sample]) (g : Noise) :
    (v.play rig w env note g).2.1.amp = v.nextAmp env note rig := by
  rw [play_eq hw]
  dsimp only
  split <;> rfl

theorem phase_play (hw : w ∉ [.raw, .sample]) (g : Noise) :
    (v.play rig w env note g).2.1.phase =
      if v.nextAmp env note rig > rig.config.amplitudeGate then
        fractionalTurn (v.nextTurn env note rig)
      else v.phase := by
  rw [play_eq hw]
  dsimp only
  split <;> rfl

section Usual

variable (hconfig : rig.config = {})

include hconfig

theorem isFinite_next_iff (h : Settled v) :
    (v.nextFreq env note rig).isFinite = true ∧ (v.nextAmp env note rig).isFinite = true ↔
      ¬ v.Leaps env note := by
  rw [nextFreq, nextAmp, hconfig,
    isFinite_glide_iff isSlow_default (isFinite_wantedFreq env note) h.freq,
    isFinite_glide_iff isSlow_default (isFinite_wantedAmp env note) h.amp, Leaps, not_or, not_le,
    not_le]

omit hconfig in
theorem isFinite_nextTurn (hrate : 0 < rig.rate) (h : Settled v)
    (hfreq : (v.nextFreq env note rig).isFinite = true) :
    (v.nextTurn env note rig).isFinite = true := by
  obtain ⟨hrateFinite, hreal⟩ := real_toFloat rig.rate
  have hone : (1 : ℚ) ≤ real rig.rate.toFloat := by
    rw [hreal]
    exact_mod_cast UInt32.lt_iff_toNat_lt.1 hrate
  have hquotient := roundsTo_div hfreq hrateFinite (by linarith)
  have hsmaller : |real (v.nextFreq env note rig) / real rig.rate.toFloat| ≤
      |real (v.nextFreq env note rig)| := by
    rw [abs_div, abs_of_nonneg (zero_le_one.trans hone)]
    exact div_le_self (abs_nonneg _) hone
  obtain ⟨hfinite, -⟩ := hquotient.abs_real_le hfreq hsmaller
  refine (roundsTo_add h.phase.1 hfinite).isFinite_iff.2 ?_
  have hphase : |real v.phase| ≤ 1 := abs_le.2 ⟨by linarith [h.phase.2.1], h.phase.2.2⟩
  calc |real v.phase + real (v.nextFreq env note rig / rig.rate.toFloat)|
      ≤ |real v.phase| + |real (v.nextFreq env note rig / rig.rate.toFloat)| := abs_add_le _ _
    _ ≤ |real (v.nextFreq env note rig / rig.rate.toFloat)| + 1 := by linarith
    _ < overflow := abs_real_add_one_lt hfinite

variable (hrate : 0 < rig.rate) (hw : w ∉ [.raw, .sample])

include hrate hw

/-- After a frame a voice is settled iff it did not leap. -/
theorem settled_play_iff (h : Settled v) (g : Noise) :
    Settled (v.play rig w env note g).2.1 ↔ ¬ v.Leaps env note := by
  rw [← isFinite_next_iff hconfig h]
  constructor
  · rintro ⟨hfreq, hamp, -⟩
    exact ⟨freq_play hw g ▸ hfreq, amp_play hw g ▸ hamp⟩
  · rintro ⟨hfreq, hamp⟩
    refine ⟨(freq_play hw g).symm ▸ hfreq, (amp_play hw g).symm ▸ hamp, ?_⟩
    rw [phase_play hw]
    split
    · exact Waveform.within_turn (isFinite_nextTurn hrate h hfreq)
    · exact h.phase

/-- After a frame a voice is healthy iff it did not leap and its phase did not round up. -/
theorem healthy_play_iff (h : Healthy v) (g : Noise) :
    Healthy (v.play rig w env note g).2.1 ↔
      ¬ v.Leaps env note ∧ ¬ v.RoundsUp env note rig := by
  rw [← settled_play_iff hconfig hrate hw h.toSettled g]
  have hbelow (hfreq : (v.nextFreq env note rig).isFinite = true) :
      real (v.play rig w env note g).2.1.phase < 1 ↔ ¬ v.RoundsUp env note rig := by
    obtain ⟨-, -, hle, hone⟩ := fractionalTurn_spec (isFinite_nextTurn hrate h.toSettled hfreq)
    rw [phase_play hw, RoundsUp]
    split
    · next hheard => rw [lt_iff_le_and_ne, Ne, hone, and_iff_right hle, and_iff_right hheard]
    · next hheard => exact iff_of_true h.below fun hup => hheard hup.1
  constructor
  · intro hhealthy
    have hfreq := hhealthy.freq
    rw [freq_play hw] at hfreq
    exact ⟨hhealthy.toSettled, (hbelow hfreq).1 hhealthy.below⟩
  · rintro ⟨hsettled, hup⟩
    have hfreq := hsettled.freq
    rw [freq_play hw] at hfreq
    exact ⟨hsettled, (hbelow hfreq).2 hup⟩

/-- What is heard of a voice that does not leap is finite. -/
theorem isFinite_play (hsine : w = .sine → SineWithin) (h : Settled v)
    (hleaps : ¬ v.Leaps env note) (g : Noise) : (v.play rig w env note g).1.isFinite = true := by
  obtain ⟨hfreq, hamp⟩ := (isFinite_next_iff hconfig h).2 hleaps
  rw [play_eq hw]
  dsimp only
  split
  · obtain ⟨hfinite, hshape⟩ := Waveform.within_shape hw hsine
      (Waveform.within_turn (isFinite_nextTurn hrate h hfreq)) g
    refine ((roundsTo_mul hfinite hamp).abs_real_le hamp ?_).1
    rw [abs_mul]
    exact mul_le_of_le_one_left (abs_nonneg _) (abs_le.2 hshape)
  · exact (rfl : (0 : Float).isFinite = true)

end Usual

/-! ## Moderate values -/

/-- What a note asks for is below half the overflow. -/
def Moderate (env : Env) (note : Note) : Prop :=
  2 * |real (wantedFreq env note)| < overflow ∧ 2 * |real (wantedAmp env note)| < overflow

/-- The voice is settled, with a frequency and an amplitude below half the overflow. -/
structure Calm (v : Voice) : Prop extends Settled v where
  freq_lt : 2 * |real v.freq| < overflow
  amp_lt : 2 * |real v.amp| < overflow

theorem calm_fresh : Calm fresh := by
  have hzero : 2 * |real 0| < overflow := by
    rw [real_zero, abs_zero, mul_zero]
    exact overflow_pos
  exact ⟨healthy_fresh.toSettled, hzero, hzero⟩

theorem Calm.not_leaps (h : Calm v) (hnote : Moderate env note) : ¬ v.Leaps env note := by
  have hfreq := abs_glide_lt isSlow_default (isFinite_wantedFreq env note) h.freq hnote.1 h.freq_lt
  have hamp := abs_glide_lt isSlow_default (isFinite_wantedAmp env note) h.amp hnote.2 h.amp_lt
  exact not_or.2 ⟨not_le.2 hfreq.1, not_le.2 hamp.1⟩

/-- A calm voice stays calm while its notes are moderate. -/
theorem Calm.play (hconfig : rig.config = {}) (hrate : 0 < rig.rate) (hw : w ∉ [.raw, .sample])
    (h : Calm v) (hnote : Moderate env note) (g : Noise) :
    Calm (v.play rig w env note g).2.1 := by
  refine ⟨(settled_play_iff hconfig hrate hw h.toSettled g).2 (h.not_leaps hnote), ?_, ?_⟩
  · rw [freq_play hw, nextFreq, hconfig]
    exact (abs_glide_lt isSlow_default (isFinite_wantedFreq env note) h.freq hnote.1 h.freq_lt).2
  · rw [amp_play hw, nextAmp, hconfig]
    exact (abs_glide_lt isSlow_default (isFinite_wantedAmp env note) h.amp hnote.2 h.amp_lt).2

end Voice

end PatternSynth
