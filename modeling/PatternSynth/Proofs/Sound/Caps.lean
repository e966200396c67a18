import PatternSynth.Proofs.Sound.Schedule
import PatternSynth.Proofs.Step.Rotation

/-!
# A cap only delays

A call that brings a sound to a beat pulls no more steps than its cap. What it leaves undone is done
by the next call at the same moment: the calls together do what one call with all their caps added
up does (`Sound.pulls_add`). The steps are those that the player hands out one after another, and
each of them is given to the voices in its turn (`Sound.InOrder`). A call that stops before its cap
has nothing left to do (`Sound.pulls_again`).
-/

namespace PatternSynth.Sound

variable {β : Type} [Beats β] (timing : ChordTiming β) (env : Env) (beat : β)

/-! ## One call after another -/

variable {timing env beat} in
theorem pulls_of_none {s : Sound β} (hend : s.endBeat = none) (n : Nat) :
    s.pulls timing env beat n = ([], s) := by
  cases n with
  | zero => rfl
  | succ n => simp only [pulls, hend]

/-- A run of pulls can be cut anywhere. -/
theorem pulls_add (m n : Nat) (s : Sound β) :
    s.pulls timing env beat (m + n) =
      ((s.pulls timing env beat m).1 ++ ((s.pulls timing env beat m).2.pulls timing env beat n).1,
        ((s.pulls timing env beat m).2.pulls timing env beat n).2) := by
  induction m generalizing s with
  | zero => rw [Nat.zero_add, pulls, List.nil_append]
  | succ m ih =>
    rw [Nat.succ_add]
    cases hend : s.endBeat with
    | none =>
      rw [pulls_of_none hend, pulls_of_none hend, pulls_of_none hend, List.nil_append]
    | some stop =>
      by_cases hle : Beats.le stop beat = true
      · rw [pulls_of_le hend hle, pulls_of_le hend hle, ih, List.cons_append]
      · rw [pulls_of_not_le hend hle, pulls_of_not_le hend hle, pulls_of_not_le hend hle,
          List.nil_append]

/-- Pulls that stop before their cap have come to an end. -/
theorem pulls_again {n : Nat} {s : Sound β} (h : (s.pulls timing env beat n).1.length < n)
    (k : Nat) :
    (s.pulls timing env beat n).2.pulls timing env beat k =
      ([], (s.pulls timing env beat n).2) := by
  induction n generalizing s with
  | zero => exact absurd h (Nat.not_lt_zero _)
  | succ n ih =>
    cases hend : s.endBeat with
    | none => rw [pulls_of_none hend, pulls_of_none hend]
    | some stop =>
      by_cases hle : Beats.le stop beat = true
      · rw [pulls_of_le hend hle] at h ⊢
        exact ih (Nat.lt_of_succ_lt_succ h)
      · rw [pulls_of_not_le hend hle, pulls_of_not_le hend hle]

/-- A sound that has been anchored stays so, however many steps it goes on. -/
theorem isSome_endBeat_pulls (n : Nat) {s : Sound β} (h : s.endBeat.isSome = true) :
    (s.pulls timing env beat n).2.endBeat.isSome = true := by
  induction n generalizing s with
  | zero => exact h
  | succ n ih =>
    obtain ⟨stop, hend⟩ := Option.isSome_iff_exists.1 h
    by_cases hle : Beats.le stop beat = true
    · rw [pulls_of_le hend hle]
      exact ih rfl
    · rw [pulls_of_not_le hend hle]
      exact h

theorem isSome_endBeat_anchor (s : Sound β) : (s.anchor beat).endBeat.isSome = true := by
  rw [anchor]
  split
  · next stop hend => exact Option.isSome_iff_exists.2 ⟨stop, hend⟩
  · rfl

theorem anchor_of_isSome {s : Sound β} (h : s.endBeat.isSome = true) : s.anchor beat = s := by
  obtain ⟨stop, hend⟩ := Option.isSome_iff_exists.1 h
  simp only [anchor, hend]

/-- A sound that has been called is anchored, and the next call finds it so. -/
theorem anchor_apply (c : Call β) (s : Sound β) :
    (c.apply timing s).anchor beat = c.apply timing s := by
  rw [c.apply_eq]
  exact anchor_of_isSome beat
    (isSome_endBeat_pulls timing c.env c.beat c.cap (isSome_endBeat_anchor c.beat s))

/-- Two calls at the same moment do what one call with both caps does, step for step. -/
theorem call_call (m n : Nat) (s : Sound β) :
    let first : Call β := ⟨env, beat, m⟩
    let second : Call β := ⟨env, beat, n⟩
    let both : Call β := ⟨env, beat, m + n⟩
    second.apply timing (first.apply timing s) = both.apply timing s ∧
      first.steps timing s ++ second.steps timing (first.apply timing s) =
        both.steps timing s := by
  intro first second both
  have hanchored : (first.apply timing s).anchor beat = first.apply timing s :=
    anchor_apply timing beat first s
  have hboth := pulls_add timing env beat m n (s.anchor beat)
  refine ⟨?_, ?_⟩
  · rw [second.apply_eq, both.apply_eq, hboth, hanchored, first.apply_eq]
  · rw [Call.steps, Call.steps, Call.steps, hboth, hanchored, first.apply_eq]

/-- So do any number of calls at the same moment. -/
theorem calls_eq_one (cap : Nat) (caps : List Nat) (s : Sound β) :
    let calls := (cap :: caps).map (Call.mk env beat)
    let whole : Call β := ⟨env, beat, (cap :: caps).sum⟩
    after timing calls s = whole.apply timing s ∧
      stepsOver timing calls s = whole.steps timing s := by
  induction caps generalizing cap s with
  | nil => exact ⟨rfl, List.append_nil _⟩
  | cons next caps ih =>
    intro calls whole
    let first : Call β := ⟨env, beat, cap⟩
    obtain ⟨hafter, hsteps⟩ := ih next (first.apply timing s)
    obtain ⟨happly, happend⟩ := call_call timing env beat cap (next :: caps).sum s
    refine ⟨hafter.trans happly, ?_⟩
    calc stepsOver timing calls s
        = first.steps timing s ++
            stepsOver timing ((next :: caps).map (Call.mk env beat)) (first.apply timing s) := rfl
      _ = whole.steps timing s := by rw [hsteps, happend]; rfl

/-- After a call that stops before its cap, no call at the same moment does anything. -/
theorem calls_after_uncut {cap : Nat} {s : Sound β}
    (h : ((Call.mk env beat cap).steps timing s).length < cap) (caps : List Nat) :
    let calls := caps.map (Call.mk env beat)
    let settled := (Call.mk env beat cap).apply timing s
    after timing calls settled = settled ∧ stepsOver timing calls settled = [] := by
  intro calls settled
  have hidle (k : Nat) : (settled.anchor beat).pulls timing env beat k = ([], settled) := by
    have hagain : ((s.anchor beat).pulls timing env beat cap).2.pulls timing env beat k =
        ([], ((s.anchor beat).pulls timing env beat cap).2) := pulls_again timing env beat h k
    rw [sound_pulls] at hagain
    rw [anchor_apply]
    exact hagain
  induction caps with
  | nil => exact ⟨rfl, rfl⟩
  | cons next caps ih =>
    have happly : (Call.mk env beat next).apply timing settled = settled := by
      rw [Call.apply_eq, hidle]
    have hsteps : (Call.mk env beat next).steps timing settled = [] := by
      rw [Call.steps, hidle]
    refine ⟨?_, ?_⟩
    · change after timing (caps.map (Call.mk env beat)) (Call.apply timing _ settled) = settled
      rw [happly]
      exact ih.1
    · change Call.steps timing _ settled ++
        stepsOver timing (caps.map (Call.mk env beat)) (Call.apply timing _ settled) = []
      rw [happly, hsteps]
      exact ih.2

/-! ## The order of the steps -/

/-- From the first sound to the last one these steps were pulled in one environment: they are what
the player hands out, one pull after another, and the voices were made to fit each in turn. -/
structure InOrder (s : Sound β) (steps : List (Step β)) (last : Sound β) : Prop where
  steps_eq : steps = (List.range steps.length).map fun k =>
    ((s.player.pulled (List.replicate k (timing, env))).next timing env).1
  player_eq : last.player = s.player.pulled (List.replicate steps.length (timing, env))
  voices_eq : last.voices =
    steps.foldl (fun voices step => voicesFor s.waveform step.notes.length voices) s.voices

theorem inOrder_nil (s : Sound β) : InOrder timing env s [] s :=
  ⟨rfl, rfl, rfl⟩

/-- One pull more, in front of the others. -/
theorem InOrder.cons {s last : Sound β} {stop : β} {steps : List (Step β)}
    (h : InOrder timing env (s.pull timing env stop) steps last) :
    InOrder timing env s ((s.player.next timing env).1 :: steps) last := by
  refine ⟨?_, h.player_eq, h.voices_eq⟩
  rw [List.length_cons, List.range_succ_eq_map, List.map_cons, List.map_map]
  refine congrArg₂ List.cons rfl ?_
  exact h.steps_eq

theorem inOrder_pulls (n : Nat) (s : Sound β) :
    InOrder timing env s (s.pulls timing env beat n).1 (s.pulls timing env beat n).2 := by
  induction n generalizing s with
  | zero => exact inOrder_nil timing env s
  | succ n ih =>
    cases hend : s.endBeat with
    | none =>
      rw [pulls_of_none hend]
      exact inOrder_nil timing env s
    | some stop =>
      by_cases hle : Beats.le stop beat = true
      · rw [pulls_of_le hend hle]
        exact (ih (s.pull timing env stop)).cons
      · rw [pulls_of_not_le hend hle]
        exact inOrder_nil timing env s

theorem player_anchor (s : Sound β) : (s.anchor beat).player = s.player := by
  rw [anchor]
  split <;> rfl

theorem waveform_anchor (s : Sound β) : (s.anchor beat).waveform = s.waveform := by
  rw [anchor]
  split <;> rfl

theorem voices_anchor (s : Sound β) : (s.anchor beat).voices = s.voices := by
  rw [anchor]
  split <;> rfl

/-- Anchoring pulls nothing. -/
theorem inOrder_call (c : Call β) (s : Sound β) :
    InOrder timing c.env s (c.steps timing s) (c.apply timing s) := by
  obtain ⟨hsteps, hplayer, hvoices⟩ :=
    inOrder_pulls timing c.env c.beat c.cap (s.anchor c.beat)
  rw [player_anchor] at hsteps hplayer
  rw [waveform_anchor, voices_anchor] at hvoices
  rw [c.apply_eq]
  exact ⟨hsteps, hplayer, hvoices⟩

/-! ## The law of caps -/

/-- A cap only delays. Two calls at the same moment leave the sound that one call with the sum of
their caps leaves. However a cap is split over calls, they pull the same steps as one call with
their sum, in the order in which the player hands them out and the voices take them. After a call
that has not reached its cap, calls at the same moment pull nothing and change nothing. -/
theorem advance_split (s : Sound β) :
    (∀ m n, (s.advance timing env beat m).advance timing env beat n =
      s.advance timing env beat (m + n)) ∧
    (∀ (cap : Nat) (caps : List Nat),
      let calls := (cap :: caps).map (Call.mk env beat)
      let whole : Call β := ⟨env, beat, (cap :: caps).sum⟩
      after timing calls s = s.advance timing env beat (cap :: caps).sum ∧
        stepsOver timing calls s = whole.steps timing s ∧
        InOrder timing env s (stepsOver timing calls s) (after timing calls s)) ∧
    (∀ cap, ((Call.mk env beat cap).steps timing s).length < cap → ∀ caps : List Nat,
      let calls := caps.map (Call.mk env beat)
      after timing calls (s.advance timing env beat cap) = s.advance timing env beat cap ∧
        stepsOver timing calls (s.advance timing env beat cap) = []) := by
  refine ⟨fun m n => (call_call timing env beat m n s).1, fun cap caps => ?_,
    fun cap h caps => calls_after_uncut timing env beat h caps⟩
  obtain ⟨hafter, hsteps⟩ := calls_eq_one timing env beat cap caps s
  refine ⟨hafter, hsteps, ?_⟩
  rw [hafter, hsteps]
  exact inOrder_call timing ⟨env, beat, (cap :: caps).sum⟩ s

/-- The sound `[ 1 2 3 2 speed ]` is brought to beat 1 by calls with the caps 1, 0 and 3, the last
of which has nothing left to do after two steps. -/
theorem advance_split_hurriedThird :
    let calls : List (Call Rat) := [⟨.zero, 1, 1⟩, ⟨.zero, 1, 0⟩, ⟨.zero, 1, 3⟩]
    after thousandth calls hurriedThird = hurriedThird.advance thousandth .zero 1 4 ∧
      ((Call.mk Env.zero (1 : Rat) 4).steps thousandth hurriedThird).length < 4 ∧
      after thousandth calls (hurriedThird.advance thousandth .zero 1 4) =
        hurriedThird.advance thousandth .zero 1 4 := by
  obtain ⟨-, hsplit, hidle⟩ := advance_split thousandth Env.zero (1 : Rat) hurriedThird
  have huncut : ((Call.mk Env.zero (1 : Rat) 4).steps thousandth hurriedThird).length < 4 := by
    decide +kernel
  exact ⟨(hsplit 1 [0, 3]).1, huncut, (hidle 4 huncut [1, 0, 3]).1⟩

end PatternSynth.Sound
