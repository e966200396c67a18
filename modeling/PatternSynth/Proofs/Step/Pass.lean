import PatternSynth.Proofs.Step.Visit

/-!
# Passes

An activation that is pulled until it is over hands out a list of steps (`Visit.Yields`). What a
modifier, the branch of a cycle and a sequence yield follows from what they are made up of. A player
whose root is never without a step plays one activation of the root after another, each for one beat
and at full gain, and its steps are those of these passes in their order (`Passes.steps_eq_take`).

The moment of all pulls is the same throughout this file.
-/

namespace PatternSynth

variable {β : Type} [Beats β]

namespace Visit

/-- The steps from some progress to the end of the activation, with the cursors at the end. -/
inductive Yields (timing : ChordTiming β) (env : Env) :
    Progress β × Cursors → List (Step β) → Cursors → Prop where
  | ended (cursors : Cursors) : Yields timing env (none, cursors) [] cursors
  | step {s : Step β} {v : Visit β} {cursors after : Cursors} {steps : List (Step β)}
      (hnext : Yields timing env (v.next timing env cursors) steps after) :
      Yields timing env (some (s, v), cursors) (s :: steps) after

variable {timing : ChordTiming β} {env : Env} {steps : List (Step β)} {after : Cursors}

theorem yields_once (s : Step β) (cursors : Cursors) :
    Yields timing env (some (s, done), cursors) [s] cursors :=
  .step (.ended cursors)

theorem Yields.surround {result : Progress β × Cursors} (h : Yields timing env result steps after)
    (spans : List Span) :
    Yields timing env (surround spans result.1, result.2) (steps.map (.under spans)) after := by
  induction h with
  | ended cursors => exact .ended cursors
  | step _ ih => exact .step ih

/-- A sequence yields what its present child yields, and then what the others do. -/
theorem Yields.proceed {result : Progress β × Cursors} {between : Cursors} {duration : β}
    {gain : Float} {spans : List Span} {rest : List Tree} {first : List (Step β)}
    (h : Yields timing env result first between)
    (hrest : Yields timing env (startFirst timing env spans duration gain between rest) steps
      after) :
    Yields timing env (proceed timing env duration gain spans rest result.1 result.2)
      (first.map (.under spans) ++ steps) after := by
  induction h with
  | ended cursors => exact hrest
  | step _ ih =>
    refine .step ?_
    rw [next_sequence]
    exact ih hrest

end Visit

/-- The first steps of a player. -/
def Player.steps (timing : ChordTiming β) (env : Env) : Nat → Player β → List (Step β)
  | 0, _ => []
  | n + 1, p => (p.next timing env).1 :: steps timing env n (p.next timing env).2

/-- The passes of a score: the cursors with which each of them begins, and its steps. -/
structure Passes (timing : ChordTiming β) (env : Env) (score : Score) (cursors : Nat → Cursors)
    (pass : Nat → List (Step β)) : Prop where
  cursors_zero : cursors 0 = score.cursors
  yields : ∀ k, Visit.Yields timing env
    (Visit.start timing env (Beats.ofNat 1) 1 (cursors k) score.tree) (pass k) (cursors (k + 1))
  ne_nil : ∀ k, pass k ≠ []

namespace Passes

open Player Visit

variable {timing : ChordTiming β} {env : Env} {score : Score} {cursors : Nat → Cursors}
  {pass : Nat → List (Step β)}

/-- Every pass begins with a step. -/
theorem exists_start (h : Passes timing env score cursors pass) (k : Nat) :
    ∃ s v steps between, pass k = s :: steps ∧
      start timing env (Beats.ofNat 1) 1 (cursors k) score.tree = (some (s, v), between) ∧
      Yields timing env (v.next timing env between) steps (cursors (k + 1)) := by
  have hyields := h.yields k
  generalize hstart : start timing env (Beats.ofNat 1) 1 (cursors k) score.tree = result at hyields
  generalize hpass : pass k = steps at hyields
  cases hyields with
  | ended => exact (h.ne_nil k hpass).elim
  | step hnext => exact ⟨_, _, _, _, rfl, rfl, hnext⟩

/-- In the middle of a pass, the steps ahead are those left of it and those of the later passes. -/
theorem steps_of_yields (h : Passes timing env score cursors pass) {k : Nat} {v : Visit β}
    {between : Cursors} {left : List (Step β)}
    (hleft : Yields timing env (v.next timing env between) left (cursors (k + 1)))
    (n count : Nat) (hn : n ≤ count) :
    steps timing env n ⟨⟨score.tree, between⟩, some v⟩ =
      (left ++ (List.range' (k + 1) count).flatMap pass).take n := by
  induction n generalizing k v between left count with
  | zero => rfl
  | succ n ih =>
    generalize hnext : v.next timing env between = result at hleft
    rw [steps]
    cases hleft with
    | ended =>
      -- The pass is over, and the same pull begins the next one.
      obtain ⟨s, v', more, between', hpass, hstart, hmore⟩ := h.exists_start (k + 1)
      rw [next_of_over timing rfl hnext hstart]
      obtain ⟨count, rfl⟩ : ∃ c, count = c + 1 := ⟨count - 1, by omega⟩
      rw [ih hmore count (by omega), List.range'_succ, List.flatMap_cons, hpass]
      rfl
    | step hmore =>
      rw [next_of_next timing rfl hnext, ih hmore count (by omega)]
      rfl

/-- A player hands out the steps of the passes one after another. -/
theorem steps_eq_take (h : Passes timing env score cursors pass) (n count : Nat)
    (hn : n ≤ count) :
    steps timing env n ⟨score, none⟩ = ((List.range count).flatMap pass).take n := by
  cases n with
  | zero => rfl
  | succ n =>
    obtain ⟨s, v, more, between, hpass, hstart, hmore⟩ := h.exists_start 0
    rw [h.cursors_zero] at hstart
    obtain ⟨count, rfl⟩ : ∃ c, count = c + 1 := ⟨count - 1, by omega⟩
    rw [steps, next_of_start timing rfl hstart,
      h.steps_of_yields hmore n count (by omega), List.range_eq_range', List.range'_succ,
      List.flatMap_cons, hpass]
    rfl

end Passes

end PatternSynth
