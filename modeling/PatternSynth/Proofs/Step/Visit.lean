import PatternSynth.Step.Player

/-!
# How visits unfold

The equations of `Visit.start` and `Visit.next` at each kind of node, in the form in which the
other files use them: what a node makes of its children's progress, with the cursors threaded from
left to right. At the end, what a player makes of the progress of its root.
-/

namespace PatternSynth

namespace Modifier

variable {β : Type}

/-- The duration inside a modifier. -/
def innerDuration [Beats β] (kind : Modifier) (amount : Float) (duration : β) : β :=
  match kind with
  | speed => duration / Beats.ofFloat (speedFactor amount)
  | volume => duration

/-- The gain inside a modifier. -/
def innerGain (kind : Modifier) (amount gain : Float) : Float :=
  match kind with
  | speed => gain
  | volume => gain * amount

end Modifier

/-- The gain inside a node. -/
def Tag.innerGain (tag : Tag) (gain : Float) : Float :=
  tag.gain.getD 1 * gain

namespace Visit

variable {β : Type} [Beats β] (timing : ChordTiming β) (env : Env) (duration : β) (gain : Float)
  (cursors : Cursors)

/-! ## Entering a node -/

theorem start_sequence (id : Nat) (t : Tree) (ts : List Tree) (tag : Tag) :
    start timing env duration gain cursors (.group id .sequence (t :: ts) tag) =
      startFirst timing env tag.spans (duration / Beats.ofNat (t :: ts).length)
        (tag.innerGain gain) cursors (t :: ts) := rfl

theorem start_cycle (id : Nat) (t : Tree) (ts : List Tree) (tag : Tag) :
    start timing env duration gain cursors (.group id .cycle (t :: ts) tag) =
      let turn := cursors.turn id (t :: ts).length
      let branch := startNth timing env duration (tag.innerGain gain) turn.2 (t :: ts) turn.1
      (surround tag.spans branch.1, branch.2) := rfl

theorem start_chord (id : Nat) (t : Tree) (ts : List Tree) (tag : Tag) :
    start timing env duration gain cursors (.group id .chord (t :: ts) tag) =
      (merge timing tag.spans
          (startAll timing env duration (tag.innerGain gain) cursors (t :: ts)).1,
        (startAll timing env duration (tag.innerGain gain) cursors (t :: ts)).2) := rfl

theorem start_modified (id : Nat) (kind : Modifier) (amount : Pattern) (inner : Tree) (tag : Tag) :
    start timing env duration gain cursors (.modified id kind amount inner tag) =
      let amount := (amount.resolve env).toNumber
      let inside := start timing env (kind.innerDuration amount duration)
        (kind.innerGain amount (tag.innerGain gain)) cursors inner
      (surround tag.spans inside.1, inside.2) := by
  cases kind <;> rfl

theorem startNth_eq (ts : List Tree) (index : Nat) :
    startNth timing env duration gain cursors ts index =
      match ts[index]? with
      | none => (none, cursors)
      | some t => start timing env duration gain cursors t := by
  induction ts generalizing index with
  | nil => rfl
  | cons t ts ih =>
    cases index with
    | zero => rfl
    | succ index => exact ih index

theorem startAll_cons (t : Tree) (ts : List Tree) :
    startAll timing env duration gain cursors (t :: ts) =
      let first := start timing env duration gain cursors t
      let others := startAll timing env duration gain first.2 ts
      (.ofProgress first.1 :: others.1, others.2) := rfl

/-- What a sequence makes of the progress of its present child: it passes the step on, or enters
the children that are left. -/
def proceed (spans : List Span) (rest : List Tree) (progress : Progress β) (cursors : Cursors) :
    Progress β × Cursors :=
  match progress with
  | some (step, v) => (some (step.under spans, sequence spans gain duration rest v), cursors)
  | none => startFirst timing env spans duration gain cursors rest

theorem startFirst_cons (spans : List Span) (t : Tree) (ts : List Tree) :
    startFirst timing env spans duration gain cursors (t :: ts) =
      proceed timing env duration gain spans ts (start timing env duration gain cursors t).1
        (start timing env duration gain cursors t).2 := by
  rw [startFirst]
  rcases start timing env duration gain cursors t with ⟨_ | ⟨step, v⟩, after⟩ <;> rfl

/-! ## Going on with a visit -/

theorem next_within (spans : List Span) (inner : Visit β) :
    next timing env cursors (within spans inner) =
      (surround spans (next timing env cursors inner).1, (next timing env cursors inner).2) := rfl

theorem next_sequence (spans : List Span) (rest : List Tree) (current : Visit β) :
    next timing env cursors (sequence spans gain duration rest current) =
      proceed timing env duration gain spans rest (next timing env cursors current).1
        (next timing env cursors current).2 := by
  rw [next]
  rcases next timing env cursors current with ⟨_ | ⟨step, v⟩, after⟩ <;> rfl

theorem next_chord (spans : List Span) (elapsed : β) (tracks : List (Track β)) :
    next timing env cursors (chord spans elapsed tracks) =
      (merge timing spans (advanceAll timing env elapsed cursors tracks).1,
        (advanceAll timing env elapsed cursors tracks).2) := rfl

end Visit

namespace Track

variable {β : Type} [Beats β] (timing : ChordTiming β) (env : Env) (elapsed : β)

/-- Whether the step that a track holds is over once time has passed. -/
def isDue : Track β → Bool
  | finished => false
  | sounding _ remaining _ => Beats.le (remaining - elapsed) timing.epsilon

/-- Let time pass on one track, and move it on if its step is over. -/
def advance (cursors : Cursors) : Track β → Track β × Cursors
  | finished => (finished, cursors)
  | sounding held remaining visit =>
    if Beats.le (remaining - elapsed) timing.epsilon then
      (ofProgress (visit.next timing env cursors).1, (visit.next timing env cursors).2)
    else (sounding held (remaining - elapsed) visit, cursors)

theorem advanceAll_cons (cursors : Cursors) (t : Track β) (ts : List (Track β)) :
    Visit.advanceAll timing env elapsed cursors (t :: ts) =
      let first := t.advance timing env elapsed cursors
      let others := Visit.advanceAll timing env elapsed first.2 ts
      (first.1 :: others.1, others.2) := by
  cases t with
  | finished => rfl
  | sounding held remaining visit =>
    simp only [Visit.advanceAll, advance]
    split <;> rfl

end Track

namespace Player

variable {β : Type} [Beats β] (timing : ChordTiming β)

/-! ## Playing -/

theorem next_of_start {p : Player β} {env : Env} {step : Step β} {v : Visit β} {after : Cursors}
    (hvisit : p.visit = none)
    (hstart : Visit.start timing env (Beats.ofNat 1) 1 p.score.cursors p.score.tree =
      (some (step, v), after)) :
    p.next timing env = (step, ⟨⟨p.score.tree, after⟩, some v⟩) := by
  simp only [next, attempt, hvisit, enter, hstart]

theorem next_of_next {p : Player β} {env : Env} {step : Step β} {v v' : Visit β} {after : Cursors}
    (hvisit : p.visit = some v)
    (hnext : v.next timing env p.score.cursors = (some (step, v'), after)) :
    p.next timing env = (step, ⟨⟨p.score.tree, after⟩, some v'⟩) := by
  simp only [next, attempt, hvisit, hnext]

theorem visit_of_attempt_none {p q : Player β} {env : Env}
    (h : p.attempt timing env = (none, q)) : q.visit = none := by
  rw [attempt] at h
  split at h
  · rw [enter] at h
    split at h <;> cases h
    rfl
  · split at h <;> cases h
    rfl

/-- When the first attempt gives no step, the second one enters the root. -/
theorem next_of_attempt_none {p q : Player β} {env : Env} {step : Step β} {v : Visit β}
    {after : Cursors} (h : p.attempt timing env = (none, q))
    (hstart : Visit.start timing env (Beats.ofNat 1) 1 q.score.cursors q.score.tree =
      (some (step, v), after)) :
    p.next timing env = (step, ⟨⟨q.score.tree, after⟩, some v⟩) := by
  have hq : q.attempt timing env = (some step, ⟨⟨q.score.tree, after⟩, some v⟩) := by
    simp only [attempt, visit_of_attempt_none timing h, enter, hstart]
  simp only [next, h, hq]

theorem next_of_over {p : Player β} {env : Env} {step : Step β} {v v' : Visit β}
    {between after : Cursors} (hvisit : p.visit = some v)
    (hnext : v.next timing env p.score.cursors = (none, between))
    (hstart : Visit.start timing env (Beats.ofNat 1) 1 between p.score.tree =
      (some (step, v'), after)) :
    p.next timing env = (step, ⟨⟨p.score.tree, after⟩, some v'⟩) := by
  have hattempt : p.attempt timing env = (none, ⟨⟨p.score.tree, between⟩, none⟩) := by
    simp only [attempt, hvisit, hnext]
  exact next_of_attempt_none timing (q := ⟨⟨p.score.tree, between⟩, none⟩) hattempt hstart

/-- What the present activation of the root makes of a pull, or a new one if there is none. -/
def reply (p : Player β) (env : Env) : Progress β × Cursors :=
  match p.visit with
  | none => Visit.start timing env (Beats.ofNat 1) 1 p.score.cursors p.score.tree
  | some visit => visit.next timing env p.score.cursors

theorem attempt_eq (p : Player β) (env : Env) :
    p.attempt timing env = ((p.reply timing env).1.map Prod.fst,
      ⟨⟨p.score.tree, (p.reply timing env).2⟩, (p.reply timing env).1.map Prod.snd⟩) := by
  rw [attempt, reply]
  cases p.visit with
  | none =>
    simp only [enter]
    split <;> next hstart => rw [hstart]; rfl
  | some visit =>
    simp only
    split <;> next hnext => rw [hnext]; rfl

/-- What holds of a player after each attempt, and of the steps that attempts give, holds after the
next step and of that step. -/
theorem next_of_attempt {P : Player β → Prop} {Q : Step β → Prop} {env : Env}
    (hattempt : ∀ p, P p → P (p.attempt timing env).2 ∧
      ∀ step, (p.attempt timing env).1 = some step → Q step)
    (hrest : Q (.rest (Beats.ofNat 1) [])) {p : Player β} (h : P p) :
    Q (p.next timing env).1 ∧ P (p.next timing env).2 := by
  have hfirst := hattempt p h
  rw [next]
  split
  · next step q hp =>
    rw [hp] at hfirst
    exact ⟨hfirst.2 step rfl, hfirst.1⟩
  · next q hp =>
    rw [hp] at hfirst
    have hsecond := hattempt q hfirst.1
    split
    · next step r hq =>
      rw [hq] at hsecond
      exact ⟨hsecond.2 step rfl, hsecond.1⟩
    · next r hq =>
      rw [hq] at hsecond
      exact ⟨hrest, hsecond.1⟩

theorem tree_of_attempt {p q : Player β} {env : Env} {step : Option (Step β)}
    (h : p.attempt timing env = (step, q)) : q.score.tree = p.score.tree := by
  rw [attempt] at h
  split at h
  · rw [enter] at h
    split at h <;> cases h <;> rfl
  · split at h <;> cases h <;> rfl

theorem tree_next (p : Player β) (env : Env) : (p.next timing env).2.score.tree = p.score.tree := by
  rw [next]
  split
  · rename_i h
    exact tree_of_attempt timing h
  · rename_i h
    split
    · rename_i h'
      exact (tree_of_attempt timing h').trans (tree_of_attempt timing h)
    · rename_i h'
      exact (tree_of_attempt timing h').trans (tree_of_attempt timing h)

end Player

end PatternSynth
