import Mathlib.Data.List.Forall2
import PatternSynth.Proofs.Step.Walk

/-!
# Playing two trees of the same shape

Two trees resemble each other over a relation `R` on patterns if they differ only in the patterns of
their leaves, which are related by `R` and have the same stored gain. Playing looks into a leaf only
for its gain and its spans, so two such trees are played alike: in the same environments they give
steps of the same duration and gains, with notes related by `R`, and leave the same cursors. Each
function of a visit is shown to keep the resemblance (`Visit.agree_start`, `Visit.agree_next`), then
a player (`Player.Resembles.next`) and a whole run (`Player.Resembles.cues`).
-/

namespace PatternSynth

variable {β : Type} {R : Pattern → Pattern → Prop}

/-! ## The relations -/

/-- The same nodes, over leaves that are related. -/
inductive Tree.Resembles (R : Pattern → Pattern → Prop) : Tree → Tree → Prop where
  | leaf {id : Nat} {p q : Pattern} (gain : p.tag.gain = q.tag.gain) (patterns : R p q) :
    Resembles R (.leaf id p) (.leaf id q)
  | group {id : Nat} {kind : Grouping} {ts us : List Tree} {tag : Tag}
      (children : List.Forall₂ (Resembles R) ts us) :
    Resembles R (.group id kind ts tag) (.group id kind us tag)
  | modified {id : Nat} {kind : Modifier} {amount : Pattern} {t u : Tree} {tag : Tag}
      (inner : Resembles R t u) :
    Resembles R (.modified id kind amount t tag) (.modified id kind amount u tag)

/-- The same leaf as loud as before, with a related pattern. -/
structure Note.Resembles (R : Pattern → Pattern → Prop) (n m : Note) : Prop where
  id : n.id = m.id
  gain : n.gain = m.gain
  pattern : R n.pattern m.pattern

/-- Related notes for as long. The spans may be others. -/
structure Step.Resembles (R : Pattern → Pattern → Prop) (step step' : Step β) : Prop where
  duration : step.duration = step'.duration
  notes : List.Forall₂ (Note.Resembles R) step.notes step'.notes

mutual

/-- The same place in two activations. -/
inductive Visit.Resembles (R : Pattern → Pattern → Prop) : Visit β → Visit β → Prop where
  | done : Visit.Resembles R .done .done
  | within {spans : List Span} {v w : Visit β} (inner : Visit.Resembles R v w) :
    Visit.Resembles R (.within spans v) (.within spans w)
  | sequence {spans : List Span} {gain : Float} {duration : β} {ts us : List Tree}
      {v w : Visit β} (rest : List.Forall₂ (Tree.Resembles R) ts us)
      (current : Visit.Resembles R v w) :
    Visit.Resembles R (.sequence spans gain duration ts v) (.sequence spans gain duration us w)
  | chord {spans : List Span} {elapsed : β} {ts us : List (Track β)}
      (tracks : List.Forall₂ (Track.Resembles R) ts us) :
    Visit.Resembles R (.chord spans elapsed ts) (.chord spans elapsed us)

/-- The same place on two tracks. -/
inductive Track.Resembles (R : Pattern → Pattern → Prop) : Track β → Track β → Prop where
  | finished : Track.Resembles R .finished .finished
  | sounding {held held' : Step β} {remaining : β} {v w : Visit β}
      (step : held.Resembles R held') (visit : Visit.Resembles R v w) :
    Track.Resembles R (.sounding held remaining v) (.sounding held' remaining w)

end

/-- No step on either side, or steps that resemble each other and leave the same place. -/
def Progress.Resembles (R : Pattern → Pattern → Prop) : Progress β → Progress β → Prop :=
  Option.Rel fun a b => a.1.Resembles R b.1 ∧ a.2.Resembles R b.2

/-- Progress that resembles the other, and the same cursors. -/
structure Progress.Agree (R : Pattern → Pattern → Prop) (a b : Progress β × Cursors) : Prop where
  progress : Progress.Resembles R a.1 b.1
  cursors : a.2 = b.2

theorem Step.Resembles.under {step step' : Step β} (h : step.Resembles R step')
    (spans : List Span) : (step.under spans).Resembles R (step'.under spans) :=
  ⟨h.duration, h.notes⟩

theorem Step.resembles_rest (duration : β) (spans spans' : List Span) :
    (Step.rest duration spans).Resembles R (Step.rest duration spans') :=
  ⟨rfl, .nil⟩

/-! ## Tracks -/

namespace Track

theorem resembles_ofProgress {p q : Progress β} (h : Progress.Resembles R p q) :
    (ofProgress p).Resembles R (ofProgress q) := by
  cases h with
  | none => exact .finished
  | some h =>
    obtain ⟨hstep, hvisit⟩ := h
    simp only [ofProgress, hstep.duration]
    exact .sounding hstep hvisit

theorem Resembles.held? {t u : Track β} (h : t.Resembles R u) :
    Option.Rel (Step.Resembles R) t.held? u.held? := by
  cases h with
  | finished => exact .none
  | sounding step _ => exact .some step

theorem Resembles.remaining? {t u : Track β} (h : t.Resembles R u) :
    t.remaining? = u.remaining? := by
  cases h <;> rfl

end Track

namespace Visit

/-! ## What a node makes of the progress of its children -/

theorem resembles_surround {p q : Progress β} (spans : List Span)
    (h : Progress.Resembles R p q) :
    Progress.Resembles R (surround spans p) (surround spans q) := by
  cases h with
  | none => exact .none
  | some h => exact .some ⟨h.1.under spans, .within h.2⟩

variable [Beats β] (timing : ChordTiming β) (env : Env)

theorem resembles_merge {ts us : List (Track β)} (spans : List Span)
    (h : List.Forall₂ (Track.Resembles R) ts us) :
    Progress.Resembles R (merge timing spans ts) (merge timing spans us) := by
  -- The same times remain, so both chords come to the same length of step or to none.
  have hremaining : ts.filterMap Track.remaining? = us.filterMap Track.remaining? := by
    induction h with
    | nil => rfl
    | cons ht _ ih => rw [List.filterMap_cons, List.filterMap_cons, ht.remaining?, ih]
  have hheld : List.Forall₂ (Step.Resembles R) (ts.filterMap Track.held?)
      (us.filterMap Track.held?) := List.rel_filterMap (fun _ _ ht => ht.held?) h
  rw [merge, merge, hremaining]
  cases Beats.least (us.filterMap Track.remaining?) with
  | none => exact .none
  | some shortest =>
    refine .some ⟨⟨rfl, ?_⟩, .chord h⟩
    exact List.rel_flatMap hheld fun _ _ hstep => hstep.notes

theorem agree_proceed {duration : β} {gain : Float} {spans : List Span} {ts us : List Tree}
    {a b : Progress β × Cursors} (hprogress : Progress.Agree R a b)
    (hrest : List.Forall₂ (Tree.Resembles R) ts us)
    (hfirst : ∀ cursors, Progress.Agree R (startFirst timing env spans duration gain cursors ts)
      (startFirst timing env spans duration gain cursors us)) :
    Progress.Agree R (proceed timing env duration gain spans ts a.1 a.2)
      (proceed timing env duration gain spans us b.1 b.2) := by
  obtain ⟨a, cursors⟩ := a
  obtain ⟨b, cursors'⟩ := b
  obtain ⟨h, hcursors⟩ := hprogress
  cases hcursors
  cases h with
  | none => exact hfirst cursors
  | some h => exact ⟨.some ⟨h.1.under spans, .sequence hrest h.2⟩, rfl⟩

/-! ## Entering a tree -/

-- The recursion is on the first tree. The relation follows it, through the lists of children too.
mutual

theorem agree_start (duration : β) (gain : Float) (cursors : Cursors) :
    ∀ {t u : Tree}, t.Resembles R u → Progress.Agree R (start timing env duration gain cursors t)
      (start timing env duration gain cursors u)
  | .leaf id p, _, .leaf hgain h => by
    refine ⟨.some ⟨⟨rfl, .cons ⟨rfl, ?_, h⟩ .nil⟩, .done⟩, rfl⟩
    rw [hgain]
  | .group _ _ [] _, _, .group .nil => ⟨.some ⟨Step.resembles_rest _ _ _, .done⟩, rfl⟩
  | .group id .sequence (t :: ts) tag, _, .group (.cons h hs) => by
    rw [start_sequence, start_sequence, (List.Forall₂.cons h hs).length_eq]
    exact agree_startFirst tag.spans _ (tag.innerGain gain) cursors (.cons h hs)
  | .group id .cycle (t :: ts) tag, _, .group (.cons h hs) => by
    have hbranch := agree_startNth duration (tag.innerGain gain)
      (cursors.turn id (t :: ts).length).2 (.cons h hs) (cursors.turn id (t :: ts).length).1
    rw [start_cycle, start_cycle, ← (List.Forall₂.cons h hs).length_eq]
    exact ⟨resembles_surround _ hbranch.progress, hbranch.cursors⟩
  | .group id .chord (t :: ts) tag, _, .group (.cons h hs) => by
    obtain ⟨htracks, hcursors⟩ := agree_startAll duration (tag.innerGain gain) cursors (.cons h hs)
    rw [start_chord, start_chord]
    exact ⟨resembles_merge timing _ htracks, hcursors⟩
  | .modified id kind amount inner tag, _, .modified h => by
    rw [start_modified, start_modified]
    obtain ⟨hprogress, hcursors⟩ := agree_start _ _ cursors h
    exact ⟨resembles_surround _ hprogress, hcursors⟩
termination_by structural t => t

theorem agree_startFirst (spans : List Span) (duration : β) (gain : Float) (cursors : Cursors) :
    ∀ {ts us : List Tree}, List.Forall₂ (Tree.Resembles R) ts us →
      Progress.Agree R (startFirst timing env spans duration gain cursors ts)
        (startFirst timing env spans duration gain cursors us)
  | [], _, .nil => ⟨.none, rfl⟩
  | t :: ts, _, .cons h hs => by
    rw [startFirst_cons, startFirst_cons]
    exact agree_proceed timing env (agree_start duration gain cursors h) hs
      fun cursors => agree_startFirst spans duration gain cursors hs
termination_by structural ts => ts

theorem agree_startNth (duration : β) (gain : Float) (cursors : Cursors) :
    ∀ {ts us : List Tree}, List.Forall₂ (Tree.Resembles R) ts us → ∀ index,
      Progress.Agree R (startNth timing env duration gain cursors ts index)
        (startNth timing env duration gain cursors us index)
  | [], _, .nil, _ => ⟨.none, rfl⟩
  | _ :: _, _, .cons h _, 0 => agree_start duration gain cursors h
  | _ :: _, _, .cons _ hs, index + 1 => agree_startNth duration gain cursors hs index
termination_by structural ts => ts

theorem agree_startAll (duration : β) (gain : Float) (cursors : Cursors) :
    ∀ {ts us : List Tree}, List.Forall₂ (Tree.Resembles R) ts us →
      List.Forall₂ (Track.Resembles R) (startAll timing env duration gain cursors ts).1
          (startAll timing env duration gain cursors us).1 ∧
        (startAll timing env duration gain cursors ts).2 =
          (startAll timing env duration gain cursors us).2
  | [], _, .nil => ⟨.nil, rfl⟩
  | t :: ts, _, .cons h hs => by
    obtain ⟨hprogress, hcursors⟩ := agree_start duration gain cursors h
    obtain ⟨htracks, hafter⟩ := agree_startAll duration gain
      (start timing env duration gain cursors t).2 hs
    simp only [startAll_cons, ← hcursors]
    exact ⟨.cons (Track.resembles_ofProgress hprogress) htracks, hafter⟩
termination_by structural ts => ts

end

/-! ## Going on with a visit -/

mutual

theorem agree_next (cursors : Cursors) : ∀ {v w : Visit β}, v.Resembles R w →
    Progress.Agree R (next timing env cursors v) (next timing env cursors w)
  | done, _, .done => ⟨.none, rfl⟩
  | within spans _, _, .within h => by
    obtain ⟨hprogress, hcursors⟩ := agree_next cursors h
    rw [next_within, next_within]
    exact ⟨resembles_surround spans hprogress, hcursors⟩
  | sequence spans gain duration _ _, _, .sequence hrest hcurrent => by
    rw [next_sequence, next_sequence]
    exact agree_proceed timing env (agree_next cursors hcurrent) hrest
      fun cursors => agree_startFirst timing env spans duration gain cursors hrest
  | chord spans elapsed _, _, .chord h => by
    obtain ⟨htracks, hcursors⟩ := agree_advanceAll elapsed cursors h
    rw [next_chord, next_chord]
    exact ⟨resembles_merge timing spans htracks, hcursors⟩
termination_by structural v => v

theorem agree_advance (elapsed : β) (cursors : Cursors) : ∀ {t u : Track β}, t.Resembles R u →
    (t.advance timing env elapsed cursors).1.Resembles R
        (u.advance timing env elapsed cursors).1 ∧
      (t.advance timing env elapsed cursors).2 = (u.advance timing env elapsed cursors).2
  | .finished, _, .finished => ⟨.finished, rfl⟩
  | .sounding _ remaining _, _, .sounding hstep hvisit => by
    by_cases hdue : Beats.le (remaining - elapsed) timing.epsilon = true
    · obtain ⟨hprogress, hcursors⟩ := agree_next cursors hvisit
      simp only [Track.advance, if_pos hdue]
      exact ⟨Track.resembles_ofProgress hprogress, hcursors⟩
    · simp only [Track.advance, if_neg hdue]
      exact ⟨.sounding hstep hvisit, trivial⟩
termination_by structural t => t

theorem agree_advanceAll (elapsed : β) (cursors : Cursors) : ∀ {ts us : List (Track β)},
    List.Forall₂ (Track.Resembles R) ts us →
      List.Forall₂ (Track.Resembles R) (advanceAll timing env elapsed cursors ts).1
          (advanceAll timing env elapsed cursors us).1 ∧
        (advanceAll timing env elapsed cursors ts).2 = (advanceAll timing env elapsed cursors us).2
  | [], _, .nil => ⟨.nil, rfl⟩
  | t :: ts, _, .cons h hs => by
    obtain ⟨htrack, hcursors⟩ := agree_advance elapsed cursors h
    obtain ⟨htracks, hafter⟩ := agree_advanceAll elapsed
      (t.advance timing env elapsed cursors).2 hs
    simp only [Track.advanceAll_cons, ← hcursors]
    exact ⟨.cons htrack htracks, hafter⟩
termination_by structural ts => ts

end

end Visit

/-! ## Players -/

namespace Player

/-- Trees that resemble each other, the same cursors and the same place. -/
structure Resembles (R : Pattern → Pattern → Prop) (p q : Player β) : Prop where
  tree : p.score.tree.Resembles R q.score.tree
  cursors : p.score.cursors = q.score.cursors
  visit : Option.Rel (Visit.Resembles R) p.visit q.visit

variable [Beats β] {p q : Player β} (timing : ChordTiming β) (env : Env)

theorem Resembles.reply (h : p.Resembles R q) :
    Progress.Agree R (p.reply timing env) (q.reply timing env) := by
  obtain ⟨⟨tree, cursors⟩, visit⟩ := p
  obtain ⟨⟨tree', cursors'⟩, visit'⟩ := q
  obtain ⟨htree, hcursors, hvisit⟩ := h
  cases hcursors
  cases hvisit with
  | none => exact Visit.agree_start timing env _ _ _ htree
  | some hvisit => exact Visit.agree_next timing env _ hvisit

theorem Resembles.attempt (h : p.Resembles R q) :
    Option.Rel (Step.Resembles R) (p.attempt timing env).1 (q.attempt timing env).1 ∧
      (p.attempt timing env).2.Resembles R (q.attempt timing env).2 := by
  obtain ⟨hprogress, hcursors⟩ := h.reply timing env
  rw [attempt_eq, attempt_eq]
  cases hp : (p.reply timing env).1 <;> cases hq : (q.reply timing env).1 <;>
    rw [hp, hq] at hprogress <;> cases hprogress
  · exact ⟨.none, h.tree, hcursors, .none⟩
  · next h' => exact ⟨.some h'.1, h.tree, hcursors, .some h'.2⟩

theorem Resembles.next (h : p.Resembles R q) :
    (p.next timing env).1.Resembles R (q.next timing env).1 ∧
      (p.next timing env).2.Resembles R (q.next timing env).2 := by
  obtain ⟨hstep, hplayer⟩ := h.attempt timing env
  rw [Player.next, Player.next]
  rcases hp : p.attempt timing env with ⟨step, p'⟩
  rcases hq : q.attempt timing env with ⟨step', q'⟩
  rw [hp, hq] at hstep hplayer
  cases hstep with
  | some hstep => exact ⟨hstep, hplayer⟩
  | none =>
    obtain ⟨hstep, hplayer⟩ := hplayer.attempt timing env
    simp only
    rcases hp : p'.attempt timing env with ⟨step, p'⟩
    rcases hq : q'.attempt timing env with ⟨step', q'⟩
    rw [hp, hq] at hstep hplayer
    cases hstep with
    | some hstep => exact ⟨hstep, hplayer⟩
    | none => exact ⟨Step.resembles_rest _ _ _, hplayer⟩

/-- Two players that resemble each other hand out steps that do, as long as they play. -/
theorem Resembles.cues (envs : Nat → Env) (count n : Nat) (h : p.Resembles R q) :
    List.Forall₂ (fun a b => a.step.Resembles R b.step) (p.cues timing envs count n)
      (q.cues timing envs count n) := by
  induction count generalizing n p q with
  | zero => exact .nil
  | succ count ih =>
    obtain ⟨hstep, hplayer⟩ := h.next timing (envs n)
    exact .cons hstep (ih (n + 1) hplayer)

end Player

end PatternSynth
