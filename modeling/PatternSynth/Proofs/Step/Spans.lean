import PatternSynth.Proofs.Program.Provenance
import PatternSynth.Proofs.Step.Visit
import PatternSynth.Sound.Basic

/-!
# Where the spans of a step come from

Playing shows only spans of the pattern that is played. A tree, a visit, a track or a sound is
`Spanned` by a set of spans if all the spans it can still show are in it. Numbering a pattern gives
such a tree (`Tree.spanned_number`), entering a tree and going on with a visit keep it
(`Visit.spanned_start`, `Visit.spanned_next`), and so does a sound that is brought to another beat
(`Sound.Spanned.advance`).
-/

namespace PatternSynth

/-! ## Patterns -/

namespace Pattern

variable {A : Atom → Prop} {S : Span → Prop}

mutual

theorem over_activeSpans (env : Env) :
    ∀ p : Pattern, p.Over A S → ∀ s ∈ p.activeSpans env, S s
  | .atom _ _, h => h.2
  | .operator _ args _, ⟨hargs, htag⟩ => by
    rw [activeSpans, List.forall_mem_append]
    exact ⟨htag, over_activeSpansAll env args hargs⟩
  | .group .cycle children _ _, ⟨hchildren, htag⟩ => by
    rw [activeSpans, List.forall_mem_append]
    exact ⟨htag, over_activeSpansNth env children _ hchildren⟩
  | .group .sequence _ _ _, h => h.2
  | .group .chord _ _ _, h => h.2
  | .modified _ _ _ _, h => h.2.2

theorem over_activeSpansAll (env : Env) :
    ∀ ps : List Pattern, OverAll A S ps → ∀ s ∈ activeSpansAll env ps, S s
  | [], _ => List.forall_mem_nil _
  | p :: ps, ⟨hp, hps⟩ => by
    rw [activeSpansAll, List.forall_mem_append]
    exact ⟨over_activeSpans env p hp, over_activeSpansAll env ps hps⟩

theorem over_activeSpansNth (env : Env) :
    ∀ (ps : List Pattern) (index : Nat), OverAll A S ps → ∀ s ∈ activeSpansNth env ps index, S s
  | [], _, _ => List.forall_mem_nil _
  | p :: _, 0, h => over_activeSpans env p h.1
  | _ :: ps, index + 1, h => over_activeSpansNth env ps index h.2

end

end Pattern

/-! ## Trees -/

namespace Tree

variable {A : Atom → Prop} {S : Span → Prop}

mutual

/-- The spans of the tree's nodes, and all spans of its leaves, are in the set. -/
def Spanned (S : Span → Prop) : Tree → Prop
  | leaf _ p => p.Over (fun _ => True) S
  | group _ _ children tag => SpannedAll S children ∧ ∀ s ∈ tag.spans, S s
  | modified _ _ _ inner tag => inner.Spanned S ∧ ∀ s ∈ tag.spans, S s

/-- All of the trees are spanned by the set. -/
def SpannedAll (S : Span → Prop) : List Tree → Prop
  | [] => True
  | t :: ts => t.Spanned S ∧ SpannedAll S ts

end

theorem spannedAll_iff {ts : List Tree} : SpannedAll S ts ↔ ∀ t ∈ ts, t.Spanned S := by
  induction ts with
  | nil => simp [SpannedAll]
  | cons t ts ih => simp [SpannedAll, ih]

mutual

theorem spanned_number (cursors : Cursors) :
    ∀ p : Pattern, p.Over (fun _ => True) S → (number cursors p).1.Spanned S
  | .atom _ _, h => h
  | .operator _ _ _, h => h
  | .group _ children _ _, ⟨hchildren, htag⟩ =>
    ⟨spanned_numberAll cursors [] children trivial hchildren, htag⟩
  | .modified _ _ inner _, ⟨_, hinner, htag⟩ => ⟨spanned_number cursors inner hinner, htag⟩

theorem spanned_numberAll (cursors : Cursors) (done : List Tree) :
    ∀ ps : List Pattern, SpannedAll S done → Pattern.OverAll (fun _ => True) S ps →
      SpannedAll S (numberAll cursors done ps).1
  | [], hdone, _ => by
    rw [numberAll, spannedAll_iff]
    intro t ht
    exact spannedAll_iff.1 hdone t (List.mem_reverse.1 ht)
  | p :: ps, hdone, ⟨hp, hps⟩ =>
    spanned_numberAll (number cursors p).2 ((number cursors p).1 :: done) ps
      ⟨spanned_number cursors p hp, hdone⟩ hps

end

end Tree

/-! ## Visits -/

variable {β : Type} {S : Span → Prop}

/-- The spans of the step are in the set. -/
def Step.Spanned (S : Span → Prop) (step : Step β) : Prop :=
  ∀ s ∈ step.spans, S s

theorem Step.Spanned.under {step : Step β} {spans : List Span} (h : step.Spanned S)
    (hspans : ∀ s ∈ spans, S s) : (step.under spans).Spanned S :=
  List.forall_mem_append.2 ⟨h, hspans⟩

mutual

/-- All spans that the visit can still show are in the set. -/
def Visit.Spanned (S : Span → Prop) : Visit β → Prop
  | .done => True
  | .within spans inner => inner.Spanned S ∧ ∀ s ∈ spans, S s
  | .sequence spans _ _ rest current =>
    current.Spanned S ∧ Tree.SpannedAll S rest ∧ ∀ s ∈ spans, S s
  | .chord spans _ tracks => Track.SpannedAll S tracks ∧ ∀ s ∈ spans, S s

/-- The step that the track holds, and what is left of its visit, are spanned by the set. -/
def Track.Spanned (S : Span → Prop) : Track β → Prop
  | .finished => True
  | .sounding held _ visit => held.Spanned S ∧ visit.Spanned S

/-- All of the tracks are spanned by the set. -/
def Track.SpannedAll (S : Span → Prop) : List (Track β) → Prop
  | [] => True
  | t :: ts => t.Spanned S ∧ Track.SpannedAll S ts

end

/-- The step, and what is left after it, are spanned by the set. -/
def Progress.Spanned (S : Span → Prop) : Progress β → Prop
  | none => True
  | some (step, v) => step.Spanned S ∧ v.Spanned S

theorem Track.spanned_ofProgress {p : Progress β} (h : Progress.Spanned S p) :
    (Track.ofProgress p).Spanned S := by
  rcases p with _ | ⟨step, v⟩
  · trivial
  · exact h

theorem Track.SpannedAll.held {tracks : List (Track β)} (h : Track.SpannedAll S tracks) :
    ∀ step ∈ tracks.filterMap Track.held?, step.Spanned S := by
  induction tracks with
  | nil => exact List.forall_mem_nil _
  | cons t ts ih =>
    obtain ⟨ht, hts⟩ := h
    cases t with
    | finished => exact ih hts
    | sounding held remaining visit => exact List.forall_mem_cons.2 ⟨ht.1, ih hts⟩

namespace Visit

theorem spanned_surround {spans : List Span} {p : Progress β} (h : Progress.Spanned S p)
    (hspans : ∀ s ∈ spans, S s) : Progress.Spanned S (surround spans p) := by
  rcases p with _ | ⟨step, v⟩
  · trivial
  · exact ⟨h.1.under hspans, h.2, hspans⟩

variable [Beats β] (timing : ChordTiming β) (env : Env)

theorem spanned_merge {spans : List Span} {tracks : List (Track β)}
    (htracks : Track.SpannedAll S tracks) (hspans : ∀ s ∈ spans, S s) :
    Progress.Spanned S (merge timing spans tracks) := by
  rw [merge]
  split
  · trivial
  · refine ⟨List.forall_mem_append.2 ⟨hspans, ?_⟩, htracks, hspans⟩
    intro s hs
    obtain ⟨step, hstep, hs⟩ := List.mem_flatMap.1 hs
    exact htracks.held step hstep s hs

theorem spanned_proceed {duration : β} {gain : Float} {spans : List Span} {rest : List Tree}
    {progress : Progress β} {cursors : Cursors} (hprogress : Progress.Spanned S progress)
    (hrest : Tree.SpannedAll S rest) (hspans : ∀ s ∈ spans, S s)
    (hfirst : Progress.Spanned S (startFirst timing env spans duration gain cursors rest).1) :
    Progress.Spanned S (proceed timing env duration gain spans rest progress cursors).1 := by
  rcases progress with _ | ⟨step, v⟩
  · exact hfirst
  · exact ⟨hprogress.1.under hspans, hprogress.2, hrest, hspans⟩

mutual

theorem spanned_start (duration : β) (gain : Float) (cursors : Cursors) :
    ∀ t : Tree, t.Spanned S → Progress.Spanned S (start timing env duration gain cursors t).1
  | .leaf _ pattern, h => ⟨pattern.over_activeSpans env h, trivial⟩
  | .group _ _ [] _, h => ⟨h.2, trivial⟩
  | .group _ .sequence (t :: ts) tag, h =>
    spanned_startFirst tag.spans _ (tag.innerGain gain) cursors h.2 (t :: ts) h.1
  | .group id .cycle (t :: ts) tag, h => by
    rw [start_cycle]
    exact spanned_surround (spanned_startNth duration (tag.innerGain gain) _ (t :: ts) _ h.1) h.2
  | .group _ .chord (t :: ts) tag, h => by
    rw [start_chord]
    exact spanned_merge timing
      (spanned_startAll duration (tag.innerGain gain) cursors (t :: ts) h.1) h.2
  | .modified _ kind amount inner tag, h => by
    rw [start_modified]
    exact spanned_surround (spanned_start _ _ cursors inner h.1) h.2

theorem spanned_startFirst (spans : List Span) (duration : β) (gain : Float) (cursors : Cursors)
    (hspans : ∀ s ∈ spans, S s) : ∀ ts : List Tree, Tree.SpannedAll S ts →
      Progress.Spanned S (startFirst timing env spans duration gain cursors ts).1
  | [], _ => trivial
  | t :: ts, h => by
    rw [startFirst_cons]
    exact spanned_proceed timing env (spanned_start duration gain cursors t h.1) h.2 hspans
      (spanned_startFirst spans duration gain _ hspans ts h.2)

theorem spanned_startNth (duration : β) (gain : Float) (cursors : Cursors) :
    ∀ (ts : List Tree) (index : Nat), Tree.SpannedAll S ts →
      Progress.Spanned S (startNth timing env duration gain cursors ts index).1
  | [], _, _ => trivial
  | t :: _, 0, h => spanned_start duration gain cursors t h.1
  | _ :: ts, index + 1, h => spanned_startNth duration gain cursors ts index h.2

theorem spanned_startAll (duration : β) (gain : Float) (cursors : Cursors) :
    ∀ ts : List Tree, Tree.SpannedAll S ts →
      Track.SpannedAll S (startAll timing env duration gain cursors ts).1
  | [], _ => trivial
  | t :: ts, h => by
    rw [startAll_cons]
    exact ⟨Track.spanned_ofProgress (spanned_start duration gain cursors t h.1),
      spanned_startAll duration gain _ ts h.2⟩

end

mutual

theorem spanned_next (cursors : Cursors) :
    ∀ v : Visit β, v.Spanned S → Progress.Spanned S (next timing env cursors v).1
  | done, _ => trivial
  | within spans inner, h => by
    rw [next_within]
    exact spanned_surround (spanned_next cursors inner h.1) h.2
  | sequence spans gain duration rest current, ⟨hcurrent, hrest, hspans⟩ => by
    rw [next_sequence]
    exact spanned_proceed timing env (spanned_next cursors current hcurrent) hrest hspans
      (spanned_startFirst timing env spans duration gain _ hspans rest hrest)
  | chord spans elapsed tracks, h => by
    rw [next_chord]
    exact spanned_merge timing (spanned_advanceAll elapsed cursors tracks h.1) h.2

theorem spanned_advance (elapsed : β) (cursors : Cursors) :
    ∀ t : Track β, t.Spanned S → (t.advance timing env elapsed cursors).1.Spanned S
  | .finished, _ => trivial
  | .sounding held remaining visit, h => by
    by_cases hdue : Beats.le (remaining - elapsed) timing.epsilon = true
    · simp only [Track.advance, if_pos hdue]
      exact Track.spanned_ofProgress (spanned_next cursors visit h.2)
    · simp only [Track.advance, if_neg hdue]
      exact h

theorem spanned_advanceAll (elapsed : β) (cursors : Cursors) :
    ∀ ts : List (Track β), Track.SpannedAll S ts →
      Track.SpannedAll S (advanceAll timing env elapsed cursors ts).1
  | [], _ => trivial
  | t :: ts, h => by
    rw [Track.advanceAll_cons]
    exact ⟨spanned_advance elapsed cursors t h.1, spanned_advanceAll elapsed _ ts h.2⟩

end

end Visit

/-! ## Players -/

namespace Player

/-- All spans that the player can still show are in the set. -/
structure Spanned (S : Span → Prop) (p : Player β) : Prop where
  tree : p.score.tree.Spanned S
  visit : ∀ v, p.visit = some v → v.Spanned S

theorem spanned_ofPattern {p : Pattern} (h : p.Over (fun _ => True) S) :
    (ofPattern p : Player β).Spanned S :=
  ⟨Tree.spanned_number #[] p h, fun _ hv => nomatch hv⟩

variable [Beats β] {timing : ChordTiming β} {env : Env}

/-- What a player makes of the progress of its root. -/
theorem Spanned.attempt {p q : Player β} {step : Option (Step β)} (h : p.Spanned S)
    (hattempt : p.attempt timing env = (step, q)) :
    q.Spanned S ∧ ∀ s, step = some s → s.Spanned S := by
  have hstart := Visit.spanned_start timing env (Beats.ofNat 1) 1 p.score.cursors _ h.tree
  rw [Player.attempt] at hattempt
  split at hattempt
  · rw [enter] at hattempt
    split at hattempt
    · next hprogress =>
      rw [hprogress] at hstart
      cases hattempt
      exact ⟨⟨h.tree, fun _ hv => Option.some.inj hv ▸ hstart.2⟩,
        fun _ hs => Option.some.inj hs ▸ hstart.1⟩
    · cases hattempt
      exact ⟨⟨h.tree, fun _ hv => by cases hv⟩, fun _ hs => by cases hs⟩
  · next visit hvisit =>
    have hnext := Visit.spanned_next timing env p.score.cursors visit (h.visit visit hvisit)
    split at hattempt
    · next hprogress =>
      rw [hprogress] at hnext
      cases hattempt
      exact ⟨⟨h.tree, fun _ hv => Option.some.inj hv ▸ hnext.2⟩,
        fun _ hs => Option.some.inj hs ▸ hnext.1⟩
    · cases hattempt
      exact ⟨⟨h.tree, fun _ hv => by cases hv⟩, fun _ hs => by cases hs⟩

theorem Spanned.next {p : Player β} (h : p.Spanned S) (timing : ChordTiming β) (env : Env) :
    (p.next timing env).1.Spanned S ∧ (p.next timing env).2.Spanned S := by
  rw [Player.next]
  split
  · next hfirst =>
    obtain ⟨hq, hstep⟩ := h.attempt hfirst
    exact ⟨hstep _ rfl, hq⟩
  · next hfirst =>
    obtain ⟨hq, -⟩ := h.attempt hfirst
    split
    · next hsecond =>
      obtain ⟨hq', hstep⟩ := hq.attempt hsecond
      exact ⟨hstep _ rfl, hq'⟩
    · next hsecond => exact ⟨List.forall_mem_nil _, (hq.attempt hsecond).1⟩

end Player

/-! ## Sounds -/

namespace Sound

/-- All spans that the sound shows or can still show are in the set. -/
structure Spanned (S : Span → Prop) (s : Sound β) : Prop where
  player : s.player.Spanned S
  current : ∀ span ∈ s.activeSpans, S span

theorem spanned_ofCommand {c : Command} (h : c.pattern.Over (fun _ => True) S) :
    (ofCommand c : Sound β).Spanned S :=
  ⟨Player.spanned_ofPattern h, List.forall_mem_nil _⟩

theorem Spanned.setVoices {s : Sound β} (h : s.Spanned S) (voices : List Voice) :
    { s with voices }.Spanned S :=
  ⟨h.player, h.current⟩

variable [Beats β]

theorem Spanned.pull {s : Sound β} (h : s.Spanned S) (timing : ChordTiming β) (env : Env)
    (stop : β) : (s.pull timing env stop).Spanned S :=
  ⟨(h.player.next timing env).2, (h.player.next timing env).1⟩

theorem Spanned.anchor {s : Sound β} (h : s.Spanned S) (beat : β) : (s.anchor beat).Spanned S := by
  rw [Sound.anchor]
  split
  · exact h
  · exact ⟨h.player, h.current⟩

theorem Spanned.catchUp {s : Sound β} (h : s.Spanned S) (timing : ChordTiming β) (env : Env)
    (beat : β) (steps : Nat) : (s.catchUp timing env beat steps).Spanned S := by
  induction steps generalizing s with
  | zero => exact h
  | succ steps ih =>
    rw [Sound.catchUp]
    split
    · exact h
    · next stop _ =>
      split
      · exact ih (h.pull timing env stop)
      · exact h

theorem Spanned.advance {s : Sound β} (h : s.Spanned S) (timing : ChordTiming β) (env : Env)
    (beat : β) (cap : Nat) : (s.advance timing env beat cap).Spanned S :=
  (h.anchor beat).catchUp timing env beat cap

omit [Beats β] in
theorem Spanned.render {s : Sound β} (h : s.Spanned S) (rig : Rig) (env : Env) (g : Noise) :
    (s.render rig env g).2.1.Spanned S := by
  rw [Sound.render]
  split
  · exact h
  · exact h.setVoices _

end Sound

end PatternSynth
