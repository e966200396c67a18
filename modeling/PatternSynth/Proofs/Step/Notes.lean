import PatternSynth.Proofs.Step.Footprint

/-!
# Where the notes of a step come from

A step plays leaves of the tree, each at most once and in the order of the tree, because the tracks
of a chord play trees that stand side by side. A step, a visit or a track `DrawsFrom` a list of
nodes if all notes that it holds or can still give are leaves of that list, in its order. Entering a
tree gives such a visit over the nodes of the tree (`Visit.drawsFrom_start`), going on with a visit
keeps it (`Visit.drawsFrom_next`), and so does a player (`Player.Faithful.next`).
-/

namespace PatternSynth

/-- The leaf that a note plays. -/
def Note.leaf (n : Note) : Tree :=
  .leaf n.id n.pattern

variable {β : Type} {nodes nodes' : List Tree}

/-- The notes of the step are leaves among these nodes, in their order. -/
def Step.DrawsFrom (nodes : List Tree) (step : Step β) : Prop :=
  (step.notes.map Note.leaf).Sublist nodes

/-- The leaves of a step, in the order of its notes. -/
theorem Step.map_id_leaf (step : Step β) :
    (step.notes.map Note.leaf).map Tree.id = step.notes.map Note.id := by
  rw [List.map_map]
  rfl

mutual

/-- All notes that the visit can still give are leaves among these nodes, in their order. -/
def Visit.DrawsFrom (nodes : List Tree) : Visit β → Prop
  | .done => True
  | .within _ inner => inner.DrawsFrom nodes
  | .sequence _ _ _ rest current =>
    current.DrawsFrom nodes ∧ (Tree.nodesAll rest).Sublist nodes
  | .chord _ _ tracks => Track.AllDrawFrom nodes tracks

/-- The step that the track holds, and what is left of its visit, draw from these nodes. -/
def Track.DrawsFrom (nodes : List Tree) : Track β → Prop
  | .finished => True
  | .sounding held _ visit => held.DrawsFrom nodes ∧ visit.DrawsFrom nodes

/-- The tracks draw from parts of the list that stand side by side, one for each track. -/
def Track.AllDrawFrom (nodes : List Tree) : List (Track β) → Prop
  | [] => True
  | t :: ts => ∃ own others, (own ++ others).Sublist nodes ∧ t.DrawsFrom own ∧
      Track.AllDrawFrom others ts

end

/-- The step, and what is left after it, draw from these nodes. -/
def Progress.DrawsFrom (nodes : List Tree) : Progress β → Prop
  | none => True
  | some (step, v) => step.DrawsFrom nodes ∧ v.DrawsFrom nodes

/-! ## Larger lists of nodes -/

theorem Step.DrawsFrom.mono {step : Step β} (h : step.DrawsFrom nodes)
    (hsub : nodes.Sublist nodes') : step.DrawsFrom nodes' :=
  List.Sublist.trans h hsub

theorem Track.AllDrawFrom.mono {tracks : List (Track β)} (h : Track.AllDrawFrom nodes tracks)
    (hsub : nodes.Sublist nodes') : Track.AllDrawFrom nodes' tracks := by
  cases tracks with
  | nil => trivial
  | cons t ts =>
    obtain ⟨own, others, hparts, ht, hts⟩ := h
    exact ⟨own, others, hparts.trans hsub, ht, hts⟩

theorem Visit.DrawsFrom.mono (hsub : nodes.Sublist nodes') :
    ∀ {v : Visit β}, v.DrawsFrom nodes → v.DrawsFrom nodes'
  | .done, _ => trivial
  | .within _ inner, h => Visit.DrawsFrom.mono hsub (v := inner) h
  | .sequence _ _ _ _ _, ⟨hcurrent, hrest⟩ =>
    ⟨hcurrent.mono hsub, hrest.trans hsub⟩
  | .chord _ _ _, h => Track.AllDrawFrom.mono h hsub

theorem Progress.DrawsFrom.mono {p : Progress β} (h : Progress.DrawsFrom nodes p)
    (hsub : nodes.Sublist nodes') : Progress.DrawsFrom nodes' p := by
  rcases p with _ | ⟨step, v⟩
  · trivial
  · exact ⟨h.1.mono hsub, h.2.mono hsub⟩

/-! ## Tracks -/

theorem Track.drawsFrom_ofProgress {p : Progress β} (h : Progress.DrawsFrom nodes p) :
    (Track.ofProgress p).DrawsFrom nodes := by
  rcases p with _ | ⟨step, v⟩
  · trivial
  · exact h

/-- The steps that the tracks hold, put together, draw from the same nodes. -/
theorem Track.AllDrawFrom.held {tracks : List (Track β)} (h : Track.AllDrawFrom nodes tracks) :
    (((tracks.filterMap Track.held?).flatMap Step.notes).map Note.leaf).Sublist nodes := by
  induction tracks generalizing nodes with
  | nil => exact List.nil_sublist _
  | cons t ts ih =>
    obtain ⟨own, others, hparts, ht, hts⟩ := h
    cases t with
    | finished => exact (ih hts).trans ((List.sublist_append_right _ _).trans hparts)
    | sounding held remaining visit =>
      have hheld : (held.notes.map Note.leaf).Sublist own := ht.1
      simp only [List.filterMap_cons, Track.held?, List.flatMap_cons, List.map_append]
      exact (hheld.append (ih hts)).trans hparts

namespace Visit

theorem drawsFrom_surround {p : Progress β} (spans : List Span) (h : Progress.DrawsFrom nodes p) :
    Progress.DrawsFrom nodes (surround spans p) := by
  rcases p with _ | ⟨step, v⟩
  · trivial
  · exact h

variable [Beats β] (timing : ChordTiming β) (env : Env)

theorem drawsFrom_merge {tracks : List (Track β)} (spans : List Span)
    (h : Track.AllDrawFrom nodes tracks) :
    Progress.DrawsFrom nodes (merge timing spans tracks) := by
  rw [merge]
  split
  · trivial
  · exact ⟨h.held, h⟩

theorem drawsFrom_proceed {duration : β} {gain : Float} {spans : List Span} {rest : List Tree}
    {progress : Progress β} {cursors : Cursors} (hprogress : Progress.DrawsFrom nodes progress)
    (hrest : (Tree.nodesAll rest).Sublist nodes)
    (hfirst : Progress.DrawsFrom nodes
      (startFirst timing env spans duration gain cursors rest).1) :
    Progress.DrawsFrom nodes (proceed timing env duration gain spans rest progress cursors).1 := by
  rcases progress with _ | ⟨step, v⟩
  · exact hfirst
  · exact ⟨hprogress.1, hprogress.2, hrest⟩

/-! ## Entering a tree -/

mutual

theorem drawsFrom_start (duration : β) (gain : Float) (cursors : Cursors) :
    ∀ t : Tree, Progress.DrawsFrom t.nodes (start timing env duration gain cursors t).1
  | .leaf .. => ⟨List.Sublist.refl _, trivial⟩
  | .group _ _ [] _ => ⟨List.nil_sublist _, trivial⟩
  | .group _ .sequence (t :: ts) tag =>
    (drawsFrom_startFirst tag.spans _ (tag.innerGain gain) cursors (t :: ts)).mono
      (List.sublist_append_left _ _)
  | .group id .cycle (t :: ts) tag => by
    rw [start_cycle]
    exact drawsFrom_surround _ ((drawsFrom_startNth duration (tag.innerGain gain) _ (t :: ts)
      _).mono (List.sublist_append_left _ _))
  | .group _ .chord (t :: ts) tag => by
    rw [start_chord]
    exact drawsFrom_merge timing _ ((allDrawFrom_startAll duration (tag.innerGain gain) cursors
      (t :: ts)).mono (List.sublist_append_left _ _))
  | .modified _ kind amount inner tag => by
    rw [start_modified]
    exact drawsFrom_surround _ ((drawsFrom_start _ _ cursors inner).mono
      (List.sublist_append_left _ _))

theorem drawsFrom_startFirst (spans : List Span) (duration : β) (gain : Float)
    (cursors : Cursors) : ∀ ts : List Tree,
      Progress.DrawsFrom (Tree.nodesAll ts) (startFirst timing env spans duration gain cursors ts).1
  | [] => trivial
  | t :: ts => by
    rw [startFirst_cons]
    exact drawsFrom_proceed timing env
      ((drawsFrom_start duration gain cursors t).mono (List.sublist_append_left _ _))
      (List.sublist_append_right _ _)
      ((drawsFrom_startFirst spans duration gain _ ts).mono (List.sublist_append_right _ _))

theorem drawsFrom_startNth (duration : β) (gain : Float) (cursors : Cursors) :
    ∀ (ts : List Tree) (index : Nat),
      Progress.DrawsFrom (Tree.nodesAll ts) (startNth timing env duration gain cursors ts index).1
  | [], _ => trivial
  | t :: _, 0 => (drawsFrom_start duration gain cursors t).mono (List.sublist_append_left _ _)
  | _ :: ts, index + 1 =>
    (drawsFrom_startNth duration gain cursors ts index).mono (List.sublist_append_right _ _)

theorem allDrawFrom_startAll (duration : β) (gain : Float) (cursors : Cursors) :
    ∀ ts : List Tree,
      Track.AllDrawFrom (Tree.nodesAll ts) (startAll timing env duration gain cursors ts).1
  | [] => trivial
  | t :: ts => by
    rw [startAll_cons]
    exact ⟨t.nodes, Tree.nodesAll ts, List.Sublist.refl _,
      Track.drawsFrom_ofProgress (drawsFrom_start duration gain cursors t),
      allDrawFrom_startAll duration gain _ ts⟩

end

/-! ## Going on with a visit -/

mutual

theorem drawsFrom_next (cursors : Cursors) : ∀ {nodes : List Tree} (v : Visit β),
    v.DrawsFrom nodes → Progress.DrawsFrom nodes (next timing env cursors v).1
  | _, done, _ => trivial
  | _, within spans inner, h => by
    rw [next_within]
    exact drawsFrom_surround spans (drawsFrom_next cursors inner h)
  | nodes, sequence spans gain duration rest current, ⟨hcurrent, hrest⟩ => by
    rw [next_sequence]
    exact drawsFrom_proceed timing env (drawsFrom_next cursors current hcurrent) hrest
      ((drawsFrom_startFirst timing env spans duration gain _ rest).mono hrest)
  | _, chord spans elapsed tracks, h => by
    rw [next_chord]
    exact drawsFrom_merge timing spans (allDrawFrom_advanceAll elapsed cursors tracks h)

theorem drawsFrom_advance (elapsed : β) (cursors : Cursors) : ∀ {nodes : List Tree}
    (t : Track β), t.DrawsFrom nodes → (t.advance timing env elapsed cursors).1.DrawsFrom nodes
  | _, .finished, _ => trivial
  | _, .sounding held remaining visit, h => by
    by_cases hdue : Beats.le (remaining - elapsed) timing.epsilon = true
    · simp only [Track.advance, if_pos hdue]
      exact Track.drawsFrom_ofProgress (drawsFrom_next cursors visit h.2)
    · simp only [Track.advance, if_neg hdue]
      exact h

theorem allDrawFrom_advanceAll (elapsed : β) (cursors : Cursors) : ∀ {nodes : List Tree}
    (ts : List (Track β)), Track.AllDrawFrom nodes ts →
      Track.AllDrawFrom nodes (advanceAll timing env elapsed cursors ts).1
  | _, [], _ => trivial
  | _, t :: ts, ⟨own, others, hparts, ht, hts⟩ => by
    rw [Track.advanceAll_cons]
    exact ⟨own, others, hparts, drawsFrom_advance elapsed cursors t ht,
      allDrawFrom_advanceAll elapsed _ ts hts⟩

end

end Visit

/-! ## Players -/

namespace Player

/-- The score is numbered, and the present activation draws from its tree. -/
structure Faithful (p : Player β) : Prop where
  numbered : p.score.Numbered
  visit : ∀ v, p.visit = some v → v.DrawsFrom p.score.tree.nodes

theorem faithful_ofPattern (p : Pattern) : (ofPattern p : Player β).Faithful :=
  ⟨Score.numbered_ofPattern p, fun _ hv => by cases hv⟩

variable [Beats β] {p : Player β}

theorem Faithful.reply (h : p.Faithful) (timing : ChordTiming β) (env : Env) :
    Progress.DrawsFrom p.score.tree.nodes (p.reply timing env).1 ∧
      (p.reply timing env).2.size = p.score.size := by
  rw [Player.reply]
  split
  · exact ⟨Visit.drawsFrom_start timing env _ _ _ _,
      (Visit.local_start timing env _ _ _).size_eq _⟩
  · next v hv =>
    exact ⟨Visit.drawsFrom_next timing env _ v (h.visit v hv),
      (Visit.local_next timing env v).size_eq _⟩

theorem Faithful.attempt (h : p.Faithful) (timing : ChordTiming β) (env : Env) :
    (p.attempt timing env).2.Faithful ∧
      ∀ step, (p.attempt timing env).1 = some step → step.DrawsFrom p.score.tree.nodes := by
  obtain ⟨hreply, hsize⟩ := h.reply timing env
  rw [attempt_eq]
  rcases hcase : p.reply timing env with ⟨_ | ⟨step, v⟩, cursors⟩
  all_goals
    rw [hcase] at hreply hsize
    have hnumbered : (⟨p.score.tree, cursors⟩ : Score).Numbered := by
      rw [Score.Numbered, Score.size, hsize]
      exact h.numbered
  · exact ⟨⟨hnumbered, fun _ hv => by cases hv⟩, fun _ hstep => by cases hstep⟩
  · exact ⟨⟨hnumbered, fun _ hv => Option.some.inj hv ▸ hreply.2⟩,
      fun _ hstep => Option.some.inj hstep ▸ hreply.1⟩

/-- The next step plays leaves of the score, in their order. -/
theorem Faithful.next (h : p.Faithful) (timing : ChordTiming β) (env : Env) :
    (p.next timing env).1.DrawsFrom p.score.tree.nodes ∧ (p.next timing env).2.Faithful := by
  have hattempt : ∀ q : Player β, q.Faithful ∧ q.score.tree = p.score.tree →
      ((q.attempt timing env).2.Faithful ∧ (q.attempt timing env).2.score.tree = p.score.tree) ∧
        ∀ step, (q.attempt timing env).1 = some step → step.DrawsFrom p.score.tree.nodes := by
    rintro q ⟨hq, htree⟩
    obtain ⟨hfaithful, hstep⟩ := hq.attempt timing env
    rw [htree] at hstep
    exact ⟨⟨hfaithful, (tree_of_attempt timing rfl).trans htree⟩, hstep⟩
  have hnext := next_of_attempt timing hattempt (List.nil_sublist _) ⟨h, rfl⟩
  exact ⟨hnext.1, hnext.2.1⟩

end Player

end PatternSynth
