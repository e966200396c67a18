import PatternSynth.Proofs.Step.Chord

/-!
# Chords as products of their children

An activation of a chord goes round by round, one round for each of its pulls. According to
`Activation.IsProduct` each track holds the steps that its child gives when it is played alone, one
after another and each of them for one round or more, and the chord hands out what its tracks hold
together. The main result of this file is that every activation of a chord in a
performance is such a product, whatever else is played on the same cursors.
-/

namespace PatternSynth

/-! ## The end of a chord -/

namespace Beats

variable {β : Type} [Beats β]

/-- The smaller of the number found so far and one more, if that is less than infinity. -/
def closer (found : Option β) (x : β) : Option β :=
  match found with
  | none => if isBounded x then some x else none
  | some y => if lt x y then some x else some y

theorem closer_eq_none (found : Option β) (x : β) :
    closer found x = none ↔ found = none ∧ isBounded x = false := by
  rcases found with _ | y
  · simp [closer]
  · rw [closer]
    split <;> simp

theorem foldl_closer_eq_none (found : Option β) (xs : List β) :
    xs.foldl closer found = none ↔ found = none ∧ ∀ x ∈ xs, isBounded x = false := by
  induction xs generalizing found with
  | nil => simp
  | cons x xs ih => rw [List.foldl_cons, ih, closer_eq_none, List.forall_mem_cons, and_assoc]

theorem least_eq_none (xs : List β) : least xs = none ↔ ∀ x ∈ xs, isBounded x = false := by
  have hfold : least xs = xs.foldl closer none := rfl
  rw [hfold, foldl_closer_eq_none, and_iff_right rfl]

end Beats

namespace Visit

variable {β : Type} [Beats β] {timing : ChordTiming β} {spans : List Span}

theorem merge_eq_none (tracks : List (Track β)) :
    merge timing spans tracks = none ↔
      ∀ r ∈ tracks.filterMap Track.remaining?, Beats.isBounded r = false := by
  rw [← Beats.least_eq_none, merge]
  split
  · rename_i h
    simp only [h]
  · rename_i h
    simp only [h, reduceCtorEq]

theorem notes_of_merge {tracks : List (Track β)} {step : Step β} {v : Visit β}
    (h : merge timing spans tracks = some (step, v)) :
    step.notes = (tracks.filterMap Track.held?).flatMap Step.notes := by
  simp only [merge] at h
  split at h
  · cases h
  · obtain ⟨rfl, -⟩ := Prod.mk.inj (Option.some.inj h)
    rfl

/-! ## Rounds -/

/-- Each reply of a chord is what its tracks make of the round. -/
theorem replies_eq_merge (tracks : List (Track β)) (pulls : List Pull) :
    (replies timing (merge timing spans tracks) pulls).map Prod.fst =
      (rounds timing spans tracks pulls).map fun round => merge timing spans round.tracks := by
  induction pulls generalizing tracks with
  | nil =>
    rw [replies_nil]
    rfl
  | cons pull pulls ih =>
    rw [rounds]
    rcases hmerge : merge timing spans tracks with _ | ⟨step, v⟩
    · rfl
    · simp only [replies, merge_eq_some hmerge, next_chord, List.map_cons, ih]

theorem length_tracks_of_mem_rounds {tracks : List (Track β)} {ts : List Tree} {pulls : List Pull}
    {round : Round β} (hinside : Inside tracks ts)
    (hround : round ∈ rounds timing spans tracks pulls) :
    round.tracks.length = ts.length := by
  induction pulls generalizing tracks with
  | nil => cases hround
  | cons pull pulls ih =>
    rw [rounds] at hround
    split at hround
    · cases hround
    · rename_i step v _
      have hinside' := inside_advanceAll timing pull.env step.duration pull.cursors hinside
      rcases List.mem_cons.1 hround with rfl | hround
      · exact hinside'.length_eq
      · exact ih hinside' hround

/-- Once a track has finished, so it has in the next round. -/
theorem held?_advanceAll_eq_none {env : Env} {elapsed : β} {cursors : Cursors}
    {tracks : List (Track β)} {place : Nat} (h : tracks[place]?.bind Track.held? = none) :
    (advanceAll timing env elapsed cursors tracks).1[place]?.bind Track.held? = none := by
  induction tracks generalizing cursors place with
  | nil => exact h
  | cons track tracks ih =>
    rw [Track.advanceAll_cons]
    cases place with
    | zero =>
      cases track with
      | finished => rfl
      | sounding held remaining visit => cases h
    | succ place => exact ih h

theorem heldAt_of_mem_rounds {tracks : List (Track β)} {pulls : List Pull} {round : Round β}
    {place : Nat} (h : tracks[place]?.bind Track.held? = none)
    (hround : round ∈ rounds timing spans tracks pulls) : round.heldAt place = none := by
  induction pulls generalizing tracks with
  | nil => cases hround
  | cons pull pulls ih =>
    rw [rounds] at hround
    split at hround
    · cases hround
    · rcases List.mem_cons.1 hround with rfl | hround
      · exact held?_advanceAll_eq_none h
      · exact ih (held?_advanceAll_eq_none h) hround

theorem pairwise_rounds (tracks : List (Track β)) (pulls : List Pull) (place : Nat) :
    (rounds timing spans tracks pulls).Pairwise fun round round' =>
      round.heldAt place = none → round'.heldAt place = none := by
  induction pulls generalizing tracks with
  | nil => exact .nil
  | cons pull pulls ih =>
    rw [rounds]
    split
    · exact .nil
    · exact .cons (fun round' hround' h => heldAt_of_mem_rounds h hround') (ih _)

end Visit

/-! ## The moments of pulls -/

section Moments

variable {β : Type} [Beats β] {timing : ChordTiming β}

theorem Tree.env_of_mem_entries {env : Env} {duration : β} {gain : Float} {cursors : Cursors}
    {ts : List Tree} {pull : Pull} (h : pull ∈ entries timing env duration gain cursors ts) :
    pull.env = env := by
  induction ts generalizing cursors with
  | nil => cases h
  | cons t ts ih =>
    rcases List.mem_cons.1 h with rfl | h
    · rfl
    · exact ih h

theorem Track.env_of_mem_pulls {env : Env} {elapsed : β} {cursors : Cursors}
    {tracks : List (Track β)} {pull : Pull}
    (h : some pull ∈ pulls timing env elapsed cursors tracks) : pull.env = env := by
  induction tracks generalizing cursors with
  | nil => cases h
  | cons track tracks ih =>
    rcases List.mem_cons.1 h with h | h
    · split at h <;> cases h
      rfl
    · exact ih h

theorem Visit.env_of_rounds {spans : List Span} {tracks : List (Track β)} {pulls : List Pull}
    {place : Nat} {round : Round β} {own : Pull}
    (hround : (rounds timing spans tracks pulls)[place]? = some round)
    (hown : some own ∈ round.pulls) : pulls[place]?.map Pull.env = some own.env := by
  induction pulls generalizing tracks place with
  | nil => cases hround
  | cons pull pulls ih =>
    rw [rounds] at hround
    split at hround
    · cases hround
    · cases place with
      | zero =>
        obtain rfl := Option.some.inj hround
        exact congrArg some (Track.env_of_mem_pulls hown).symm
      | succ place => exact ih hround

end Moments

/-! ## Products -/

namespace Activation

open Visit

variable {β : Type} [Beats β] (timing : ChordTiming β)

/-- An activation of a chord is the product of its children. -/
structure IsProduct (a : Activation β) (ts : List Tree) (tag : Tag) : Prop where
  /-- Each pull is one round. -/
  length_rounds : (a.rounds timing).length = (a.entry :: a.later).length
  length_replies : (a.replies timing).length = (a.entry :: a.later).length
  length_tracks : ∀ round ∈ a.rounds timing, round.tracks.length = ts.length
  /-- What a track gets in a round is pulled at the moment of the round. -/
  env_eq : ∀ {place : Nat} {round : Round β} {own : Pull},
    (a.rounds timing)[place]? = some round → some own ∈ round.pulls →
      (a.entry :: a.later)[place]?.map Pull.env = some own.env
  /-- Each track holds the steps that its child gives at these moments when it is played alone,
  one after another and each of them for one round or more. -/
  stutters : ∀ {place : Nat} {child : Tree} {cursors : Cursors}, ts[place]? = some child →
    cursors.AgreeOn child.ids a.entry.cursors →
      Stutters ((a.rounds timing).map (Round.heldAt place))
        (child.solo timing a.duration (tag.innerGain a.gain) cursors
          (((a.rounds timing).filterMap (Round.pullAt place)).map Pull.env))
  /-- A step of the chord has the notes of the steps that the tracks hold, in their order. -/
  notes_eq : ∀ {place : Nat} {round : Round β} {step : Step β} {v : Visit β} {cursors : Cursors},
    (a.rounds timing)[place]? = some round →
    (a.replies timing)[place]? = some (some (step, v), cursors) →
      step.notes = (round.tracks.filterMap Track.held?).flatMap Step.notes ∧
        v = .chord tag.spans step.duration round.tracks
  /-- The chord is over as soon as no track has a bounded time left. -/
  over_iff : ∀ {place : Nat} {round : Round β} {reply : Progress β × Cursors},
    (a.rounds timing)[place]? = some round → (a.replies timing)[place]? = some reply →
      (reply.1 = none ↔
        ∀ r ∈ round.tracks.filterMap Track.remaining?, Beats.isBounded r = false)
  /-- A track that has finished stays finished. -/
  finished : ∀ place : Nat, (a.rounds timing).Pairwise fun round round' =>
    round.heldAt place = none → round'.heldAt place = none

variable {timing} {a : Activation β} {id place : Nat} {ts : List Tree} {tag : Tag}

variable (timing) in
/-- The replies of a chord are what its tracks make of each round. -/
theorem map_replies_chord (ha : a.tree = .group id .chord ts tag) (hts : ts ≠ []) :
    (a.replies timing).map Prod.fst =
      (a.rounds timing).map fun round => merge timing tag.spans round.tracks := by
  obtain ⟨t, ts, rfl⟩ := List.exists_cons_of_ne_nil hts
  simp only [replies, rounds, first, ha, start_chord, List.map_cons, replies_eq_merge]

theorem reply_eq_merge {round : Round β} {reply : Progress β × Cursors}
    (ha : a.tree = .group id .chord ts tag) (hts : ts ≠ [])
    (hround : (a.rounds timing)[place]? = some round)
    (hreply : (a.replies timing)[place]? = some reply) :
    reply.1 = merge timing tag.spans round.tracks := by
  have hmap := congrArg (·[place]?) (map_replies_chord timing ha hts)
  simp only [List.getElem?_map, hround, hreply, Option.map_some] at hmap
  exact Option.some.inj hmap

theorem length_tracks_of_mem_rounds {round : Round β} (ha : a.tree = .group id .chord ts tag)
    (hround : round ∈ a.rounds timing) : round.tracks.length = ts.length := by
  have hinside := inside_startAll timing a.entry.env a.duration (tag.innerGain a.gain)
    a.entry.cursors ts
  simp only [rounds, ha] at hround
  rcases List.mem_cons.1 hround with rfl | hround
  · exact hinside.length_eq
  · exact Visit.length_tracks_of_mem_rounds hinside hround

theorem env_of_rounds {round : Round β} {own : Pull} (ha : a.tree = .group id .chord ts tag)
    (hround : (a.rounds timing)[place]? = some round) (hown : some own ∈ round.pulls) :
    (a.entry :: a.later)[place]?.map Pull.env = some own.env := by
  simp only [rounds, ha] at hround
  cases place with
  | zero =>
    obtain rfl := Option.some.inj hround
    obtain ⟨pull, hpull, heq⟩ := List.mem_map.1 hown
    obtain rfl := Option.some.inj heq
    exact congrArg some (Tree.env_of_mem_entries hpull).symm
  | succ place =>
    rw [List.getElem?_cons_succ] at hround ⊢
    exact Visit.env_of_rounds hround hown

theorem pairwise_rounds (ha : a.tree = .group id .chord ts tag) (place : Nat) :
    (a.rounds timing).Pairwise fun round round' =>
      round.heldAt place = none → round'.heldAt place = none := by
  simp only [rounds, ha]
  exact .cons (fun _ hround' h => heldAt_of_mem_rounds h hround') (Visit.pairwise_rounds _ _ place)

/-- The track of a child holds the steps that the child gives when it is played alone. -/
theorem Undisturbed.stutters {child : Tree} {cursors : Cursors} (h : a.Undisturbed timing)
    (ha : a.tree = .group id .chord ts tag) (hchild : ts[place]? = some child)
    (hcursors : cursors.AgreeOn child.ids a.entry.cursors) :
    Stutters ((a.rounds timing).map (Round.heldAt place))
      (child.solo timing a.duration (tag.innerGain a.gain) cursors
        (((a.rounds timing).filterMap (Round.pullAt place)).map Pull.env)) := by
  obtain ⟨own, hentry, hagree, hundisturbed, hstutters⟩ := onTrack_undisturbed h ha hchild
  have hsolo := hundisturbed.steps_eq_solo (hcursors.trans hagree)
  have hpulls : (a.rounds timing).filterMap (Round.pullAt place) =
      ⟨a.entry.env, own⟩ :: (a.rounds timing).tail.filterMap (Round.pullAt place) := by
    simp only [rounds, ha, List.filterMap_cons, List.tail_cons, Round.pullAt, List.getElem?_map,
      hentry, Option.map_some, Option.join_some]
  rw [hsolo] at hstutters
  rw [hpulls]
  exact hstutters

theorem Undisturbed.isProduct (h : a.Undisturbed timing) (ha : a.tree = .group id .chord ts tag)
    (hts : ts ≠ []) : a.IsProduct timing ts tag := by
  have hlength : (a.replies timing).length = (a.entry :: a.later).length :=
    congrArg Nat.succ h.pulls.length_replies
  refine ⟨?_, hlength, fun round => length_tracks_of_mem_rounds ha, env_of_rounds ha,
    h.stutters ha, ?_, ?_, pairwise_rounds ha⟩
  · have hmap := congrArg List.length (map_replies_chord timing ha hts)
    rw [List.length_map, List.length_map] at hmap
    exact hmap.symm.trans hlength
  · intro place round step v cursors hround hreply
    have hmerge := (reply_eq_merge ha hts hround hreply).symm
    exact ⟨notes_of_merge hmerge, merge_eq_some hmerge⟩
  · intro place round reply hround hreply
    rw [reply_eq_merge ha hts hround hreply]
    exact merge_eq_none round.tracks

end Activation

namespace Player

variable {β : Type} [Beats β] {timing : ChordTiming β} {envs : Nat → Env}

/-- Whatever is played and whenever it is pulled, each activation of a chord with children is the
product of its children. -/
theorem chord_isProduct (pattern : Pattern) {a : Activation β} {id : Nat} {ts : List Tree}
    {tag : Tag} (hactivates : (ofPattern pattern).Activates timing envs a)
    (ha : a.tree = .group id .chord ts tag) (hts : ts ≠ []) : a.IsProduct timing ts tag :=
  (hactivates.undisturbed (Tree.nodup_ids_ofPattern pattern)).isProduct ha hts

/-- The pattern `( [ 1 2 ] 3 )`, whose first child has two steps while the second has one. -/
def sequenceInChord : Pattern :=
  .collect .chord
    [.collect .sequence [.literal (.number 1) ⟨4, 5⟩, .literal (.number 2) ⟨6, 7⟩],
      .literal (.number 3) ⟨10, 11⟩]

/-- The first activation of `sequenceInChord`: two steps, and a third pull that finds it over. -/
def sequenceInChordActivation : Activation Float :=
  (ofPattern sequenceInChord).rootActivation .usual (fun _ => .zero) 0 2
    (Score.ofPattern sequenceInChord).cursors

theorem sequenceInChord_isProduct :
    ∃ id ts tag, sequenceInChordActivation.tree = .group id .chord ts tag ∧ ts ≠ [] ∧
      (ofPattern sequenceInChord).Activates .usual (fun _ => .zero) sequenceInChordActivation ∧
      sequenceInChordActivation.IsProduct .usual ts tag := by
  have hactivates : (ofPattern sequenceInChord).Activates .usual (fun _ => .zero)
      sequenceInChordActivation := .root (.inl ⟨rfl, rfl⟩) rfl
  exact ⟨_, _, _, rfl, List.cons_ne_nil _ _, hactivates,
    chord_isProduct sequenceInChord hactivates rfl (List.cons_ne_nil _ _)⟩

example : (sequenceInChordActivation.rounds .usual).map (fun round =>
    [round.heldAt 0, round.heldAt 1].map (Option.map fun step => step.notes.map Note.id)) =
      [[some [0], some [3]], [some [1], some [3]], [none, none]] := by
  decide

end Player

end PatternSynth
