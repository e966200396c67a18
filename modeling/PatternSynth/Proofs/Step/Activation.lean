import PatternSynth.Proofs.Step.Footprint

/-!
# The activations of a performance

An activation is one visit of a node from the moment it is entered, with every pull it gets. The
activation of a node is made up of activations of its children (`Activation.Part`), each with the
pulls that are passed on to it, and the activations of a performance (`Player.Activates`) are those
of the root and, in turn, those they are made up of.

All nodes play on the same cursors. An activation is undisturbed (`Activation.Undisturbed`) if the
cursors of its own tree stay as they are between two of its pulls. Then it hands out the same steps
as if its tree were played alone (`Activation.Undisturbed.steps_eq_solo`).
-/

namespace PatternSynth

/-- A request for a step: the moment of it, and the cursors as they are then. -/
structure Pull where
  env : Env
  cursors : Cursors

/-- One activation of a node: what it is entered with, the pull that enters it and the pulls it
gets from then on. -/
structure Activation (β : Type) where
  tree : Tree
  duration : β
  gain : Float
  entry : Pull
  later : List Pull

variable {β : Type} [Beats β] (timing : ChordTiming β)

/-! ## Steps that are pulled one after another -/

namespace Visit

/-- What a visit makes of the pulls after some progress, until it is over. -/
def replies : Progress β → List Pull → List (Progress β × Cursors)
  | some (_, v), pull :: pulls =>
    let reply := v.next timing pull.env pull.cursors
    reply :: replies reply.1 pulls
  | _, _ => []

/-- The steps that a visit gives at these moments on cursors of its own, until it is over. -/
def solo : Progress β × Cursors → List Env → List (Option (Step β))
  | (some (_, v), cursors), env :: envs =>
    let reply := v.next timing env cursors
    reply.1.map Prod.fst :: solo reply envs
  | _, _ => []

/-- No pull comes after the end, and between two pulls the cursors stay the same at these
numbers. -/
def Undisturbed (ids : List Nat) : Progress β × Cursors → List Pull → Prop
  | _, [] => True
  | (none, _), _ :: _ => False
  | (some (_, v), cursors), pull :: pulls =>
    cursors.AgreeOn ids pull.cursors ∧
      Undisturbed ids (v.next timing pull.env pull.cursors) pulls

/-- The pulls that a visit takes after some progress, and, if it is over with the last of them,
that pull as it is passed on, with the pulls left after it. -/
def handOver : Progress β × Cursors → Env → List Pull → List Pull × Option (Pull × List Pull)
  | (none, cursors), env, pulls => ([], some (⟨env, cursors⟩, pulls))
  | (some _, _), _, [] => ([], none)
  | (some (_, v), _), _, pull :: pulls =>
    let others := handOver (v.next timing pull.env pull.cursors) pull.env pulls
    (pull :: others.1, others.2)

end Visit

/-- The steps that a tree gives at these moments when it is played alone. -/
def Tree.solo (t : Tree) (duration : β) (gain : Float) (cursors : Cursors) :
    List Env → List (Option (Step β))
  | [] => []
  | env :: envs =>
    let reply := Visit.start timing env duration gain cursors t
    reply.1.map Prod.fst :: Visit.solo timing reply envs

/-! ## Chords round by round -/

/-- One pull of a chord: its tracks once they have been brought to the moment, and the pull that
each of them gets, if any. -/
structure Round (β : Type) where
  tracks : List (Track β)
  pulls : List (Option Pull)

namespace Round

/-- The step that the track at a place holds, unless the track is finished. -/
def heldAt (place : Nat) (r : Round β) : Option (Step β) :=
  r.tracks[place]?.bind Track.held?

/-- The pull that the track at a place gets, if any. -/
def pullAt (place : Nat) (r : Round β) : Option Pull :=
  r.pulls[place]?.join

end Round

/-- The pulls that enter the children of a chord, from left to right. -/
def Tree.entries (env : Env) (duration : β) (gain : Float) : Cursors → List Tree → List Pull
  | _, [] => []
  | cursors, t :: ts =>
    ⟨env, cursors⟩ ::
      entries env duration gain (Visit.start timing env duration gain cursors t).2 ts

/-- The pull that each track gets when time passes, from left to right. Only tracks whose step is
over get one. -/
def Track.pulls (env : Env) (elapsed : β) : Cursors → List (Track β) → List (Option Pull)
  | _, [] => []
  | cursors, t :: ts =>
    (if t.isDue timing elapsed then some ⟨env, cursors⟩ else none) ::
      pulls env elapsed (t.advance timing env elapsed cursors).2 ts

/-- The rounds of a chord after some round, until no track has a bounded time left. -/
def Visit.rounds (spans : List Span) : List (Track β) → List Pull → List (Round β)
  | _, [] => []
  | tracks, pull :: pulls =>
    match merge timing spans tracks with
    | none => []
    | some (step, _) =>
      let moved := (advanceAll timing pull.env step.duration pull.cursors tracks).1
      ⟨moved, Track.pulls timing pull.env step.duration pull.cursors tracks⟩ ::
        rounds spans moved pulls

namespace Activation

/-- The progress with which an activation begins. -/
def first (a : Activation β) : Progress β × Cursors :=
  Visit.start timing a.entry.env a.duration a.gain a.entry.cursors a.tree

/-- What an activation makes of each of its pulls. -/
def replies (a : Activation β) : List (Progress β × Cursors) :=
  a.first timing :: Visit.replies timing (a.first timing).1 a.later

/-- The rounds of an activation of a chord. -/
def rounds (a : Activation β) : List (Round β) :=
  match a.tree with
  | .group _ .chord ts tag =>
    let gain := tag.innerGain a.gain
    let tracks :=
      (Visit.startAll timing a.entry.env a.duration gain a.entry.cursors ts).1
    ⟨tracks, (Tree.entries timing a.entry.env a.duration gain a.entry.cursors ts).map some⟩ ::
      Visit.rounds timing tag.spans tracks a.later
  | _ => []

/-! ## The activations that an activation is made up of -/

/-- The activations of the children of a sequence. Each child takes pulls until it is over, and the
pull that finds it over goes to the next child. -/
def elements (duration : β) (gain : Float) : List Tree → Pull → List Pull → List (Activation β)
  | [], _, _ => []
  | t :: ts, entry, pulls =>
    let (own, left) := Visit.handOver timing
      (Visit.start timing entry.env duration gain entry.cursors t) entry.env pulls
    ⟨t, duration, gain, entry, own⟩ ::
      match left with
      | none => []
      | some (entry, pulls) => elements duration gain ts entry pulls

/-- The activation of the child at a place of a chord, with the pulls that its track gets in the
later rounds. -/
def onTrack (a : Activation β) (place : Nat) (t : Tree) (tag : Tag) (own : Pull) : Activation β :=
  ⟨t, a.duration, tag.innerGain a.gain, own,
    (a.rounds timing).tail.filterMap (Round.pullAt place)⟩

/-- An activation and an activation of a child in the course of it. -/
inductive Part : Activation β → Activation β → Prop where
  /-- The inside of a modifier, with what the amount is when the modifier is entered. -/
  | inside {id kind amount inner tag duration gain entry later} :
      Part ⟨.modified id kind amount inner tag, duration, gain, entry, later⟩
        ⟨inner, kind.innerDuration (amount.resolve entry.env).toNumber duration,
          kind.innerGain (amount.resolve entry.env).toNumber (tag.innerGain gain), entry, later⟩
  /-- The branch of a cycle whose turn it is, entered once the turn has been taken. -/
  | branch {id t ts tag duration gain entry later branch}
      (hbranch : (t :: ts)[(entry.cursors.turn id (t :: ts).length).1]? = some branch) :
      Part ⟨.group id .cycle (t :: ts) tag, duration, gain, entry, later⟩
        ⟨branch, duration, tag.innerGain gain,
          ⟨entry.env, (entry.cursors.turn id (t :: ts).length).2⟩, later⟩
  /-- A child of a sequence. -/
  | element {id t ts tag duration gain entry later b}
      (hmem : b ∈ elements timing (duration / Beats.ofNat (t :: ts).length) (tag.innerGain gain)
        (t :: ts) entry later) :
      Part ⟨.group id .sequence (t :: ts) tag, duration, gain, entry, later⟩ b
  /-- A child of a chord. -/
  | track {id ts tag duration gain entry later place t own}
      (ht : ts[place]? = some t)
      (hown : (Tree.entries timing entry.env duration (tag.innerGain gain) entry.cursors
        ts)[place]? = some own) :
      Part ⟨.group id .chord ts tag, duration, gain, entry, later⟩
        (onTrack timing ⟨.group id .chord ts tag, duration, gain, entry, later⟩ place t tag own)

end Activation

namespace Player

/-- A player after so many pulls. -/
def after (envs : Nat → Env) (p : Player β) : Nat → Player β
  | 0 => p
  | n + 1 => ((p.after envs n).next timing (envs n)).2

/-- The root is entered on these cursors in the pull after `n` others: in the first attempt if no
activation is going on, or in the second attempt if the first one gives no step. -/
def Enters (envs : Nat → Env) (p : Player β) (n : Nat) (cursors : Cursors) : Prop :=
  ((p.after timing envs n).visit = none ∧ (p.after timing envs n).score.cursors = cursors) ∨
    ∃ q, (p.after timing envs n).attempt timing (envs n) = (none, q) ∧ q.score.cursors = cursors

/-- The activation of the root that is entered on these cursors in the pull after `n` others, over
`count` more pulls. -/
def rootActivation (envs : Nat → Env) (p : Player β) (n count : Nat) (cursors : Cursors) :
    Activation β :=
  ⟨p.score.tree, Beats.ofNat 1, 1, ⟨envs n, cursors⟩,
    (List.range' (n + 1) count).map fun k => ⟨envs k, (p.after timing envs k).score.cursors⟩⟩

/-- The activations of a performance: those of the root, over any number of pulls that find them
going on, and those they are made up of. -/
inductive Activates (envs : Nat → Env) (p : Player β) : Activation β → Prop where
  | root {n count : Nat} {cursors : Cursors} (henters : p.Enters timing envs n cursors)
      (hgoing : ((p.rootActivation timing envs n count cursors).replies timing).length =
        count + 1) :
      Activates envs p (p.rootActivation timing envs n count cursors)
  | part {a b : Activation β} (ha : Activates envs p a) (hpart : Activation.Part timing a b) :
      Activates envs p b

end Player

/-! ## Undisturbed activations -/

namespace Visit

open Cursors

variable {timing} {ids ids' : List Nat}

theorem Undisturbed.mono (hsub : ids ⊆ ids') {result : Progress β × Cursors} {pulls : List Pull}
    (h : Undisturbed timing ids' result pulls) : Undisturbed timing ids result pulls := by
  induction pulls generalizing result with
  | nil => trivial
  | cons pull pulls ih =>
    obtain ⟨_ | ⟨step, v⟩, cursors⟩ := result
    · exact h
    · exact ⟨h.1.mono hsub, ih h.2⟩

/-- A node around a visit gets the same pulls. -/
theorem Undisturbed.of_surround {spans : List Span} {result : Progress β × Cursors}
    {pulls : List Pull} (h : Undisturbed timing ids (surround spans result.1, result.2) pulls) :
    Undisturbed timing ids result pulls := by
  induction pulls generalizing result with
  | nil => trivial
  | cons pull pulls ih =>
    obtain ⟨_ | ⟨step, v⟩, cursors⟩ := result
    · exact h
    · exact ⟨h.1, ih h.2⟩

/-- A visit that is not disturbed gives the steps that it gives on cursors of its own. -/
theorem Undisturbed.steps_eq_solo {result : Progress β × Cursors} {pulls : List Pull}
    {cursors : Cursors} (h : Undisturbed timing ids result pulls) (hids : idsAfter result.1 ⊆ ids)
    (hcursors : AgreeOn ids cursors result.2) :
    (replies timing result.1 pulls).map (fun reply => reply.1.map Prod.fst) =
      solo timing (result.1, cursors) (pulls.map Pull.env) := by
  induction pulls generalizing result cursors with
  | nil =>
    obtain ⟨_ | ⟨step, v⟩, after⟩ := result <;> rfl
  | cons pull pulls ih =>
    obtain ⟨_ | ⟨step, v⟩, after⟩ := result
    · exact h.elim
    · have hlocal := (local_next timing pull.env v).mono hids
      have hagree : AgreeOn ids cursors pull.cursors := hcursors.trans h.1
      have hreply : (v.next timing pull.env cursors).1 = (v.next timing pull.env pull.cursors).1 :=
        hlocal.fst_eq hagree
      have hrest := ih h.2 (List.Subset.trans (ids_next timing pull.env pull.cursors v) hids)
        (hlocal.snd_agree hagree)
      simp only [replies, List.map_cons, solo, hrest, hreply]
      rw [← hreply]

theorem Undisturbed.length_replies {result : Progress β × Cursors} {pulls : List Pull}
    (h : Undisturbed timing ids result pulls) :
    (replies timing result.1 pulls).length = pulls.length := by
  induction pulls generalizing result with
  | nil => obtain ⟨_ | ⟨step, v⟩, cursors⟩ := result <;> rfl
  | cons pull pulls ih =>
    obtain ⟨_ | ⟨step, v⟩, cursors⟩ := result
    · exact h.elim
    · rw [replies, List.length_cons, List.length_cons, ih h.2]

/-- The present child of a sequence is not disturbed, and neither are the children that are entered
once it is over. -/
theorem Undisturbed.of_proceed {env : Env} {duration : β} {gain : Float} {spans : List Span}
    {rest : List Tree} {result : Progress β × Cursors} {pulls : List Pull}
    (h : Undisturbed timing ids
      (proceed timing env duration gain spans rest result.1 result.2) pulls) :
    Undisturbed timing ids result (handOver timing result env pulls).1 ∧
      ∀ entry left, (handOver timing result env pulls).2 = some (entry, left) →
        Undisturbed timing ids
          (startFirst timing entry.env spans duration gain entry.cursors rest) left := by
  induction pulls generalizing result env with
  | nil =>
    obtain ⟨_ | ⟨step, v⟩, cursors⟩ := result
    · refine ⟨trivial, ?_⟩
      rintro entry left ⟨⟩
      exact h
    · exact ⟨trivial, fun _ _ hleft => nomatch hleft⟩
  | cons pull pulls ih =>
    obtain ⟨_ | ⟨step, v⟩, cursors⟩ := result
    · refine ⟨trivial, ?_⟩
      rintro entry left ⟨⟩
      exact h
    · have hrest := h.2
      rw [next_sequence] at hrest
      obtain ⟨hown, hleft⟩ := ih hrest
      exact ⟨⟨h.1, hown⟩, hleft⟩

end Visit

namespace Activation

open Cursors Visit

/-- No two nodes of the tree share a number, no pull comes after the end, and between two pulls the
cursors of the tree stay as they are. -/
structure Undisturbed (a : Activation β) : Prop where
  nodup : a.tree.ids.Nodup
  pulls : Visit.Undisturbed timing a.tree.ids (a.first timing) a.later

variable {timing}

/-- An activation that is not disturbed gives the steps that its tree gives when it is played
alone, on any cursors that are the same at its own numbers. -/
theorem Undisturbed.steps_eq_solo {a : Activation β} {cursors : Cursors}
    (h : a.Undisturbed timing) (hcursors : AgreeOn a.tree.ids cursors a.entry.cursors) :
    (a.replies timing).map (fun reply => reply.1.map Prod.fst) =
      a.tree.solo timing a.duration a.gain cursors ((a.entry :: a.later).map Pull.env) := by
  have hlocal := local_start timing a.entry.env a.duration a.gain a.tree
  have hfirst : (start timing a.entry.env a.duration a.gain cursors a.tree).1 =
      (a.first timing).1 := hlocal.fst_eq hcursors
  have hids := ids_start timing a.entry.env a.duration a.gain a.entry.cursors a.tree
  have hrest := h.pulls.steps_eq_solo hids (hlocal.snd_agree hcursors)
  rw [← hfirst] at hrest
  simp only [replies, List.map_cons, Tree.solo, ← hfirst, hrest]

theorem undisturbed_elements {ids : List Nat} {spans : List Span} {duration : β} {gain : Float}
    {ts : List Tree} {entry : Pull} {pulls : List Pull} {b : Activation β}
    (h : Visit.Undisturbed timing ids
      (startFirst timing entry.env spans duration gain entry.cursors ts) pulls)
    (hb : b ∈ elements timing duration gain ts entry pulls) :
    b.tree ∈ ts ∧ Visit.Undisturbed timing ids (b.first timing) b.later := by
  induction ts generalizing entry pulls with
  | nil => cases hb
  | cons t ts ih =>
    rw [startFirst_cons] at h
    obtain ⟨hown, hleft⟩ := h.of_proceed
    rw [elements] at hb
    rcases List.mem_cons.1 hb with rfl | hb
    · exact ⟨List.mem_cons_self, hown⟩
    · split at hb
      · cases hb
      · rename_i entry' pulls' hsome
        obtain ⟨hmem, hb⟩ := ih (hleft entry' pulls' hsome) hb
        exact ⟨List.mem_cons_of_mem t hmem, hb⟩

end Activation

end PatternSynth
