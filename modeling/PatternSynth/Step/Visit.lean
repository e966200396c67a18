import PatternSynth.Pattern.Resolve
import PatternSynth.Step.Basic

/-!
# One activation of a node, as a stream of steps that is computed only as it is played

`Visit.start` enters a node and gives its first step together with a visit, from which `Visit.next`
gets the others one by one. A cycle takes its turn, and an amount is read, at the moment playing
reaches them. A chord plays one track for each child and moves them all on by the shortest remaining
time, so that children of different rhythms line up.
-/

namespace PatternSynth

mutual

/-- What is left of an activation after some of its steps. -/
inductive Visit (β : Type) where
  | done
  /-- The branch of a cycle or the inside of a modifier, with the spans of the node around it. -/
  | within (spans : List Span) (inner : Visit β)
  /-- A sequence that is at `current`, with children still to come for `duration` each. -/
  | sequence (spans : List Span) (gain : Float) (duration : β) (rest : List Tree)
      (current : Visit β)
  /-- A chord that has handed out a step of length `elapsed`. -/
  | chord (spans : List Span) (elapsed : β) (tracks : List (Track β))

/-- One child of a chord, in the middle of its own activation. -/
inductive Track (β : Type) where
  | finished
  /-- The track holds a step, of which some time remains. -/
  | sounding (held : Step β) (remaining : β) (visit : Visit β)

end

/-- A step and what is left after it, or nothing. -/
abbrev Progress (β : Type) := Option (Step β × Visit β)

namespace Track

variable {β : Type}

/-- The step that a track holds. -/
def held? : Track β → Option (Step β)
  | finished => none
  | sounding s _ _ => some s

/-- The time that remains of the step that a track holds. -/
def remaining? : Track β → Option β
  | finished => none
  | sounding _ r _ => some r

/-- A track that has made some progress. -/
def ofProgress : Progress β → Track β
  | none => finished
  | some (s, v) => sounding s s.duration v

end Track

/-- Zero, negative and infinite amounts of speed leave time as it is, and so does NaN. -/
def speedFactor (amount : Float) : Float :=
  if amount.isFinite && amount > 0 then amount else 1

namespace Visit

variable {β : Type}

/-- Put a node around some progress. -/
def surround (spans : List Span) : Progress β → Progress β
  | none => none
  | some (s, v) => some (s.under spans, within spans v)

/-- The step of a chord from the steps its tracks hold, unless no track has a bounded time left. -/
@[specialize] def merge [Beats β] (timing : ChordTiming β) (spans : List Span)
    (tracks : List (Track β)) : Progress β :=
  match Beats.least (tracks.filterMap Track.remaining?) with
  | none => none
  | some shortest =>
    let size := if Beats.le timing.stall shortest then shortest else timing.minStep
    let held := tracks.filterMap Track.held?
    let step : Step β := ⟨held.flatMap Step.notes, size, spans ++ held.flatMap Step.spans⟩
    some (step, chord spans size tracks)

mutual

/-- Enter a node for a duration and a gain. -/
@[specialize] def start [Beats β] (timing : ChordTiming β) (env : Env) (duration : β)
    (gain : Float) (cursors : Cursors) : Tree → Progress β × Cursors
  | .leaf id pattern =>
    let gain := pattern.tag.gain.getD 1 * gain
    (some (⟨[⟨id, pattern, gain⟩], duration, pattern.activeSpans env⟩, done), cursors)
  | .group _ _ [] tag => (some (.rest duration tag.spans, done), cursors)
  | .group id kind (child :: more) tag =>
    let gain := tag.gain.getD 1 * gain
    let children := child :: more
    match kind with
    | .sequence =>
      startFirst timing env tag.spans (duration / Beats.ofNat children.length) gain cursors children
    | .cycle =>
      let (index, cursors) := cursors.turn id children.length
      let (progress, cursors) := startNth timing env duration gain cursors children index
      (surround tag.spans progress, cursors)
    | .chord =>
      let (tracks, cursors) := startAll timing env duration gain cursors children
      (merge timing tag.spans tracks, cursors)
  | .modified _ kind amount inner tag =>
    let gain := tag.gain.getD 1 * gain
    let amount := (amount.resolve env).toNumber
    let (progress, cursors) :=
      match kind with
      | .speed =>
        start timing env (duration / Beats.ofFloat (speedFactor amount)) gain cursors inner
      | .volume => start timing env duration (gain * amount) cursors inner
    (surround tag.spans progress, cursors)

/-- Go on with a sequence: enter its children in turn until one of them gives a step. -/
@[specialize] def startFirst [Beats β] (timing : ChordTiming β) (env : Env) (spans : List Span)
    (duration : β) (gain : Float) (cursors : Cursors) : List Tree → Progress β × Cursors
  | [] => (none, cursors)
  | t :: ts =>
    match start timing env duration gain cursors t with
    | (some (s, v), cursors) => (some (s.under spans, sequence spans gain duration ts v), cursors)
    | (none, cursors) => startFirst timing env spans duration gain cursors ts

/-- Enter the child at an index. -/
@[specialize] def startNth [Beats β] (timing : ChordTiming β) (env : Env) (duration : β)
    (gain : Float) (cursors : Cursors) : List Tree → Nat → Progress β × Cursors
  | [], _ => (none, cursors)
  | t :: _, 0 => start timing env duration gain cursors t
  | _ :: ts, n + 1 => startNth timing env duration gain cursors ts n

/-- Enter every child, each on a track of its own. -/
@[specialize] def startAll [Beats β] (timing : ChordTiming β) (env : Env) (duration : β)
    (gain : Float) (cursors : Cursors) : List Tree → List (Track β) × Cursors
  | [] => ([], cursors)
  | t :: ts =>
    let (progress, cursors) := start timing env duration gain cursors t
    let (tracks, cursors) := startAll timing env duration gain cursors ts
    (.ofProgress progress :: tracks, cursors)

end

mutual

/-- The next step of an activation, if it has one. -/
@[specialize] def next [Beats β] (timing : ChordTiming β) (env : Env) (cursors : Cursors) :
    Visit β → Progress β × Cursors
  | done => (none, cursors)
  | within spans inner =>
    let (progress, cursors) := next timing env cursors inner
    (surround spans progress, cursors)
  | sequence spans gain duration rest current =>
    match next timing env cursors current with
    | (some (s, v), cursors) => (some (s.under spans, sequence spans gain duration rest v), cursors)
    | (none, cursors) => startFirst timing env spans duration gain cursors rest
  | chord spans elapsed tracks =>
    let (tracks, cursors) := advanceAll timing env elapsed cursors tracks
    (merge timing spans tracks, cursors)

/-- Let time pass on every track, and move on those whose step is over. -/
@[specialize] def advanceAll [Beats β] (timing : ChordTiming β) (env : Env) (elapsed : β)
    (cursors : Cursors) : List (Track β) → List (Track β) × Cursors
  | [] => ([], cursors)
  | .finished :: ts =>
    let (tracks, cursors) := advanceAll timing env elapsed cursors ts
    (.finished :: tracks, cursors)
  | .sounding held remaining visit :: ts =>
    let remaining := remaining - elapsed
    if Beats.le remaining timing.epsilon then
      let (progress, cursors) := next timing env cursors visit
      let (tracks, cursors) := advanceAll timing env elapsed cursors ts
      (.ofProgress progress :: tracks, cursors)
    else
      let (tracks, cursors) := advanceAll timing env elapsed cursors ts
      (.sounding held remaining visit :: tracks, cursors)

end

end Visit

end PatternSynth
