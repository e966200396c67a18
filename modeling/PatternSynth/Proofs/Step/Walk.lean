import PatternSynth.Proofs.Step.Visit
import PatternSynth.Proofs.Tree.Numbering

/-!
# Playing as an eager walk

`Tree.walk` enters a node and emits all steps of the activation at once: the steps of the children
of a sequence from left to right, those of the branch whose turn it is in a cycle, and those inside
a modifier. `Tree.passes` repeats the walk of the root. The main result of this file is that a
player that is asked for its steps one by one, each at a moment of its own, hands out the steps of
the walk and leaves the same cursors after each of them.

Chords are not walked. They are the one kind of node whose steps are not those of its children.
-/

namespace PatternSynth

/-- A step as it is handed out, with the cursors as they are at that moment. -/
structure Cue (β : Type) where
  step : Step β
  cursors : Cursors

namespace Cue

variable {β : Type}

/-- Add the spans of a surrounding node. -/
def under (spans : List Span) (c : Cue β) : Cue β :=
  { c with step := c.step.under spans }

end Cue

/-! ## Patterns without chords -/

namespace Pattern

mutual

/-- Whether no chord has children. Operands and amounts are not looked at. -/
def isChordFree : Pattern → Bool
  | group kind children _ _ => (kind != .chord || children.isEmpty) && areChordFree children
  | modified _ _ inner _ => inner.isChordFree
  | atom .. | operator .. => true

/-- Whether no chord in any of the patterns has children. -/
def areChordFree : List Pattern → Bool
  | [] => true
  | p :: ps => p.isChordFree && areChordFree ps

end

end Pattern

namespace Tree

mutual

/-- Whether no chord has children. -/
def isChordFree : Tree → Bool
  | group _ kind children _ => (kind != .chord || children.isEmpty) && areChordFree children
  | modified _ _ _ inner _ => inner.isChordFree
  | leaf .. => true

/-- Whether no chord in any of the trees has children. -/
def areChordFree : List Tree → Bool
  | [] => true
  | t :: ts => t.isChordFree && areChordFree ts

end

theorem areChordFree_cons {t : Tree} {ts : List Tree} :
    areChordFree (t :: ts) = true ↔ t.isChordFree = true ∧ areChordFree ts = true := by
  rw [areChordFree, Bool.and_eq_true]

mutual

theorem isChordFree_number (cursors : Cursors) :
    ∀ p : Pattern, (number cursors p).1.isChordFree = p.isChordFree
  | .atom .. => rfl
  | .operator .. => rfl
  | .modified _ _ inner _ => isChordFree_number cursors inner
  | .group kind children _ _ => by
    have hempty : (numberAll cursors [] children).1.isEmpty = children.isEmpty := by
      rw [Bool.eq_iff_iff, List.isEmpty_iff_length_eq_zero, length_numberAll,
        List.isEmpty_iff_length_eq_zero]
    rw [number, isChordFree, Pattern.isChordFree, areChordFree_numberAll cursors children, hempty]

theorem areChordFree_numberAll (cursors : Cursors) :
    ∀ ps : List Pattern, areChordFree (numberAll cursors [] ps).1 = Pattern.areChordFree ps
  | [] => rfl
  | p :: ps => by
    rw [numberAll_cons, areChordFree, isChordFree_number cursors p,
      areChordFree_numberAll (number cursors p).2 ps, Pattern.areChordFree]

end

/-! ## The walk -/

variable {β : Type} [Beats β]

mutual

/-- All steps of one activation of a node. The step that follows `n` others in the performance is
handed out at the moment `envs n`, and what playing reaches on the way to it is read at that
moment. -/
def walk (envs : Nat → Env) (n : Nat) (duration : β) (gain : Float) (cursors : Cursors) :
    Tree → List (Cue β) × Cursors
  | leaf id pattern =>
    let note : Note := ⟨id, pattern, pattern.tag.innerGain gain⟩
    ([⟨⟨[note], duration, pattern.activeSpans (envs n)⟩, cursors⟩], cursors)
  | group _ _ [] tag => ([⟨.rest duration tag.spans, cursors⟩], cursors)
  | group _ .sequence (t :: ts) tag =>
    let part := duration / Beats.ofNat (t :: ts).length
    let (cues, cursors) := walkAll envs n part (tag.innerGain gain) cursors (t :: ts)
    (cues.map (.under tag.spans), cursors)
  | group id .cycle (t :: ts) tag =>
    let (index, cursors) := cursors.turn id (t :: ts).length
    let (cues, cursors) := walkNth envs n duration (tag.innerGain gain) cursors (t :: ts) index
    (cues.map (.under tag.spans), cursors)
  | group _ .chord (_ :: _) _ => ([], cursors)
  | modified _ kind amount inner tag =>
    let amount := (amount.resolve (envs n)).toNumber
    let (cues, cursors) := walk envs n (kind.innerDuration amount duration)
      (kind.innerGain amount (tag.innerGain gain)) cursors inner
    (cues.map (.under tag.spans), cursors)

/-- All steps of nodes that are entered one after another. -/
def walkAll (envs : Nat → Env) (n : Nat) (duration : β) (gain : Float) (cursors : Cursors) :
    List Tree → List (Cue β) × Cursors
  | [] => ([], cursors)
  | t :: ts =>
    let (first, cursors) := walk envs n duration gain cursors t
    let (later, cursors) := walkAll envs (n + first.length) duration gain cursors ts
    (first ++ later, cursors)

/-- All steps of the node at an index. -/
def walkNth (envs : Nat → Env) (n : Nat) (duration : β) (gain : Float) (cursors : Cursors) :
    List Tree → Nat → List (Cue β) × Cursors
  | [], _ => ([], cursors)
  | t :: _, 0 => walk envs n duration gain cursors t
  | _ :: ts, index + 1 => walkNth envs n duration gain cursors ts index

end

/-- All steps of `count` activations of a node, for one beat each and at full gain, one after
another, when `n` steps have been handed out before. -/
def passes (envs : Nat → Env) (t : Tree) : (count n : Nat) → Cursors → List (Cue β)
  | 0, _, _ => []
  | count + 1, n, cursors =>
    let (cues, cursors) := t.walk envs n (Beats.ofNat 1) 1 cursors
    cues ++ passes envs t count (n + cues.length) cursors

end Tree

/-- The first steps of a player, asked for one by one, when `n` have been handed out before. -/
def Player.cues {β : Type} [Beats β] (timing : ChordTiming β) (envs : Nat → Env) :
    (count n : Nat) → Player β → List (Cue β)
  | 0, _, _ => []
  | count + 1, n, p =>
    let (step, p) := p.next timing (envs n)
    ⟨step, p.score.cursors⟩ :: cues timing envs count (n + 1) p

namespace Visit

variable {β : Type} [Beats β]

/-! ## What is left of a visit -/

/-- Whether a visit and what it has still to enter are free of chords. -/
def isChordFree : Visit β → Bool
  | done => true
  | within _ inner => inner.isChordFree
  | sequence _ _ _ rest current => Tree.areChordFree rest && current.isChordFree
  | chord .. => false

omit [Beats β] in
theorem isChordFree_sequence {spans : List Span} {gain : Float} {duration : β} {rest : List Tree}
    {current : Visit β} : (sequence spans gain duration rest current).isChordFree = true ↔
      Tree.areChordFree rest = true ∧ current.isChordFree = true := by
  rw [isChordFree, Bool.and_eq_true]

/-- All steps that are left of a visit. -/
def walk (envs : Nat → Env) (n : Nat) (cursors : Cursors) : Visit β → List (Cue β) × Cursors
  | done => ([], cursors)
  | within spans inner =>
    let (cues, cursors) := walk envs n cursors inner
    (cues.map (.under spans), cursors)
  | sequence spans gain duration rest current =>
    let (first, cursors) := walk envs n cursors current
    let (later, cursors) := Tree.walkAll envs (n + first.length) duration gain cursors rest
    ((first ++ later).map (.under spans), cursors)
  | chord .. => ([], cursors)

/-- All steps of some progress: the one that has been reached and those that are left after it. -/
def walkFrom (envs : Nat → Env) (n : Nat) : Progress β × Cursors → List (Cue β) × Cursors
  | (none, cursors) => ([], cursors)
  | (some (step, v), cursors) =>
    let (later, after) := v.walk envs (n + 1) cursors
    (⟨step, cursors⟩ :: later, after)

theorem walkFrom_surround (envs : Nat → Env) (n : Nat) (spans : List Span) (p : Progress β)
    (cursors : Cursors) :
    walkFrom envs n (surround spans p, cursors) =
      ((walkFrom envs n (p, cursors)).1.map (.under spans),
        (walkFrom envs n (p, cursors)).2) := by
  rcases p with _ | ⟨step, v⟩ <;> rfl

theorem length_walkFrom (envs : Nat → Env) (n : Nat) (step : Step β) (v : Visit β)
    (cursors : Cursors) : n + (walkFrom envs n (some (step, v), cursors)).1.length =
      n + 1 + (v.walk envs (n + 1) cursors).1.length := by
  simp only [walkFrom, List.length_cons]
  omega

/-- What a sequence makes of the progress of its present child has the steps of that child and then
those of the children that are left. -/
theorem walkFrom_proceed (timing : ChordTiming β) (envs : Nat → Env) (n : Nat) (duration : β)
    (gain : Float) (spans : List Span) (rest : List Tree) (result : Progress β × Cursors)
    (hrest : ∀ cursors,
      ((Tree.walkAll envs n duration gain cursors rest).1.map (.under spans),
        (Tree.walkAll envs n duration gain cursors rest).2) =
      walkFrom envs n (startFirst timing (envs n) spans duration gain cursors rest)) :
    let first := walkFrom envs n result
    let later := Tree.walkAll envs (n + first.1.length) duration gain first.2 rest
    ((first.1 ++ later.1).map (.under spans), later.2) =
      walkFrom envs n (proceed timing (envs n) duration gain spans rest result.1 result.2) := by
  obtain ⟨_ | ⟨step, v⟩, cursors⟩ := result
  · -- The child ends without a step, so the next one is entered at the same moment.
    exact hrest cursors
  · simp only [length_walkFrom]
    rfl

/-! ## Entering a node makes the progress of its walk -/

variable (timing : ChordTiming β) (envs : Nat → Env)

mutual

theorem walk_eq_walkFrom_start (n : Nat) (duration : β) (gain : Float) (cursors : Cursors) :
    ∀ t : Tree, t.isChordFree = true → t.walk envs n duration gain cursors =
      walkFrom envs n (start timing (envs n) duration gain cursors t)
  | .leaf .., _ => rfl
  | .group _ _ [] _, _ => rfl
  | .group _ .sequence (t :: ts) tag, h => by
    have hts : Tree.areChordFree (t :: ts) = true := h
    rw [start_sequence, ← walkAll_eq_walkFrom_startFirst n tag.spans _ _ cursors (t :: ts) hts]
    rfl
  | .group id .cycle (t :: ts) tag, h => by
    have hts : Tree.areChordFree (t :: ts) = true := h
    rw [start_cycle, walkFrom_surround, ← walkNth_eq_walkFrom_startNth n _ _ _ (t :: ts) _ hts]
    rfl
  | .group _ .chord (_ :: _) _, h => Bool.noConfusion h
  | .modified _ kind amount inner tag, h => by
    have hinner : inner.isChordFree = true := h
    rw [start_modified, walkFrom_surround, ← walk_eq_walkFrom_start n _ _ cursors inner hinner]
    rfl

theorem walkAll_eq_walkFrom_startFirst (n : Nat) (spans : List Span) (duration : β) (gain : Float)
    (cursors : Cursors) :
    ∀ ts : List Tree, Tree.areChordFree ts = true →
      ((Tree.walkAll envs n duration gain cursors ts).1.map (.under spans),
        (Tree.walkAll envs n duration gain cursors ts).2) =
      walkFrom envs n (startFirst timing (envs n) spans duration gain cursors ts)
  | [], _ => rfl
  | t :: ts, h => by
    obtain ⟨ht, hts⟩ := Tree.areChordFree_cons.1 h
    rw [startFirst_cons, Tree.walkAll, walk_eq_walkFrom_start n duration gain cursors t ht]
    exact walkFrom_proceed timing envs n duration gain spans ts _ fun after =>
      walkAll_eq_walkFrom_startFirst n spans duration gain after ts hts

theorem walkNth_eq_walkFrom_startNth (n : Nat) (duration : β) (gain : Float) (cursors : Cursors) :
    ∀ (ts : List Tree) (index : Nat), Tree.areChordFree ts = true →
      Tree.walkNth envs n duration gain cursors ts index =
        walkFrom envs n (startNth timing (envs n) duration gain cursors ts index)
  | [], _, _ => rfl
  | t :: ts, index, h => by
    obtain ⟨ht, hts⟩ := Tree.areChordFree_cons.1 h
    cases index with
    | zero => exact walk_eq_walkFrom_start n duration gain cursors t ht
    | succ index => exact walkNth_eq_walkFrom_startNth n duration gain cursors ts index hts

end

/-- Going on with a visit makes the progress of what is left of its walk. -/
theorem walk_eq_walkFrom_next (n : Nat) (cursors : Cursors) :
    ∀ v : Visit β, v.isChordFree = true →
      v.walk envs n cursors = walkFrom envs n (next timing (envs n) cursors v)
  | done, _ => rfl
  | within spans inner, h => by
    have hinner : inner.isChordFree = true := h
    rw [next_within, walkFrom_surround, ← walk_eq_walkFrom_next n cursors inner hinner]
    rfl
  | sequence spans gain duration rest current, h => by
    obtain ⟨hrest, hcurrent⟩ := isChordFree_sequence.1 h
    rw [next_sequence, walk, walk_eq_walkFrom_next n cursors current hcurrent]
    exact walkFrom_proceed timing envs n duration gain spans rest _ fun after =>
      walkAll_eq_walkFrom_startFirst timing envs n spans duration gain after rest hrest
  | chord .., h => Bool.noConfusion h

/-! ## Without chords, no activation is empty -/

/-- Some progress has been made, and no chord is left to be played. -/
def Proceeds (result : Progress β × Cursors) : Prop :=
  ∃ step v after, result = (some (step, v), after) ∧ v.isChordFree = true

omit [Beats β] in
theorem Proceeds.surround {result : Progress β × Cursors} (h : Proceeds result)
    (spans : List Span) : Proceeds (surround spans result.1, result.2) := by
  obtain ⟨step, v, after, rfl, hv⟩ := h
  exact ⟨step.under spans, within spans v, after, rfl, hv⟩

theorem startFirst_proceeds {timing : ChordTiming β} {env : Env} {spans : List Span} {duration : β}
    {gain : Float} {cursors : Cursors} {t : Tree} {ts : List Tree}
    (ht : Proceeds (start timing env duration gain cursors t))
    (hts : Tree.areChordFree ts = true) :
    Proceeds (startFirst timing env spans duration gain cursors (t :: ts)) := by
  obtain ⟨step, v, after, hstart, hv⟩ := ht
  refine ⟨step.under spans, sequence spans gain duration ts v, after, ?_, ?_⟩
  · rw [startFirst, hstart]
  · exact isChordFree_sequence.2 ⟨hts, hv⟩

mutual

theorem start_proceeds (env : Env) (duration : β) (gain : Float) (cursors : Cursors) :
    ∀ t : Tree, t.isChordFree = true → Proceeds (start timing env duration gain cursors t)
  | .leaf .., _ => ⟨_, done, cursors, rfl, rfl⟩
  | .group _ _ [] _, _ => ⟨_, done, cursors, rfl, rfl⟩
  | .group _ .sequence (t :: ts) tag, h => by
    obtain ⟨ht, hts⟩ := Tree.areChordFree_cons.1 h
    rw [start_sequence]
    exact startFirst_proceeds (start_proceeds env _ _ cursors t ht) hts
  | .group id .cycle (t :: ts) tag, h => by
    have hts : Tree.areChordFree (t :: ts) = true := h
    rw [start_cycle]
    refine (startNth_proceeds env _ _ _ (t :: ts) _ ?_ hts).surround tag.spans
    exact Nat.mod_lt _ (Nat.succ_pos _)
  | .group _ .chord (_ :: _) _, h => Bool.noConfusion h
  | .modified _ kind amount inner tag, h => by
    have hinner : inner.isChordFree = true := h
    rw [start_modified]
    exact (start_proceeds env _ _ cursors inner hinner).surround tag.spans

theorem startNth_proceeds (env : Env) (duration : β) (gain : Float) (cursors : Cursors) :
    ∀ (ts : List Tree) (index : Nat), index < ts.length → Tree.areChordFree ts = true →
      Proceeds (startNth timing env duration gain cursors ts index)
  | [], _, hindex, _ => absurd hindex (Nat.not_lt_zero _)
  | t :: ts, index, hindex, h => by
    obtain ⟨ht, hts⟩ := Tree.areChordFree_cons.1 h
    cases index with
    | zero => exact start_proceeds env duration gain cursors t ht
    | succ index =>
      exact startNth_proceeds env duration gain cursors ts index (Nat.lt_of_succ_lt_succ hindex) hts

end

/-- A visit without chords either is over or proceeds. -/
theorem next_proceeds (env : Env) (cursors : Cursors) :
    ∀ v : Visit β, v.isChordFree = true →
      (∃ after, next timing env cursors v = (none, after)) ∨ Proceeds (next timing env cursors v)
  | done, _ => .inl ⟨cursors, rfl⟩
  | within spans inner, h => by
    have hinner : inner.isChordFree = true := h
    rw [next_within]
    rcases next_proceeds env cursors inner hinner with ⟨after, hover⟩ | hproceeds
    · exact .inl ⟨after, by rw [hover]; rfl⟩
    · exact .inr (hproceeds.surround spans)
  | sequence spans gain duration rest current, h => by
    obtain ⟨hrest, hcurrent⟩ := isChordFree_sequence.1 h
    rw [next]
    rcases next_proceeds env cursors current hcurrent with ⟨after, hover⟩ |
        ⟨step, v, after, hnext, hv⟩
    · rw [hover]
      cases rest with
      | nil => exact .inl ⟨after, rfl⟩
      | cons t ts =>
        obtain ⟨ht, hts⟩ := Tree.areChordFree_cons.1 hrest
        exact .inr (startFirst_proceeds (start_proceeds timing env duration gain after t ht) hts)
    · rw [hnext]
      refine .inr ⟨step.under spans, sequence spans gain duration rest v, after, rfl, ?_⟩
      exact isChordFree_sequence.2 ⟨hrest, hv⟩
  | chord .., h => Bool.noConfusion h

end Visit

/-! ## Playing -/

namespace Player

variable {β : Type} [Beats β] (timing : ChordTiming β) (envs : Nat → Env)

/-- Whether the score and what is left of the present activation are free of chords. -/
def isChordFree (p : Player β) : Bool :=
  p.score.tree.isChordFree && (p.visit.map Visit.isChordFree).getD true

/-- What is left of the present activation, and `count` more passes. -/
def ahead (count n : Nat) (p : Player β) : List (Cue β) :=
  match p.visit with
  | none => p.score.tree.passes envs count n p.score.cursors
  | some v =>
    let (cues, cursors) := v.walk envs n p.score.cursors
    cues ++ p.score.tree.passes envs count (n + cues.length) cursors

theorem passes_succ (t : Tree) (count n : Nat) (cursors : Cursors) {step : Step β} {v : Visit β}
    {after : Cursors} (ht : t.isChordFree = true)
    (hstart : Visit.start timing (envs n) (Beats.ofNat 1) 1 cursors t = (some (step, v), after)) :
    t.passes envs (count + 1) n cursors =
      ⟨step, after⟩ :: ahead envs count (n + 1) ⟨⟨t, after⟩, some v⟩ := by
  have hwalk := Visit.walk_eq_walkFrom_start timing envs n (Beats.ofNat 1) 1 cursors t ht
  rw [hstart] at hwalk
  rw [Tree.passes, hwalk]
  simp only [Visit.length_walkFrom]
  rfl

/-- The next step is the first of those ahead, and the others stay ahead. -/
theorem ahead_eq_cons (count n : Nat) (p : Player β) (hp : p.isChordFree = true) :
    ∃ left step q, count ≤ left ∧ q.isChordFree = true ∧ p.next timing (envs n) = (step, q) ∧
      p.ahead envs (count + 1) n = ⟨step, q.score.cursors⟩ :: q.ahead envs left (n + 1) := by
  obtain ⟨⟨tree, cursors⟩, visit⟩ := p
  cases visit with
  | none =>
    have htree : tree.isChordFree = true := by simpa [isChordFree] using hp
    obtain ⟨step, v, after, hstart, hv⟩ :=
      Visit.start_proceeds timing (envs n) (Beats.ofNat 1) 1 cursors tree htree
    refine ⟨count, step, _, Nat.le_refl _, ?_, next_of_start timing rfl hstart, ?_⟩
    · simp [isChordFree, htree, hv]
    · exact passes_succ timing envs tree count n cursors htree hstart
  | some v =>
    obtain ⟨htree, hv⟩ : tree.isChordFree = true ∧ v.isChordFree = true := by
      simpa [isChordFree] using hp
    have hwalk := Visit.walk_eq_walkFrom_next timing envs n cursors v hv
    rcases Visit.next_proceeds timing (envs n) cursors v hv with ⟨between, hover⟩ |
        ⟨step, v', after, hnext, hv'⟩
    · -- The activation is over: the same pull starts the next pass.
      obtain ⟨step, v', after, hstart, hv'⟩ :=
        Visit.start_proceeds timing (envs n) (Beats.ofNat 1) 1 between tree htree
      refine ⟨count, step, _, Nat.le_refl _, ?_, next_of_over timing rfl hover hstart, ?_⟩
      · simp [isChordFree, htree, hv']
      · rw [hover] at hwalk
        simp only [ahead, hwalk]
        exact passes_succ timing envs tree count n between htree hstart
    · refine ⟨count + 1, step, _, Nat.le_succ _, ?_, next_of_next timing rfl hnext, ?_⟩
      · simp [isChordFree, htree, hv']
      · rw [hnext] at hwalk
        simp only [ahead, hwalk, Visit.length_walkFrom]
        rfl

theorem cues_eq_take_ahead (k count n : Nat) (p : Player β) (hp : p.isChordFree = true)
    (hk : k ≤ count) : p.cues timing envs k n = (p.ahead envs count n).take k := by
  induction k generalizing count n p with
  | zero => rfl
  | succ k ih =>
    obtain ⟨count, rfl⟩ : ∃ c, count = c + 1 := ⟨count - 1, by omega⟩
    obtain ⟨left, step, q, hleft, hq, hnext, hahead⟩ := ahead_eq_cons timing envs count n p hp
    rw [hahead, List.take_succ_cons, cues, hnext, ← ih left (n + 1) q hq (by omega)]

/-- Without chords, the steps of a player and the cursors after each of them are those of the walk
of its root, repeated: the first `k` are the first `k` of any number of passes that is at least
`k`. -/
theorem cues_ofPattern_eq_take_passes (p : Pattern) (hp : p.isChordFree = true) (k count : Nat)
    (hk : k ≤ count) :
    (ofPattern p : Player β).cues timing envs k 0 =
      ((Score.ofPattern p).tree.passes envs count 0 (Score.ofPattern p).cursors).take k := by
  have htree : (Score.ofPattern p).tree.isChordFree = true := by
    rw [← hp]
    exact Tree.isChordFree_number #[] p
  have hplayer : (ofPattern p : Player β).isChordFree = true := by
    simp [isChordFree, ofPattern, htree]
  exact cues_eq_take_ahead timing envs k count 0 (ofPattern p) hplayer hk

/-- The pattern `[ 1 < 10 20 > ]`, whose cycle takes another turn in each pass. -/
def cycleInSequence : Pattern :=
  .collect .sequence
    [.literal (.number 1) ⟨2, 3⟩,
      .collect .cycle [.literal (.number 10) ⟨6, 8⟩, .literal (.number 20) ⟨9, 11⟩]]

theorem cues_cycleInSequence :
    cycleInSequence.isChordFree = true ∧ 4 ≤ 6 ∧
      (ofPattern cycleInSequence : Player Float).cues .usual (fun _ => .zero) 4 0 =
        ((Score.ofPattern cycleInSequence).tree.passes (fun _ => .zero) 6 0
          (Score.ofPattern cycleInSequence).cursors).take 4 :=
  ⟨rfl, by decide, cues_ofPattern_eq_take_passes .usual (fun _ => .zero) cycleInSequence rfl 4 6
    (by decide)⟩

example : (((ofPattern cycleInSequence : Player Float).cues .usual (fun _ => .zero) 4 0).map
    fun c => (c.step.notes.map Note.id, c.cursors.toList)) =
      [([0], [0, 0, 0, 0, 0]), ([1], [0, 0, 0, 1, 0]), ([0], [0, 0, 0, 1, 0]),
        ([2], [0, 0, 0, 2, 0])] := by
  decide

end Player

end PatternSynth
