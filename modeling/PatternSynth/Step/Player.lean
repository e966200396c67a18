import PatternSynth.Step.Visit

/-!
The endless stream of steps of a pattern: its root is entered for one beat at full gain, and again
whenever it has run out.
-/

namespace PatternSynth

/-- A score in the middle of being played. -/
structure Player (β : Type) where
  score : Score
  /-- What is left of the present activation of the root. -/
  visit : Option (Visit β)

namespace Player

variable {β : Type}

/-- A pattern before its first step. -/
def ofPattern (p : Pattern) : Player β :=
  ⟨.ofPattern p, none⟩

/-- Enter the root. -/
@[specialize] def enter [Beats β] (timing : ChordTiming β) (env : Env) (p : Player β) :
    Option (Step β) × Player β :=
  match Visit.start timing env (Beats.ofNat 1) 1 p.score.cursors p.score.tree with
  | (some (s, v), cursors) => (some s, ⟨{ p.score with cursors }, some v⟩)
  | (none, cursors) => (none, ⟨{ p.score with cursors }, none⟩)

/-- Go on with the present activation of the root, or enter it if there is none. -/
@[specialize] def attempt [Beats β] (timing : ChordTiming β) (env : Env) (p : Player β) :
    Option (Step β) × Player β :=
  match p.visit with
  | none => p.enter timing env
  | some visit =>
    match visit.next timing env p.score.cursors with
    | (some (s, v), cursors) => (some s, ⟨{ p.score with cursors }, some v⟩)
    | (none, cursors) => (none, ⟨{ p.score with cursors }, none⟩)

/-- The next step. If two attempts give none, it is a silent beat. -/
@[specialize] def next [Beats β] (timing : ChordTiming β) (env : Env) (p : Player β) :
    Step β × Player β :=
  match p.attempt timing env with
  | (some s, p) => (s, p)
  | (none, p) =>
    match p.attempt timing env with
    | (some s, p) => (s, p)
    | (none, p) => (.rest (Beats.ofNat 1) [], p)

end Player

end PatternSynth
