import PatternSynth.Pattern.Broadcast
import PatternSynth.Proofs.Step.Resemblance

/-!
# Arithmetic on a pattern is arithmetic on what it plays

An arrangement is a pattern of leaves under sequences and chords. An operator between an arrangement
and a scalar becomes the same arrangement, with the operator over each leaf and the scalar
(`Tree.resembles_number_distribute`). The main result of this file is that the two are played alike,
and that each leaf of one reads as the operator applied to the leaf of the other and the scalar. How
operands are searched for sequences and chords is said by `Pattern.operate_eq_findIdx?`.
-/

namespace PatternSynth

namespace Pattern

/-- Whether the pattern is an operand that arithmetic does not look into. -/
def isScalar : Pattern → Bool
  | group kind _ _ _ => !kind.broadcasts
  | atom .. | operator .. | modified .. => true

mutual

/-- Whether the pattern is made of sequences and chords over leaves that have no stored gain. -/
def isArrangement : Pattern → Bool
  | atom _ tag | operator _ _ tag => tag.gain.isNone
  | group kind children _ _ => kind.broadcasts && areArrangements children
  | modified .. => false

/-- Whether all of the patterns are. -/
def areArrangements : List Pattern → Bool
  | [] => true
  | p :: ps => p.isArrangement && areArrangements ps

end

/-! ## Distributing over an arrangement -/

variable (op : Operator) (keyword : Span)

theorem distribute_scalar {p : Pattern} (h : p.isScalar = true) (settled rest : List Pattern) :
    distribute op keyword settled (p :: rest) = distribute op keyword (p :: settled) rest := by
  cases p with
  | group kind children cursor tag =>
    rw [distribute, if_neg (by simpa [isScalar] using h)]
  | _ =>
    rw [distribute]
    intro _ _ _ _ hgroup
    cases hgroup

theorem distribute_append {ps : List Pattern} (h : ∀ p ∈ ps, p.isScalar = true)
    (settled rest : List Pattern) :
    distribute op keyword settled (ps ++ rest) =
      distribute op keyword (ps.reverse ++ settled) rest := by
  induction ps generalizing settled with
  | nil => rfl
  | cons p ps ih =>
    obtain ⟨hp, hps⟩ := List.forall_mem_cons.1 h
    rw [List.cons_append, distribute_scalar op keyword hp, ih hps, List.reverse_cons,
      List.append_assoc, List.singleton_append]

theorem distribute_scalars {ps : List Pattern} (h : ∀ p ∈ ps, p.isScalar = true)
    (settled : List Pattern) :
    distribute op keyword settled ps = scalarOperator op (settled.reverse ++ ps) keyword := by
  rw [← List.append_nil ps, distribute_append op keyword h, distribute, List.reverse_append,
    List.reverse_reverse, List.append_nil]

theorem distribute_group {kind : Grouping} (h : kind.broadcasts = true) (children : List Pattern)
    (cursor : UInt64) (tag : Tag) (settled rest : List Pattern) :
    distribute op keyword settled (group kind children cursor tag :: rest) =
      group kind (children.map fun child => distribute op keyword settled (child :: rest)) cursor
        tag := by
  rw [distribute, if_pos h]

/-- Behind scalars, a sequence or a chord is replaced by each of its children in turn. -/
theorem operate_append_group {kind : Grouping} (hkind : kind.broadcasts = true)
    {before : List Pattern} (hbefore : ∀ p ∈ before, p.isScalar = true) (children : List Pattern)
    (cursor : UInt64) (tag : Tag) (after : List Pattern) :
    operate op (before ++ group kind children cursor tag :: after) keyword =
      group kind (children.map fun child => operate op (before ++ child :: after) keyword) cursor
        tag := by
  simp only [operate, distribute_append op keyword hbefore]
  exact distribute_group op keyword hkind ..

/-- The walk over the operands finds the first one that is a sequence or a chord, puts each of its
children in its place and starts again. -/
theorem operate_eq_findIdx? (args : List Pattern) : operate op args keyword =
    match args.findIdx? fun p => !p.isScalar with
    | none => scalarOperator op args keyword
    | some i =>
      match args[i]? with
      | some (.group kind children cursor tag) =>
        .group kind (children.map fun child => operate op (args.set i child) keyword) cursor tag
      | _ => scalarOperator op args keyword := by
  cases hfind : args.findIdx? fun p => !p.isScalar with
  | none =>
    simp only [List.findIdx?_eq_none_iff, Bool.not_eq_false'] at hfind
    exact distribute_scalars op keyword hfind []
  | some i =>
    obtain ⟨hi, hgroup, hbefore⟩ := List.findIdx?_eq_some_iff_getElem.1 hfind
    have hscalars : ∀ p ∈ args.take i, p.isScalar = true := by
      intro p hp
      obtain ⟨j, hj, rfl⟩ := List.mem_take_iff_getElem.1 hp
      simpa using hbefore j (by omega)
    have hargs : args = args.take i ++ args[i] :: args.drop (i + 1) := by
      rw [List.getElem_cons_drop, List.take_append_drop]
    simp only [List.getElem?_eq_getElem hi, List.set_eq_take_append_cons_drop, if_pos hi]
    cases hp : args[i] with
    | group kind children cursor tag =>
      have hkind : kind.broadcasts = true := by simpa [hp, isScalar] using hgroup
      rw [hp] at hargs
      nth_rewrite 1 [hargs]
      exact operate_append_group op keyword hkind hscalars children cursor tag _
    | _ => simp [hp, isScalar] at hgroup

/-- The second pattern is the operator over the first one, between other operands. -/
def IsOperand (before after : List Pattern) (p q : Pattern) : Prop :=
  q = scalarOperator op (before ++ p :: after) keyword

end Pattern

namespace Tree

open Pattern

variable (op : Operator) (keyword : Span) {settled rest : List Pattern}

mutual

/-- Distributing an operator over an arrangement keeps its shape, its numbers and its cursors, and
puts the operator over each leaf. -/
theorem resembles_number_distribute (hrest : ∀ p ∈ rest, p.isScalar = true) (cursors : Cursors) :
    ∀ a : Pattern, a.isArrangement = true →
      (number cursors a).1.Resembles (IsOperand op keyword settled.reverse rest)
          (number cursors (distribute op keyword settled (a :: rest))).1 ∧
        (number cursors a).2 = (number cursors (distribute op keyword settled (a :: rest))).2
  | .atom value tag, h => by
    rw [distribute_scalars op keyword (List.forall_mem_cons.2 ⟨rfl, hrest⟩)]
    exact ⟨.leaf (Option.isNone_iff_eq_none.1 h) rfl, rfl⟩
  | .operator inner args tag, h => by
    rw [distribute_scalars op keyword (List.forall_mem_cons.2 ⟨rfl, hrest⟩)]
    exact ⟨.leaf (Option.isNone_iff_eq_none.1 h) rfl, rfl⟩
  | .group kind children cursor tag, h => by
    rw [isArrangement, Bool.and_eq_true] at h
    obtain ⟨htrees, hcursors⟩ := resembles_numberAll_distribute hrest cursors children h.2
    rw [distribute_group op keyword h.1, number_group, number_group, ← hcursors]
    exact ⟨.group htrees, rfl⟩

theorem resembles_numberAll_distribute (hrest : ∀ p ∈ rest, p.isScalar = true)
    (cursors : Cursors) : ∀ ps : List Pattern, areArrangements ps = true →
      List.Forall₂ (Resembles (IsOperand op keyword settled.reverse rest))
          (numberAll cursors [] ps).1
          (numberAll cursors []
            (ps.map fun p => distribute op keyword settled (p :: rest))).1 ∧
        (numberAll cursors [] ps).2 = (numberAll cursors []
          (ps.map fun p => distribute op keyword settled (p :: rest))).2
  | [], _ => ⟨.nil, rfl⟩
  | p :: ps, h => by
    rw [areArrangements, Bool.and_eq_true] at h
    obtain ⟨htree, hcursors⟩ := resembles_number_distribute hrest cursors p h.1
    obtain ⟨htrees, hafter⟩ := resembles_numberAll_distribute hrest (number cursors p).2 ps h.2
    rw [List.map_cons, numberAll_cons, numberAll_cons, ← hcursors]
    exact ⟨.cons htree htrees, hafter⟩

end

end Tree

/-! ## Playing -/

variable {β : Type}

/-- As long and as loud, and each note reads as `f` of what it read before. -/
structure Step.Maps (f : Env → Value → Value) (step step' : Step β) : Prop where
  duration : step'.duration = step.duration
  gains : step'.notes.map Note.gain = step.notes.map Note.gain
  values : ∀ env, step'.notes.map (·.pattern.resolve env) =
    step.notes.map fun n => f env (n.pattern.resolve env)

theorem Step.Resembles.maps {R : Pattern → Pattern → Prop} {f : Env → Value → Value}
    {step step' : Step β} (h : step.Resembles R step')
    (hR : ∀ p q env, R p q → q.resolve env = f env (p.resolve env)) : Step.Maps f step step' := by
  obtain ⟨hduration, hnotes⟩ := h
  have hmap {α : Type} {g g' : Note → α} (hg : ∀ n m, n.Resembles R m → g' m = g n) :
      step'.notes.map g' = step.notes.map g := by
    rw [← List.forall₂_eq_eq_eq]
    exact List.rel_map (fun n m h => hg m n h) hnotes.flip
  exact ⟨hduration.symm, hmap fun _ _ h => h.gain.symm,
    fun env => hmap fun n m h => hR n.pattern m.pattern env h.pattern⟩

namespace Pattern

variable [Beats β]

/-- The first steps of a pattern, asked for one by one. -/
def steps (timing : ChordTiming β) (envs : Nat → Env) (count : Nat) (p : Pattern) :
    List (Step β) :=
  ((Player.ofPattern p).cues timing envs count 0).map Cue.step

/-- If an operator over a leaf and the other operands reads as `f` of the leaf, the operator over an
arrangement and those operands plays the arrangement with `f` applied to each note. -/
theorem steps_distribute (op : Operator) (keyword : Span) {settled rest : List Pattern}
    {f : Env → Value → Value} (hrest : ∀ p ∈ rest, p.isScalar = true)
    (hf : ∀ p env, (scalarOperator op (settled.reverse ++ p :: rest) keyword).resolve env =
      f env (p.resolve env))
    {a : Pattern} (ha : a.isArrangement = true) (timing : ChordTiming β) (envs : Nat → Env)
    (count : Nat) :
    List.Forall₂ (Step.Maps f) (a.steps timing envs count)
      ((distribute op keyword settled (a :: rest)).steps timing envs count) := by
  obtain ⟨htree, hcursors⟩ := Tree.resembles_number_distribute op keyword hrest #[] a ha
  have hplayer : (Player.ofPattern a : Player β).Resembles _
      (Player.ofPattern (distribute op keyword settled (a :: rest))) := ⟨htree, hcursors, .none⟩
  refine List.rel_map (fun c c' hstep => ?_) (hplayer.cues timing envs count 0)
  refine Step.Resembles.maps hstep fun p q env hq => ?_
  rw [hq, hf]

/-- Arithmetic commutes with playing. An operator between an arrangement and a scalar, on either
side, gives step for step the durations and the gains of the arrangement, and each of its notes
reads as the operator applied to the note of the arrangement and the scalar. -/
theorem steps_operate (op : Operator) (keyword : Span) {a s : Pattern}
    (ha : a.isArrangement = true) (hs : s.isScalar = true) (timing : ChordTiming β)
    (envs : Nat → Env) (count : Nat) :
    List.Forall₂ (Step.Maps fun env x => op.apply x (some (s.resolve env)))
        (a.steps timing envs count) ((operate op [a, s] keyword).steps timing envs count) ∧
      List.Forall₂ (Step.Maps fun env x => op.apply (s.resolve env) (some x))
        (a.steps timing envs count) ((operate op [s, a] keyword).steps timing envs count) := by
  constructor
  · exact steps_distribute op keyword (List.forall_mem_singleton.2 hs) (fun _ _ => rfl) ha
      timing envs count
  · rw [operate, distribute_scalar op keyword hs]
    exact steps_distribute op keyword (List.forall_mem_nil _) (fun _ _ => rfl) ha timing envs count

/-- The arrangement `[ 1 ( 2 t ) ]`, with a stored gain on its chord. -/
def chordInSequence : Pattern :=
  .collect .sequence
    [.literal (.number 1) ⟨2, 3⟩,
      scaleGain 0.5 (.collect .chord
        [.literal (.number 2) ⟨6, 7⟩, .literal (.var .frame) ⟨8, 9⟩])]

theorem steps_operate_chordInSequence :
    let ten := literal (.number 10) ⟨14, 16⟩
    let played (p : Pattern) : List (Step Float) := p.steps .usual (fun _ => .zero) 3
    chordInSequence.isArrangement = true ∧ ten.isScalar = true ∧
      List.Forall₂ (Step.Maps fun env x => Operator.sub.apply x (some (ten.resolve env)))
        (played chordInSequence) (played (operate .sub [chordInSequence, ten] ⟨17, 18⟩)) ∧
      List.Forall₂ (Step.Maps fun env x => Operator.sub.apply (ten.resolve env) (some x))
        (played chordInSequence) (played (operate .sub [ten, chordInSequence] ⟨17, 18⟩)) :=
  ⟨rfl, rfl, steps_operate .sub ⟨17, 18⟩ rfl rfl .usual (fun _ => .zero) 3⟩

example : (chordInSequence.steps .usual (fun _ => .zero) 3).map (fun step : Step Float =>
    step.notes.map fun n => n.pattern.resolve .zero) =
      [[.number 1], [.number 2, .number 0], [.number 1]] := by
  decide

end Pattern

end PatternSynth
