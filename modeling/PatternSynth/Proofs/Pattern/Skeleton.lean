import PatternSynth.Proofs.Pattern.Broadcast

/-!
# Arithmetic on patterns is nested substitution

The skeleton of a pattern is its top part, which is made of sequences and chords, and its cells are
the scalars below. `Pattern.graft` replaces the cells and leaves the skeleton as it is. An operator
puts the skeleton of its second operand in place of each cell of the first one, that of the third in
place of each cell of those, and so on, and in the end stands over one cell of each operand
(`Pattern.operate_eq_substituted`). So the groups of the result are groups of the operands, and no
operator that is made has a sequence or a chord as an operand.
-/

namespace PatternSynth.Pattern

/-! ## Skeletons -/

mutual

/-- Replace each cell of a pattern, below its sequences and chords. -/
def graft (f : Pattern → Pattern) : Pattern → Pattern
  | group kind children cursor tag =>
    if kind.broadcasts then group kind (graftAll f children) cursor tag
    else f (group kind children cursor tag)
  | atom value tag => f (atom value tag)
  | operator op args tag => f (operator op args tag)
  | modified kind amount inner tag => f (modified kind amount inner tag)

/-- Replace each cell of some patterns. -/
def graftAll (f : Pattern → Pattern) : List Pattern → List Pattern
  | [] => []
  | p :: ps => p.graft f :: graftAll f ps

end

mutual

/-- The cells of a pattern, from left to right. -/
def cells : Pattern → List Pattern
  | group kind children cursor tag =>
    if kind.broadcasts then cellsAll children else [group kind children cursor tag]
  | atom value tag => [atom value tag]
  | operator op args tag => [operator op args tag]
  | modified kind amount inner tag => [modified kind amount inner tag]

/-- The cells of some patterns, from left to right. -/
def cellsAll : List Pattern → List Pattern
  | [] => []
  | p :: ps => p.cells ++ cellsAll ps

end

/-- What a sequence or a chord is apart from its children. -/
structure Frame where
  kind : Grouping
  cursor : UInt64
  tag : Tag
deriving DecidableEq

mutual

/-- The groups of the skeleton, each before those inside it. -/
def frames : Pattern → List Frame
  | group kind children cursor tag =>
    if kind.broadcasts then ⟨kind, cursor, tag⟩ :: framesAll children else []
  | atom .. | operator .. | modified .. => []

/-- The groups of some skeletons. -/
def framesAll : List Pattern → List Frame
  | [] => []
  | p :: ps => p.frames ++ framesAll ps

end

section Scalar

variable {p : Pattern} (h : p.isScalar = true)
include h

theorem graft_scalar (f : Pattern → Pattern) : p.graft f = f p := by
  cases p with
  | group kind children cursor tag => rw [graft, if_neg (by simpa [isScalar] using h)]
  | _ => rfl

theorem cells_scalar : p.cells = [p] := by
  cases p with
  | group kind children cursor tag => rw [cells, if_neg (by simpa [isScalar] using h)]
  | _ => rfl

end Scalar

/-- What holds of scalars, and of every sequence and chord whose children it holds of, holds of all
patterns. -/
theorem skeletonInduction {P : Pattern → Prop} (hscalar : ∀ p, p.isScalar = true → P p)
    (hgroup : ∀ kind children cursor tag, kind.broadcasts = true → (∀ p ∈ children, P p) →
      P (group kind children cursor tag)) : ∀ p, P p
  | group kind children cursor tag => by
    by_cases hkind : kind.broadcasts = true
    · exact hgroup kind children cursor tag hkind fun p _ => skeletonInduction hscalar hgroup p
    · exact hscalar _ (by simpa [isScalar] using hkind)
  | atom .. | operator .. | modified .. => hscalar _ rfl

theorem graftAll_eq_map (f : Pattern → Pattern) (ps : List Pattern) :
    graftAll f ps = ps.map (graft f) := by
  induction ps with
  | nil => rfl
  | cons p ps ih => rw [graftAll, ih, List.map_cons]

theorem cellsAll_eq_flatMap (ps : List Pattern) : cellsAll ps = ps.flatMap cells := by
  induction ps with
  | nil => rfl
  | cons p ps ih => rw [cellsAll, ih, List.flatMap_cons]

theorem framesAll_eq_flatMap (ps : List Pattern) : framesAll ps = ps.flatMap frames := by
  induction ps with
  | nil => rfl
  | cons p ps ih => rw [framesAll, ih, List.flatMap_cons]

section Group

variable {kind : Grouping} (h : kind.broadcasts = true) (children : List Pattern) (cursor : UInt64)
  (tag : Tag)
include h

theorem graft_group (f : Pattern → Pattern) :
    (group kind children cursor tag).graft f = group kind (children.map (graft f)) cursor tag := by
  rw [graft, if_pos h, graftAll_eq_map]

theorem cells_group : (group kind children cursor tag).cells = children.flatMap cells := by
  rw [cells, if_pos h, cellsAll_eq_flatMap]

theorem frames_group :
    (group kind children cursor tag).frames = ⟨kind, cursor, tag⟩ :: children.flatMap frames := by
  rw [frames, if_pos h, framesAll_eq_flatMap]

end Group

theorem isScalar_of_mem_cells {x p : Pattern} (h : x ∈ p.cells) : x.isScalar = true := by
  induction p using skeletonInduction with
  | hscalar p hp =>
    rw [cells_scalar hp, List.mem_singleton] at h
    exact h ▸ hp
  | hgroup kind children cursor tag hkind ih =>
    rw [cells_group hkind, List.mem_flatMap] at h
    obtain ⟨p, hp, hx⟩ := h
    exact ih p hp hx

/-- The cells of what is put in place of the cells are the cells of the result. -/
theorem cells_graft (f : Pattern → Pattern) (p : Pattern) :
    (p.graft f).cells = p.cells.flatMap fun x => (f x).cells := by
  induction p using skeletonInduction with
  | hscalar p hp => rw [graft_scalar hp, cells_scalar hp, List.flatMap_singleton]
  | hgroup kind children cursor tag hkind ih =>
    rw [graft_group hkind, cells_group hkind, cells_group hkind, List.flatMap_map,
      List.flatMap_assoc]
    exact List.flatMap_congr ih

/-- A group of the result is one of the skeleton, or one of what is put in place of a cell. -/
theorem mem_frames_graft {f : Pattern → Pattern} {p : Pattern} {frame : Frame}
    (h : frame ∈ (p.graft f).frames) :
    frame ∈ p.frames ∨ ∃ x ∈ p.cells, frame ∈ (f x).frames := by
  induction p using skeletonInduction with
  | hscalar p hp =>
    rw [graft_scalar hp] at h
    rw [cells_scalar hp]
    exact .inr ⟨p, List.mem_singleton.2 rfl, h⟩
  | hgroup kind children cursor tag hkind ih =>
    rw [graft_group hkind, frames_group hkind, List.mem_cons, List.flatMap_map,
      List.mem_flatMap] at h
    rw [frames_group hkind, cells_group hkind]
    rcases h with rfl | ⟨p, hp, hframe⟩
    · exact .inl List.mem_cons_self
    · rcases ih p hp hframe with hframe | ⟨x, hx, hframe⟩
      · exact .inl (List.mem_cons_of_mem _ (List.mem_flatMap.2 ⟨p, hp, hframe⟩))
      · exact .inr ⟨x, List.mem_flatMap.2 ⟨p, hp, hx⟩, hframe⟩

/-! ## Nested substitution -/

variable (op : Operator) (keyword : Span)

/-- The skeleton of the first operand with the skeleton of the second one in place of each cell, and
so on. In place of the cells of the last operand, the operator stands over the cells chosen on the
way there. -/
def substituted (chosen : List Pattern) : List Pattern → Pattern
  | [] => operator op chosen ⟨chosen.flatMap spans ++ [keyword], none⟩
  | p :: rest => p.graft fun x => substituted (chosen ++ [x]) rest

/-- An operator goes into the skeleton of the next operand, and settles a cell of it. -/
theorem distribute_cons (settled rest : List Pattern) (p : Pattern) :
    distribute op keyword settled (p :: rest) =
      p.graft fun x => distribute op keyword (x :: settled) rest := by
  induction p using skeletonInduction with
  | hscalar p hp => rw [distribute_scalar op keyword hp, graft_scalar hp]
  | hgroup kind children cursor tag hkind ih =>
    rw [distribute_group op keyword hkind, graft_group hkind, List.map_congr_left ih]

theorem distribute_eq_substituted (settled args : List Pattern) :
    distribute op keyword settled args = substituted op keyword settled.reverse args := by
  induction args generalizing settled with
  | nil => rw [distribute, scalarOperator, substituted]
  | cons p rest ih =>
    rw [distribute_cons, substituted]
    congr 1
    funext x
    rw [ih, List.reverse_cons]

theorem operate_eq_substituted (args : List Pattern) :
    operate op args keyword = substituted op keyword [] args := by
  rw [operate, distribute_eq_substituted, List.reverse_nil]

/-- The groups of nested skeletons are groups of the operands. -/
theorem mem_frames_substituted {chosen args : List Pattern} {frame : Frame}
    (h : frame ∈ (substituted op keyword chosen args).frames) : ∃ p ∈ args, frame ∈ p.frames := by
  induction args generalizing chosen with
  | nil => cases h
  | cons p rest ih =>
    rcases mem_frames_graft h with hframe | ⟨x, -, hframe⟩
    · exact ⟨p, List.mem_cons_self, hframe⟩
    · obtain ⟨q, hq, hframe⟩ := ih hframe
      exact ⟨q, List.mem_cons_of_mem p hq, hframe⟩

/-- The cells of nested skeletons are operators over one cell of each operand. -/
theorem mem_cells_substituted {chosen args : List Pattern} {q : Pattern}
    (h : q ∈ (substituted op keyword chosen args).cells) :
    ∃ xs, List.Forall₂ (fun x p => x ∈ p.cells) xs args ∧ (∀ x ∈ xs, x.isScalar = true) ∧
      q = operator op (chosen ++ xs) ⟨(chosen ++ xs).flatMap spans ++ [keyword], none⟩ := by
  induction args generalizing chosen with
  | nil =>
    obtain rfl := List.mem_singleton.1 h
    exact ⟨[], .nil, List.forall_mem_nil _, by rw [List.append_nil]⟩
  | cons p rest ih =>
    rw [substituted, cells_graft, List.mem_flatMap] at h
    obtain ⟨x, hx, hq⟩ := h
    obtain ⟨xs, hxs, hscalars, rfl⟩ := ih hq
    exact ⟨x :: xs, .cons hx hxs, List.forall_mem_cons.2 ⟨isScalar_of_mem_cells hx, hscalars⟩,
      by rw [List.append_assoc, List.singleton_append]⟩

/-- An operator makes of its operands the skeleton of the first one with, in place of each cell, the
skeleton of the second one, and so on to an operator over one cell of each, which has their spans
and that of the keyword. So each sequence and chord of the result is one of an operand, with its
kind, cursor, spans and gain, and below them are operators over scalars only. -/
theorem operate_substitutes (args : List Pattern) :
    operate op args keyword = substituted op keyword [] args ∧
      (∀ frame ∈ (operate op args keyword).frames, ∃ p ∈ args, frame ∈ p.frames) ∧
      ∀ q ∈ (operate op args keyword).cells,
        ∃ xs, q = operator op xs ⟨xs.flatMap spans ++ [keyword], none⟩ ∧
          List.Forall₂ (fun x p => x ∈ p.cells) xs args ∧ ∀ x ∈ xs, x.isScalar = true := by
  refine ⟨operate_eq_substituted op keyword args, ?_, ?_⟩
  · intro frame hframe
    rw [operate_eq_substituted] at hframe
    exact mem_frames_substituted op keyword hframe
  · intro q hq
    rw [operate_eq_substituted] at hq
    obtain ⟨xs, hxs, hscalars, rfl⟩ := mem_cells_substituted op keyword hq
    exact ⟨xs, rfl, hxs, hscalars⟩

end PatternSynth.Pattern
