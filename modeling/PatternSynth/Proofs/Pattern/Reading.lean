import Mathlib.Logic.Relation
import PatternSynth.Proofs.Program.Replies

/-!
# What a value is read from, and what of it is shown

The value of a pattern is read from some of its nodes: the operands of an operator, the current
branch of a cycle, the inside of a modifier (`Pattern.readFrom`). The spans that are shown for it
are found by another walk (`Pattern.shownFrom`), which takes the same operands and the same branch
but stops at a modifier. So the spans of a node that is read are shown unless it is read inside a
modifier, and the main result of this file is that nothing else can go missing. What is read inside
a modifier does go missing.
-/

namespace PatternSynth

namespace Pattern

/-- The nodes below this one that its value is read from. -/
def readFrom (env : Env) : Pattern → List Pattern
  | atom _ _ => []
  | operator _ args _ => args.take 2
  | group .cycle children _ _ => children[cycleBranch env.beat children.length]?.toList
  | group _ _ _ _ => []
  | modified _ _ inner _ => [inner]

/-- The nodes below this one whose spans are shown with it. -/
def shownFrom (env : Env) : Pattern → List Pattern
  | operator _ args _ => args
  | group .cycle children _ _ => children[cycleBranch env.beat children.length]?.toList
  | _ => []

/-- The value of the pattern is read from the node, which is the pattern itself or below it. -/
def Reads (env : Env) : Pattern → Pattern → Prop :=
  Relation.ReflTransGen fun p q => q ∈ p.readFrom env

/-- The spans of the node are shown with the pattern. -/
def Shows (env : Env) : Pattern → Pattern → Prop :=
  Relation.ReflTransGen fun p q => q ∈ p.shownFrom env

variable {env : Env} {p q : Pattern}

/-! ## The spans that are shown -/

theorem activeSpansAll_eq (env : Env) (ps : List Pattern) :
    activeSpansAll env ps = ps.flatMap (activeSpans env) := by
  induction ps with
  | nil => rfl
  | cons p ps ih => rw [activeSpansAll, List.flatMap_cons, ih]

theorem activeSpansNth_eq (env : Env) (ps : List Pattern) (index : Nat) :
    activeSpansNth env ps index = ps[index]?.toList.flatMap (activeSpans env) := by
  induction ps generalizing index with
  | nil => rfl
  | cons p ps ih =>
    cases index with
    | zero => simp [activeSpansNth]
    | succ index => exact ih index

/-- A pattern shows its own spans and those of the nodes it goes on to. -/
theorem activeSpans_eq (env : Env) (p : Pattern) :
    p.activeSpans env = p.spans ++ (p.shownFrom env).flatMap (activeSpans env) := by
  cases p with
  | atom value tag => exact (List.append_nil _).symm
  | operator op args tag => rw [activeSpans, activeSpansAll_eq, shownFrom]; rfl
  | group kind children cursor tag =>
    cases kind with
    | cycle => rw [activeSpans, activeSpansNth_eq, shownFrom]; rfl
    | sequence => exact (List.append_nil _).symm
    | chord => exact (List.append_nil _).symm
  | modified kind amount inner tag => exact (List.append_nil _).symm

theorem sizeOf_lt_of_mem_shownFrom (h : q ∈ p.shownFrom env) : sizeOf q < sizeOf p := by
  cases p with
  | operator op args tag =>
    have hargs : sizeOf q < sizeOf args := List.sizeOf_lt_of_mem h
    simp only [operator.sizeOf_spec]
    omega
  | group kind children cursor tag =>
    cases kind with
    | cycle =>
      have hchildren := List.sizeOf_lt_of_mem (List.mem_of_getElem? (Option.mem_toList.1 h))
      simp only [group.sizeOf_spec]
      omega
    | sequence => cases h
    | chord => cases h
  | atom => cases h
  | modified => cases h

theorem Shows.spans_subset (h : p.Shows env q) : q.spans ⊆ p.activeSpans env := by
  induction h using Relation.ReflTransGen.head_induction_on with
  | refl =>
    rw [activeSpans_eq]
    exact List.subset_append_left _ _
  | head hnext _ ih =>
    rw [activeSpans_eq env _]
    intro s hs
    exact List.mem_append_right _ (List.mem_flatMap.2 ⟨_, hnext, ih hs⟩)

theorem exists_shows_of_mem (p : Pattern) {s : Span} (h : s ∈ p.activeSpans env) :
    ∃ q, p.Shows env q ∧ s ∈ q.spans := by
  rw [activeSpans_eq] at h
  rcases List.mem_append.1 h with h | h
  · exact ⟨p, .refl, h⟩
  · obtain ⟨next, hnext, h⟩ := List.mem_flatMap.1 h
    have := sizeOf_lt_of_mem_shownFrom hnext
    obtain ⟨q, hq, hs⟩ := exists_shows_of_mem next h
    exact ⟨q, .head hnext hq, hs⟩
termination_by p

/-- The spans that are shown with a pattern are those of the nodes that are shown with it. -/
theorem mem_activeSpans_iff {s : Span} :
    s ∈ p.activeSpans env ↔ ∃ q, p.Shows env q ∧ s ∈ q.spans :=
  ⟨exists_shows_of_mem p, fun ⟨_, hq, hs⟩ => hq.spans_subset hs⟩

/-! ## Reading and showing -/

/-- Except at a modifier, what is read next is also shown. -/
theorem mem_shownFrom_or_modified (h : q ∈ p.readFrom env) :
    q ∈ p.shownFrom env ∨ ∃ kind amount tag, p = .modified kind amount q tag := by
  cases p with
  | atom => cases h
  | operator op args tag => exact .inl (List.mem_of_mem_take h)
  | group kind children cursor tag =>
    cases kind with
    | cycle => exact .inl h
    | sequence => cases h
    | chord => cases h
  | modified kind amount inner tag =>
    obtain rfl := List.mem_singleton.1 h
    exact .inr ⟨kind, amount, tag, rfl⟩

/-- A node that is read is shown, or it is read inside a modifier. -/
theorem Reads.shows_or_inside (h : p.Reads env q) :
    p.Shows env q ∨ ∃ kind amount inner tag,
      p.Reads env (.modified kind amount inner tag) ∧ inner.Reads env q := by
  induction h using Relation.ReflTransGen.head_induction_on with
  | refl => exact .inl .refl
  | head hnext hrest ih =>
    rcases mem_shownFrom_or_modified hnext with hshown | ⟨kind, amount, tag, rfl⟩
    · rcases ih with hq | ⟨kind, amount, inner, tag, hmodifier, hq⟩
      · exact .inl (.head hshown hq)
      · exact .inr ⟨kind, amount, inner, tag, .head hnext hmodifier, hq⟩
    · exact .inr ⟨kind, amount, _, tag, .refl, hrest⟩

/-- All that a value is read from is shown exactly if what is read inside modifiers is: the spans of
all other nodes that are read are always among those that are shown. -/
theorem activeSpans_cover_iff (env : Env) (p : Pattern) :
    (∀ q, p.Reads env q → q.spans ⊆ p.activeSpans env) ↔
      ∀ kind amount inner tag, p.Reads env (.modified kind amount inner tag) →
        ∀ q, inner.Reads env q → q.spans ⊆ p.activeSpans env := by
  constructor
  · intro h kind amount inner tag hmodifier q hq
    exact h q (hmodifier.trans (.head (List.mem_singleton.2 rfl) hq))
  · intro h q hq
    rcases hq.shows_or_inside with hshown | ⟨kind, amount, inner, tag, hmodifier, hinside⟩
    · exact fun s hs => mem_activeSpans_iff.2 ⟨q, hshown, hs⟩
    · exact h kind amount inner tag hmodifier q hinside

/-- The operand `1 2 vol` of `1 2 vol 3 +`. -/
def quietOne : Pattern :=
  .modify .volume (.literal (.number 2) ⟨2, 3⟩) (.literal (.number 1) ⟨0, 1⟩) ⟨4, 7⟩

/-- What `1 2 vol 3 +` leaves on the stack. -/
def quietOneAndThree : Pattern :=
  .scalarOperator .add [quietOne, .literal (.number 3) ⟨8, 9⟩] ⟨10, 11⟩

theorem operate_quietOne :
    operate .add [quietOne, .literal (.number 3) ⟨8, 9⟩] ⟨10, 11⟩ = quietOneAndThree := by
  simp [operate, distribute, quietOne, modify, literal, quietOneAndThree]

theorem compile_quietOneAndThree :
    (compile .commit 120 "1 2 vol 3 +").map Program.stack = .ok [quietOneAndThree] := by
  have htokens : Token.tokenize "1 2 vol 3 +" = [⟨"1", ⟨0, 1⟩⟩, ⟨"2", ⟨2, 3⟩⟩, ⟨"vol", ⟨4, 7⟩⟩,
      ⟨"3", ⟨8, 9⟩⟩, ⟨"+", ⟨10, 11⟩⟩] := by
    cbv
  have hrun : Machine.performAll .commit [⟨"1", ⟨0, 1⟩⟩, ⟨"2", ⟨2, 3⟩⟩, ⟨"vol", ⟨4, 7⟩⟩,
      ⟨"3", ⟨8, 9⟩⟩, ⟨"+", ⟨10, 11⟩⟩] (.initial 120) =
      ((⟨[], ∅, #[], #[], 120, 0, 6⟩ : Machine).push
        (operate .add [quietOne, .literal (.number 3) ⟨8, 9⟩] ⟨10, 11⟩) ⟨10, 11⟩).bind .ok := by
    rfl
  rw [compile_of_tokens htokens (by decide), hrun, operate_quietOne]
  rfl

/-- The value of `1 2 vol 3 +` is read from the `1`, which is not shown with it. -/
theorem inner_unshown :
    (compile .commit 120 "1 2 vol 3 +").map Program.stack = .ok [quietOneAndThree] ∧
      quietOneAndThree.resolve .zero = .number 4 ∧
      ∃ q, quietOneAndThree.Reads .zero q ∧ ¬ q.spans ⊆ quietOneAndThree.activeSpans .zero := by
  refine ⟨compile_quietOneAndThree, ?_, .literal (.number 1) ⟨0, 1⟩, ?_, ?_⟩
  · decide +kernel
  · exact .head (b := quietOne) List.mem_cons_self (.single List.mem_cons_self)
  · decide

end Pattern

end PatternSynth
