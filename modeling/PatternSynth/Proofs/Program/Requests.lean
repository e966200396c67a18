import Mathlib.Data.List.Induction
import Mathlib.Data.List.Nodup
import PatternSynth.Proofs.Program.Output
import PatternSynth.Proofs.Tree.Numbering

/-!
# The samples that a program asks for

Collecting the samples of a pattern and preparing the pattern for playing are two walks over it.
They meet the same leaves in the same order: collecting goes over the names in the leaves of the
prepared tree (`Pattern.requestsAfter_eq_foldl`). So a program that is to be played asks for the
names in the leaves of all patterns that play samples, each once and where it first occurs, apart
from the names of builtin words (`requests_of_compile`).
-/

namespace PatternSynth

/-- The name of the sample that a leaf plays: a text or a word that stands there as it is. -/
def Pattern.sampleName? : Pattern → Option String
  | .atom (.text s) _ => some s
  | .atom (.word s) _ => some s
  | _ => none

namespace Tree

/-- The name of the sample that a node plays, if it is a leaf. -/
def sampleName? : Tree → Option String
  | leaf _ p => p.sampleName?
  | _ => none

/-- The names of samples in the leaves of a tree, from left to right. -/
def sampleNames (t : Tree) : List String :=
  t.nodes.filterMap sampleName?

theorem mem_sampleNames {t : Tree} {name : String} :
    name ∈ t.sampleNames ↔
      ∃ id pattern, leaf id pattern ∈ t.nodes ∧ pattern.sampleName? = some name := by
  rw [sampleNames, List.mem_filterMap]
  constructor
  · rintro ⟨node, hnode, hname⟩
    cases node with
    | leaf id pattern => exact ⟨id, pattern, hnode, hname⟩
    | group => cases hname
    | modified => cases hname
  · rintro ⟨id, pattern, hleaf, hname⟩
    exact ⟨leaf id pattern, hleaf, hname⟩

end Tree

/-- The text is not that of a builtin word. -/
def Word.isFree (s : String) : Bool :=
  (Word.ofText? s).isNone

namespace Pattern

/-! ## Collecting names -/

/-- A name that is added to the end of a list is a new one only if it is not there already. -/
theorem eraseDups_concat (names : List String) (name : String) :
    (names ++ [name]).eraseDups =
      if name ∈ names then names.eraseDups else names.eraseDups ++ [name] := by
  rw [List.eraseDups_append, List.removeAll, List.filter_singleton]
  by_cases h : name ∈ names <;> simp [h, List.eraseDups_cons]

theorem nodup_eraseDups (names : List String) : names.eraseDups.Nodup := by
  induction names using List.reverseRecOn with
  | nil => exact List.nodup_nil
  | append_singleton names name ih =>
    rw [eraseDups_concat]
    split
    · exact ih
    · next hname =>
      rw [← List.mem_eraseDups] at hname
      exact List.concat_eq_append ▸ ih.concat hname

theorem toList_request {found : Array String} {names : List String}
    (h : found.toList = names.eraseDups) (name : String) :
    (request found name).toList =
      (if Word.isFree name then names ++ [name] else names).eraseDups := by
  have hmem : name ∈ found ↔ name ∈ names := by
    rw [← Array.mem_toList_iff, h, List.mem_eraseDups]
  simp only [request, Word.isFree, Option.isNone_iff_eq_none, Bool.or_eq_true,
    Array.contains_iff_mem, hmem]
  cases hword : Word.ofText? name with
  | some w => simpa using h
  | none =>
    simp only [Option.isSome_none, Bool.false_eq_true, false_or, if_true, eraseDups_concat]
    split
    · exact h
    · rw [Array.toList_push, h]

/-- Collecting names keeps those that are not builtin words, each where it first occurs. -/
theorem toList_foldl_request {found : Array String} {names : List String}
    (h : found.toList = names.eraseDups) (more : List String) :
    (more.foldl request found).toList = (names ++ more.filter Word.isFree).eraseDups := by
  induction more generalizing found names with
  | nil => rw [List.filter_nil, List.append_nil, List.foldl_nil, h]
  | cons name more ih =>
    rw [List.foldl_cons, ih (toList_request h name), List.filter_cons]
    split
    · rw [List.append_assoc, List.singleton_append]
    · rfl

/-! ## Collecting and preparing -/

mutual

/-- Collecting the samples of a pattern goes over the leaves of the prepared tree. -/
theorem requestsAfter_eq_foldl (found : Array String) (cursors : Cursors) :
    ∀ p : Pattern, p.requestsAfter found =
      (Tree.number cursors p).1.sampleNames.foldl request found
  | atom (.text _) _ => rfl
  | atom (.word _) _ => rfl
  | atom (.number _) _ => rfl
  | atom (.var _) _ => rfl
  | operator .. => rfl
  | group _ children _ _ => by
    rw [requestsAfter, Tree.number_group, Tree.sampleNames, Tree.nodes, List.filterMap_append]
    simp only [List.filterMap_cons, List.filterMap_nil, Tree.sampleName?, List.append_nil]
    exact requestsAfterAll_eq_foldl found cursors children
  | modified _ _ inner _ => by
    rw [requestsAfter, Tree.number, Tree.sampleNames, Tree.nodes, List.filterMap_append]
    simp only [List.filterMap_cons, List.filterMap_nil, Tree.sampleName?, List.append_nil]
    exact requestsAfter_eq_foldl found cursors inner

theorem requestsAfterAll_eq_foldl (found : Array String) (cursors : Cursors) :
    ∀ ps : List Pattern, requestsAfterAll found ps =
      ((Tree.nodesAll (Tree.numberAll cursors [] ps).1).filterMap Tree.sampleName?).foldl
        request found
  | [] => rfl
  | p :: ps => by
    rw [requestsAfterAll, Tree.numberAll_cons, Tree.nodesAll, List.filterMap_append,
      List.foldl_append, requestsAfter_eq_foldl found cursors p]
    exact requestsAfterAll_eq_foldl _ _ ps

end

end Pattern

/-! ## Programs -/

/-- The names of samples in the leaves that a command plays. -/
def Command.sampleNames (c : Command) : List String :=
  if c.waveform = .sample then (Score.ofPattern c.pattern).tree.sampleNames else []

/-- The names of samples in the leaves that a program plays, command by command. -/
def Program.sampleNames (p : Program) : List String :=
  p.commands.flatMap Command.sampleNames

theorem Command.mem_sampleNames {c : Command} {name : String} :
    name ∈ c.sampleNames ↔
      c.waveform = .sample ∧ name ∈ (Score.ofPattern c.pattern).tree.sampleNames := by
  rw [sampleNames]
  split <;> simp [*]

namespace Machine

/-- The samples to fetch are those that the commands name, each where it first occurs. -/
def Collected (m : Machine) : Prop :=
  m.requests.toList =
    ((m.commands.toList.flatMap Command.sampleNames).filter Word.isFree).eraseDups

theorem Collected.output {m m' : Machine} (h : m.Collected) (houtput : Output .commit m m') :
    m'.Collected := by
  cases houtput with
  | kept hcommands hrequests =>
    rw [Collected, hcommands, hrequests]
    exact h
  | retimed hcommands hrequests =>
    rw [Collected, hcommands, hrequests]
    exact h
  | issued w p hcommands hrequests =>
    rw [Collected, hcommands, hrequests, Array.toList_push, List.flatMap_append,
      List.filter_append, List.flatMap_singleton, Command.sampleNames]
    by_cases hw : w = .sample
    · rw [if_pos ⟨rfl, hw⟩, if_pos hw, Pattern.requestsAfter_eq_foldl m.requests #[] p]
      exact Pattern.toList_foldl_request h _
    · rw [if_neg (fun hboth => hw hboth.2), if_neg hw, List.filter_nil, List.append_nil]
      exact h

end Machine

/-- A program to be played asks for the names in the leaves that play samples, but for those of
builtin words, each once and in the order in which they first occur. -/
theorem requests_of_compile {tempo : Float} {source : String} {program : Program}
    (h : compile .commit tempo source = .ok program) :
    program.requests = (program.sampleNames.filter Word.isFree).eraseDups := by
  obtain ⟨m, hm, rfl⟩ := exists_finish_of_output (P := Machine.Collected)
    (fun _ _ hm houtput => hm.output houtput) (fun _ _ _ hm => hm) rfl h
  exact hm

end PatternSynth
