import PatternSynth.Proofs.Pattern.Reading
import PatternSynth.Proofs.Step.Assembly

/-!
# The part of a tree that a step shows

An activation is active in a pull if it holds a step then, and so do all activations above it up to
that of the root (`Activation.Active`, `Player.Active`). Since a node puts its step together from
what its parts hold, the notes of a step are those of the active leaves
(`Activation.Undisturbed.mem_notes_iff`), and its spans are those of the active nodes
(`Activation.Undisturbed.mem_spans_iff`). The active nodes are the active leaves and the active
empty groups, with all nodes above them in the tree. So the main result of this file says which
spans a step of a performance shows, and that it shows no others.
-/

namespace PatternSynth

/-! ## The nodes above a node -/

namespace Tree

theorem sizeOf_lt_of_mem_children {t u : Tree} (h : t ∈ u.children) : sizeOf t < sizeOf u := by
  cases u with
  | leaf => cases h
  | group id kind children tag =>
    have hlt : sizeOf t < sizeOf children := List.sizeOf_lt_of_mem h
    simp only [group.sizeOf_spec]
    omega
  | modified id kind amount inner tag =>
    obtain rfl := List.mem_singleton.1 h
    simp only [modified.sizeOf_spec]
    omega

theorem exists_mem_of_mem_nodesAll {t : Tree} {us : List Tree} (h : t ∈ nodesAll us) :
    ∃ u ∈ us, t ∈ u.nodes := by
  induction us with
  | nil => cases h
  | cons u us ih =>
    rcases List.mem_append.1 h with h | h
    · exact ⟨u, List.mem_cons_self, h⟩
    · obtain ⟨w, hw, ht⟩ := ih h
      exact ⟨w, List.mem_cons_of_mem u hw, ht⟩

/-- A node of a tree is the tree itself or a node of one of its children. -/
theorem eq_or_mem_child {t u : Tree} (h : t ∈ u.nodes) :
    t = u ∨ ∃ c ∈ u.children, t ∈ c.nodes := by
  rw [nodes_eq] at h
  rcases List.mem_append.1 h with h | h
  · exact .inr (exists_mem_of_mem_nodesAll h)
  · exact .inl (List.mem_singleton.1 h)

/-- Two trees of which each is a node of the other are the same. -/
theorem eq_of_mem_nodes {t u : Tree} (ht : t ∈ u.nodes) (hu : u ∈ t.nodes) : t = u := by
  have heq : t.nodes = u.nodes := (nodes_sublist ht).antisymm (nodes_sublist hu)
  have hlast := congrArg List.getLast? heq
  rw [nodes_eq, nodes_eq u, List.getLast?_concat, List.getLast?_concat] at hlast
  exact Option.some.inj hlast

theorem eq_of_mem_ids {ts : List Tree} {c d : Tree} {i : Nat} (hnodup : (idsAll ts).Nodup)
    (hc : c ∈ ts) (hd : d ∈ ts) (hic : i ∈ c.ids) (hid : i ∈ d.ids) : c = d := by
  induction ts with
  | nil => cases hc
  | cons t ts ih =>
    obtain ⟨-, hts, hdisjoint⟩ := List.nodup_append.1 hnodup
    rcases List.mem_cons.1 hc with rfl | hc' <;> rcases List.mem_cons.1 hd with rfl | hd'
    · rfl
    · exact absurd rfl (hdisjoint i hic i (ids_subset_idsAll hd' hid))
    · exact absurd rfl (hdisjoint i hid i (ids_subset_idsAll hc' hic))
    · exact ih hts hc' hd'

/-- If no two nodes share a number, no two children have a node in common. -/
theorem child_unique {t u c d : Tree} (hnodup : u.ids.Nodup) (hc : c ∈ u.children)
    (hd : d ∈ u.children) (htc : t ∈ c.nodes) (htd : t ∈ d.nodes) : c = d := by
  rw [← map_id_nodes, nodes_eq, List.map_append, map_id_nodesAll] at hnodup
  have hid : ∀ {e : Tree}, t ∈ e.nodes → t.id ∈ e.ids :=
    fun h => (ids_sublist h).subset t.id_mem_ids
  exact eq_of_mem_ids (List.nodup_append.1 hnodup).1 hc hd (hid htc) (hid htd)

end Tree

variable {β : Type}

/-! ## Active activations -/

namespace Activation

/-- The spans that a node adds to a step. Those of a leaf are read at the moment it is entered. -/
def ownSpans (a : Activation β) : List Span :=
  match a.tree with
  | .leaf _ pattern => pattern.activeSpans a.entry.env
  | .group _ _ _ tag | .modified _ _ _ _ tag => tag.spans

/-- The note that a leaf adds to a step. -/
def note? (a : Activation β) : Option Note :=
  match a.tree with
  | .leaf id pattern => some ⟨id, pattern, pattern.tag.innerGain a.gain⟩
  | _ => none

theorem ownSpans_of_children {a : Activation β} (ha : a.tree.children ≠ []) :
    a.ownSpans = a.tree.tag.spans := by
  rw [ownSpans]
  cases htree : a.tree with
  | leaf => exact absurd (by rw [htree]; rfl) ha
  | group | modified => rfl

theorem tag_spans_subset (a : Activation β) : a.tree.tag.spans ⊆ a.ownSpans := by
  rw [ownSpans]
  cases a.tree with
  | leaf id pattern =>
    simp only [Pattern.activeSpans_eq]
    exact List.subset_append_left _ _
  | group | modified => exact List.Subset.refl _

theorem children_of_note? {a : Activation β} {note : Note} (h : a.note? = some note) :
    a.tree.children = [] := by
  rw [note?] at h
  cases htree : a.tree with
  | leaf => rfl
  | group | modified => simp only [htree, reduceCtorEq] at h

open Visit

variable [Beats β] {timing : ChordTiming β} {a b : Activation β} {step held : Step β}

variable (timing) in
/-- An activation and one in the course of it, such that both hold a step, and so do all between
them. -/
inductive Active : Activation β → Activation β → Prop where
  | self {a : Activation β} (ha : (a.held? timing).isSome) : Active a a
  | part {a b c : Activation β} (ha : (a.held? timing).isSome) (hpart : Part timing a b)
      (hb : Active b c) : Active a c

/-- A leaf or an empty group gives its own step. -/
theorem held_of_bottom (ha : a.tree.children = []) (hheld : a.held? timing = some held) :
    held.notes = a.note?.toList ∧ held.spans = a.ownSpans := by
  obtain ⟨tree, duration, gain, entry, later⟩ := a
  match tree, later with
  | .leaf _ _, [] | .group _ _ [] _, [] =>
    obtain rfl := Option.some.inj hheld
    exact ⟨rfl, rfl⟩
  | .leaf _ _, _ :: later | .group _ _ [] _, _ :: later =>
    -- One more pull finds it over.
    cases later <;> cases hheld

theorem Part.mem_children (hpart : Part timing a b) (h : a.Undisturbed timing) :
    b.tree ∈ a.tree.children := by
  cases hpart with
  | inside => exact List.mem_singleton.2 rfl
  | branch hbranch => exact List.mem_of_getElem? hbranch
  | element hmem => exact (undisturbed_elements h.pulls hmem).1
  | track ht _ => exact List.mem_of_getElem? ht

/-- What holds of the leaves and the empty groups, and of a node if it holds of its parts, holds of
every activation that is not disturbed. -/
theorem Undisturbed.induction {P : Activation β → Step β → Prop}
    (hbottom : ∀ {a step}, a.tree.children = [] → a.held? timing = some step → P a step)
    (hparts : ∀ {a step}, a.held? timing = some step → a.Assembles timing step →
      (∀ {b held}, Part timing a b → b.held? timing = some held → P b held) → P a step)
    (a : Activation β) {step : Step β} (h : a.Undisturbed timing)
    (hheld : a.held? timing = some step) : P a step := by
  by_cases ha : a.tree.children = []
  · exact hbottom ha hheld
  · refine hparts hheld (h.assembles ha hheld) fun {b held} hpart hb => ?_
    -- The induction is on the tree, since a part is an activation of a child.
    have := Tree.sizeOf_lt_of_mem_children (hpart.mem_children h)
    exact Undisturbed.induction hbottom hparts b (hpart.undisturbed h) hb
termination_by sizeOf a.tree

namespace Active

theorem isSome_held? (h : Active timing a b) : (a.held? timing).isSome := by
  cases h <;> assumption

theorem trans {c : Activation β} (h : Active timing a b) (h' : Active timing b c) :
    Active timing a c := by
  induction h with
  | self => exact h'
  | part ha hpart _ ih => exact .part ha hpart (ih h')

theorem undisturbed (h : Active timing a b) (ha : a.Undisturbed timing) :
    b.Undisturbed timing := by
  induction h with
  | self => exact ha
  | part _ hpart _ ih => exact ih (hpart.undisturbed ha)

theorem mem_nodes (h : Active timing a b) (ha : a.Undisturbed timing) :
    b.tree ∈ a.tree.nodes := by
  induction h with
  | self => exact Tree.self_mem_nodes _
  | part _ hpart _ ih =>
    exact Tree.mem_nodes_trans (ih (hpart.undisturbed ha))
      (Tree.mem_nodes_of_mem_children (hpart.mem_children ha))

/-- What an active part holds is in the step of the whole. -/
theorem subset (h : Active timing a b) (ha : a.Undisturbed timing)
    (hstep : a.held? timing = some step) :
    ∃ held, b.held? timing = some held ∧ held.notes ⊆ step.notes ∧ held.spans ⊆ step.spans := by
  induction h generalizing step with
  | self => exact ⟨step, hstep, List.Subset.refl _, List.Subset.refl _⟩
  | @part a b c _ hpart hb ih =>
    obtain ⟨held, hheld⟩ := Option.isSome_iff_exists.1 hb.isSome_held?
    obtain ⟨lowest, hlowest, hnotes, hspans⟩ := ih (hpart.undisturbed ha) hheld
    have hassembles := ha.assembles (List.ne_nil_of_mem (hpart.mem_children ha)) hstep
    have hholds : a.PartHolds timing held := ⟨b, hpart, hheld⟩
    refine ⟨lowest, hlowest, fun note hnote => ?_, fun span hspan => ?_⟩
    · exact (hassembles.notes note).2 ⟨held, hholds, hnotes hnote⟩
    · exact (hassembles.spans span).2 (.inr ⟨held, hholds, hspans hspan⟩)

/-- All nodes above an active one are active. -/
theorem exists_above (h : Active timing a b) (ha : a.Undisturbed timing) {t : Tree}
    (ht : t ∈ a.tree.nodes) (hb : b.tree ∈ t.nodes) :
    ∃ c, Active timing a c ∧ c.tree = t := by
  induction h with
  | @self a hheld => exact ⟨a, .self hheld, Tree.eq_of_mem_nodes hb ht⟩
  | @part a b c hheld hpart hactive ih =>
    have hb' := hpart.undisturbed ha
    have hchild := hpart.mem_children ha
    rcases Tree.eq_or_mem_child ht with rfl | ⟨u, hu, htu⟩
    · exact ⟨a, .self hheld, rfl⟩
    · -- The child that has the node below it is the one that is played.
      obtain rfl : u = b.tree := Tree.child_unique ha.nodup hu hchild
        (Tree.mem_nodes_trans hb htu) (hactive.mem_nodes hb')
      obtain ⟨d, hd, htree⟩ := ih hb' htu hb
      exact ⟨d, .part hheld hpart hd, htree⟩

end Active

namespace Undisturbed

theorem exists_bottom (h : a.Undisturbed timing) (hstep : a.held? timing = some step) :
    ∃ b, Active timing a b ∧ b.tree.children = [] := by
  refine Undisturbed.induction (P := fun a _ => ∃ b, Active timing a b ∧ b.tree.children = [])
    ?_ ?_ a h hstep
  · intro a step ha hstep
    exact ⟨a, .self (hstep ▸ rfl), ha⟩
  · intro a step hstep hassembles ih
    obtain ⟨held, b, hpart, hheld⟩ := hassembles.part
    obtain ⟨c, hc, hbottom⟩ := ih hpart hheld
    exact ⟨c, .part (hstep ▸ rfl) hpart hc, hbottom⟩

/-- The notes of a step are those of the active leaves. -/
theorem mem_notes_iff (h : a.Undisturbed timing) (hstep : a.held? timing = some step)
    (note : Note) : note ∈ step.notes ↔ ∃ b, Active timing a b ∧ b.note? = some note := by
  constructor
  · refine Undisturbed.induction (P := fun a step => note ∈ step.notes →
      ∃ b, Active timing a b ∧ b.note? = some note) ?_ ?_ a h hstep
    · intro a step ha hstep hnote
      rw [(held_of_bottom ha hstep).1, Option.mem_toList] at hnote
      exact ⟨a, .self (hstep ▸ rfl), hnote⟩
    · intro a step hstep hassembles ih hnote
      obtain ⟨held, ⟨b, hpart, hheld⟩, hnote⟩ := (hassembles.notes note).1 hnote
      obtain ⟨c, hc, hown⟩ := ih hpart hheld hnote
      exact ⟨c, .part (hstep ▸ rfl) hpart hc, hown⟩
  · rintro ⟨b, hb, hnote⟩
    obtain ⟨held, hheld, hnotes, -⟩ := hb.subset h hstep
    apply hnotes
    rw [(held_of_bottom (children_of_note? hnote) hheld).1, Option.mem_toList]
    exact hnote

/-- The spans of a step are those of the active nodes. -/
theorem mem_spans_iff (h : a.Undisturbed timing) (hstep : a.held? timing = some step)
    (span : Span) : span ∈ step.spans ↔ ∃ b, Active timing a b ∧ span ∈ b.ownSpans := by
  constructor
  · refine Undisturbed.induction (P := fun a step => span ∈ step.spans →
      ∃ b, Active timing a b ∧ span ∈ b.ownSpans) ?_ ?_ a h hstep
    · intro a step ha hstep hspan
      rw [(held_of_bottom ha hstep).2] at hspan
      exact ⟨a, .self (hstep ▸ rfl), hspan⟩
    · intro a step hstep hassembles ih hspan
      rcases (hassembles.spans span).1 hspan with hspan | ⟨held, ⟨b, hpart, hheld⟩, hspan⟩
      · exact ⟨a, .self (hstep ▸ rfl), a.tag_spans_subset hspan⟩
      · obtain ⟨c, hc, hown⟩ := ih hpart hheld hspan
        exact ⟨c, .part (hstep ▸ rfl) hpart hc, hown⟩
  · rintro ⟨b, hb, hspan⟩
    obtain ⟨held, hheld, -, hspans⟩ := hb.subset h hstep
    apply hspans
    by_cases hchildren : b.tree.children = []
    · rw [(held_of_bottom hchildren hheld).2]
      exact hspan
    · rw [ownSpans_of_children hchildren] at hspan
      exact (((hb.undisturbed h).assembles hchildren hheld).spans span).2 (.inl hspan)

/-- The spans of a step are those of the active leaves and of the active empty groups, and those of
the nodes above them. -/
theorem mem_spans_iff_above (h : a.Undisturbed timing) (hstep : a.held? timing = some step)
    (span : Span) : span ∈ step.spans ↔
      ∃ b, Active timing a b ∧ b.tree.children = [] ∧ (span ∈ b.ownSpans ∨
        ∃ t ∈ a.tree.nodes, b.tree ∈ t.nodes ∧ span ∈ t.tag.spans) := by
  rw [h.mem_spans_iff hstep]
  constructor
  · rintro ⟨c, hc, hspan⟩
    have hbelow := hc.undisturbed h
    by_cases hchildren : c.tree.children = []
    · exact ⟨c, hc, hchildren, .inl hspan⟩
    · obtain ⟨held, hheld, -, -⟩ := hc.subset h hstep
      obtain ⟨b, hb, hbottom⟩ := hbelow.exists_bottom hheld
      rw [ownSpans_of_children hchildren] at hspan
      exact ⟨b, hc.trans hb, hbottom,
        .inr ⟨c.tree, hc.mem_nodes h, hb.mem_nodes hbelow, hspan⟩⟩
  · rintro ⟨b, hb, -, hspan | ⟨t, ht, hbelow, hspan⟩⟩
    · exact ⟨b, hb, hspan⟩
    · obtain ⟨c, hc, rfl⟩ := hb.exists_above h ht hbelow
      exact ⟨c, hc, c.tag_spans_subset hspan⟩

end Undisturbed

end Activation

/-! ## The steps of a performance -/

namespace Player

open Visit

variable [Beats β] (timing : ChordTiming β)

/-- Neither attempt gives a step, so that the next step is a silent beat. -/
def Rests (p : Player β) (env : Env) : Prop :=
  (p.attempt timing env).1 = none ∧ ((p.attempt timing env).2.attempt timing env).1 = none

/-- The activation is active in the pull after `n` others: it holds a step then, and so do all above
it up to an activation of the root. -/
def Active (envs : Nat → Env) (p : Player β) (n : Nat) (b : Activation β) : Prop :=
  ∃ m count cursors, m + count = n ∧ p.Enters timing envs m cursors ∧
    (p.rootActivation timing envs m count cursors).Active timing b

variable {timing} {envs : Nat → Env} {p : Player β} {n m count : Nat} {cursors left : Cursors}
  {step : Step β} {v : Visit β}

theorem length_later :
    (p.rootActivation timing envs m count cursors).later.length = count := by
  rw [rootActivation, List.length_map, List.length_range']

theorem later_succ :
    (p.rootActivation timing envs m (count + 1) cursors).later =
      (p.rootActivation timing envs m count cursors).later ++
        [⟨envs (m + count + 1), (p.after timing envs (m + count + 1)).score.cursors⟩] := by
  rw [rootActivation, List.range'_1_concat, List.map_append, Nat.add_right_comm m 1 count]
  rfl

/-- The player hands out what the activation of the root holds. -/
theorem next_eq_of_last (henters : p.Enters timing envs m cursors)
    (hlast : (p.rootActivation timing envs m count cursors).last timing =
      (some (step, v), left)) :
    (p.after timing envs (m + count)).next timing (envs (m + count)) =
      (step, ⟨⟨p.score.tree, left⟩, some v⟩) := by
  have hreply := Activation.getElem?_replies hlast
  rw [length_later] at hreply
  exact next_eq_of_rootActivation henters hreply

theorem after_eq_of_last (henters : p.Enters timing envs m cursors)
    (hlast : (p.rootActivation timing envs m count cursors).last timing =
      (some (step, v), left)) :
    p.after timing envs (m + count + 1) = ⟨⟨p.score.tree, left⟩, some v⟩ := by
  rw [Player.after, next_eq_of_last henters hlast]

/-- The next pull finds the activation of the root where the last one has left it. -/
theorem last_succ (henters : p.Enters timing envs m cursors)
    (hlast : (p.rootActivation timing envs m count cursors).last timing =
      (some (step, v), left)) :
    (p.rootActivation timing envs m (count + 1) cursors).last timing =
      v.next timing (envs (m + count + 1)) left := by
  have hconcat := final_concat ⟨envs (m + count + 1), left⟩ hlast
  rw [Activation.last, later_succ, after_eq_of_last henters hlast]
  exact hconcat

theorem last_zero (cursors : Cursors) :
    (p.rootActivation timing envs n 0 cursors).last timing =
      start timing (envs n) (Beats.ofNat 1) 1 cursors p.score.tree :=
  final_nil

theorem visit_of_rests {env : Env} (h : p.Rests timing env) :
    (p.next timing env).2.visit = none := by
  obtain ⟨hfirst, hsecond⟩ := h
  rw [next]
  split
  · next step q hq =>
    rw [hq] at hfirst
    cases hfirst
  · next q hq =>
    rw [hq] at hsecond
    split
    · next step r hr =>
      rw [hr] at hsecond
      cases hsecond
    · next r hr => exact visit_of_attempt_none timing hr

/-- A player that does not rest enters the root anew if its first attempt gives no step. -/
theorem exists_start_of_attempt_none {q : Player β}
    (h : ¬ (p.after timing envs n).Rests timing (envs n))
    (hattempt : (p.after timing envs n).attempt timing (envs n) = (none, q)) :
    ∃ step v left, start timing (envs n) (Beats.ofNat 1) 1 q.score.cursors p.score.tree =
      (some (step, v), left) := by
  have htree : q.score.tree = p.score.tree := (tree_of_attempt timing hattempt).trans (tree_after n)
  rcases hstart : start timing (envs n) (Beats.ofNat 1) 1 q.score.cursors p.score.tree with
    ⟨_ | ⟨step, v⟩, left⟩
  · refine absurd ⟨by rw [hattempt], ?_⟩ h
    rw [hattempt, attempt_eq, reply, visit_of_attempt_none timing hattempt, htree, hstart]
    rfl
  · exact ⟨step, v, left, rfl⟩

variable (timing) in
/-- What a player keeps after `n` pulls is where an activation of the root has got to. -/
def Going (envs : Nat → Env) (p : Player β) (n : Nat) : Prop :=
  ∀ v, (p.after timing envs n).visit = some v → ∃ m count cursors step, m + count + 1 = n ∧
    p.Enters timing envs m cursors ∧
    (p.rootActivation timing envs m count cursors).last timing =
      (some (step, v), (p.after timing envs n).score.cursors)

/-- A player that does not rest enters the root or goes on with its activation. -/
theorem Going.exists_rootActivation (hgoing : p.Going timing envs n)
    (h : ¬ (p.after timing envs n).Rests timing (envs n)) :
    ∃ m count cursors, m + count = n ∧ p.Enters timing envs m cursors ∧
      ((p.rootActivation timing envs m count cursors).held? timing).isSome := by
  rcases hattempt : (p.after timing envs n).attempt timing (envs n) with ⟨_ | step, q⟩
  · obtain ⟨step, v, left, hstart⟩ := exists_start_of_attempt_none h hattempt
    refine ⟨n, 0, q.score.cursors, rfl, .inr ⟨q, hattempt, rfl⟩, ?_⟩
    rw [Activation.held?, last_zero, hstart]
    rfl
  · have hreply := congrArg Prod.fst hattempt
    rw [attempt_eq, reply] at hreply
    cases hvisit : (p.after timing envs n).visit with
    | none =>
      refine ⟨n, 0, _, rfl, .inl ⟨hvisit, rfl⟩, ?_⟩
      rw [hvisit, tree_after] at hreply
      rw [Activation.held?, last_zero]
      exact Option.isSome_of_eq_some hreply
    | some v =>
      obtain ⟨m, count, cursors, held, rfl, henters, hlast⟩ := hgoing v hvisit
      refine ⟨m, count + 1, cursors, rfl, henters, ?_⟩
      rw [hvisit] at hreply
      rw [Activation.held?, last_succ henters hlast]
      exact Option.isSome_of_eq_some hreply

theorem going (hvisit : p.visit = none) (n : Nat) : p.Going timing envs n := by
  induction n with
  | zero => exact fun v hv => nomatch hvisit.symm.trans hv
  | succ n ih =>
    intro v hv
    have hrests : ¬ (p.after timing envs n).Rests timing (envs n) :=
      fun h => nomatch (visit_of_rests h).symm.trans hv
    obtain ⟨m, count, cursors, rfl, henters, hheld⟩ := ih.exists_rootActivation hrests
    obtain ⟨step, v', left, -, hlast⟩ := Activation.exists_last hheld
    rw [after_eq_of_last henters hlast] at hv ⊢
    obtain rfl := Option.some.inj hv
    exact ⟨m, count, cursors, step, rfl, henters, hlast⟩

/-- What an activation of the root holds is the step that the player hands out. -/
theorem held?_rootActivation (hnodup : p.score.tree.ids.Nodup)
    (henters : p.Enters timing envs m cursors)
    (hheld : ((p.rootActivation timing envs m count cursors).held? timing).isSome) :
    (p.rootActivation timing envs m count cursors).Undisturbed timing ∧
      (p.rootActivation timing envs m count cursors).held? timing =
        some ((p.after timing envs (m + count)).next timing (envs (m + count))).1 := by
  obtain ⟨step, v, left, hheld, hlast⟩ := Activation.exists_last hheld
  have hlength := Activation.length_replies hlast
  rw [length_later] at hlength
  rw [next_eq_of_last henters hlast]
  exact ⟨(Activates.root henters hlength).undisturbed hnodup, hheld⟩

/-- What is decided by the active activations below any activation of the root that holds the step
is decided by the active activations of the performance. -/
theorem iff_exists_active {X : Prop} {Q : Activation β → Prop} (hvisit : p.visit = none)
    (hnodup : p.score.tree.ids.Nodup) (hstep : ¬ (p.after timing envs n).Rests timing (envs n))
    (h : ∀ a : Activation β, a.tree = p.score.tree → a.Undisturbed timing →
      a.held? timing = some ((p.after timing envs n).next timing (envs n)).1 →
      (X ↔ ∃ b, a.Active timing b ∧ Q b)) :
    X ↔ ∃ b, p.Active timing envs n b ∧ Q b := by
  constructor
  · intro hx
    obtain ⟨m, count, cursors, rfl, henters, hheld⟩ := (going hvisit n).exists_rootActivation hstep
    obtain ⟨hundisturbed, hroot⟩ := held?_rootActivation hnodup henters hheld
    obtain ⟨b, hb, hq⟩ := (h _ rfl hundisturbed hroot).1 hx
    exact ⟨b, ⟨m, count, cursors, rfl, henters, hb⟩, hq⟩
  · rintro ⟨b, ⟨m, count, cursors, rfl, henters, hb⟩, hq⟩
    obtain ⟨hundisturbed, hroot⟩ := held?_rootActivation hnodup henters hb.isSome_held?
    exact (h _ rfl hundisturbed hroot).2 ⟨b, hb, hq⟩

/-- Whatever is played and whenever it is pulled, a step that is not the silent beat of a player at
rest has the notes of the active leaves, and it shows exactly the spans of the active leaves and of
the active empty groups, each leaf's as they are when it is entered, and those of all nodes above
them. -/
theorem step_shows_active (pattern : Pattern) (timing : ChordTiming β) (envs : Nat → Env) (n : Nat)
    (hstep : ¬ ((ofPattern pattern).after timing envs n).Rests timing (envs n)) :
    let step := (((ofPattern pattern).after timing envs n).next timing (envs n)).1
    let tree := (Score.ofPattern pattern).tree
    (∀ note, note ∈ step.notes ↔
      ∃ b, (ofPattern pattern).Active timing envs n b ∧ b.note? = some note) ∧
    ∀ span, span ∈ step.spans ↔
      ∃ b, (ofPattern pattern).Active timing envs n b ∧ b.tree.children = [] ∧
        (span ∈ b.ownSpans ∨ ∃ t ∈ tree.nodes, b.tree ∈ t.nodes ∧ span ∈ t.tag.spans) := by
  have hnodup := Tree.nodup_ids_ofPattern pattern
  refine ⟨fun note => ?_, fun span => ?_⟩
  · exact iff_exists_active rfl hnodup hstep fun a _ ha hheld => ha.mem_notes_iff hheld note
  · refine iff_exists_active rfl hnodup hstep fun a htree ha hheld => ?_
    rw [ha.mem_spans_iff_above hheld span, htree]
    rfl

/-- The pattern `( < 1 2 > 3 vol [ 4 [ ] ] )`, a cycle under a modifier beside a sequence that ends
with an empty group. -/
def loudCycleBesideRest : Pattern :=
  .collect .chord
    [.modify .volume (.literal (.number 3) ⟨10, 11⟩)
        (.collect .cycle [.literal (.number 1) ⟨4, 5⟩, .literal (.number 2) ⟨6, 7⟩]) ⟨12, 15⟩,
      .collect .sequence [.literal (.number 4) ⟨18, 19⟩, .collect .sequence []]]

/-- The second step of `loudCycleBesideRest` shows the modifier, but neither the branch that is not
played nor the element of the sequence that is over. -/
theorem loudCycleBesideRest_shows :
    let player : Player Float := ofPattern loudCycleBesideRest
    let tree := (Score.ofPattern loudCycleBesideRest).tree
    let shown := fun span => ∃ b, player.Active .usual (fun _ => .zero) 1 b ∧
      b.tree.children = [] ∧
        (span ∈ b.ownSpans ∨ ∃ t ∈ tree.nodes, b.tree ∈ t.nodes ∧ span ∈ t.tag.spans)
    ¬ (player.after .usual (fun _ => .zero) 1).Rests .usual .zero ∧
      shown ⟨4, 5⟩ ∧ shown ⟨12, 15⟩ ∧ ¬ shown ⟨6, 7⟩ ∧ ¬ shown ⟨18, 19⟩ := by
  have hstep : ¬ ((ofPattern loudCycleBesideRest : Player Float).after .usual (fun _ => .zero)
      1).Rests .usual .zero := fun h => absurd h.1 (by decide)
  obtain ⟨-, hspans⟩ := step_shows_active loudCycleBesideRest .usual (fun _ => .zero) 1 hstep
  refine ⟨hstep, (hspans _).1 (by decide), (hspans _).1 (by decide), fun h => ?_, fun h => ?_⟩
  · exact absurd ((hspans _).2 h) (by decide)
  · exact absurd ((hspans _).2 h) (by decide)

end Player

end PatternSynth
