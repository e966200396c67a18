import Mathlib.Data.List.Nodup
import PatternSynth.Proofs.Tree.Numbering

/-!
# A score as a list of slots

The nodes of a score can be laid out side by side, one slot under each number, so that a node names
its children by their numbers and holds a cursor of its own (`Score.slots`). This loses nothing:
following the numbers from the root reads the pattern back (`Score.read?_ofPattern`). And it shares
nothing: the numbers in a slot are smaller than its own, the root is the last slot, and every other
slot is a part of exactly one (`Score.IsArena`).
-/

namespace PatternSynth

/-- What a score keeps under one number. Other nodes are named by their numbers. -/
inductive Slot where
  | leaf (pattern : Pattern)
  | group (kind : Grouping) (children : List Nat) (cursor : UInt64) (tag : Tag)
  | modified (kind : Modifier) (amount : Pattern) (inner : Nat) (tag : Tag)

namespace Slot

/-- The numbers of the children of a group, or of the inner node of a modifier. -/
def parts : Slot → List Nat
  | leaf _ => []
  | group _ children _ _ => children
  | modified _ _ inner _ => [inner]

/-- The pattern that stands under a number, with the numbers in its slots followed. A part that does
not stand before its slot cannot be read. -/
def read? (slots : List Slot) (id : Nat) : Option Pattern :=
  match slots[id]? with
  | none => none
  | some (leaf pattern) => some pattern
  | some (group kind children cursor tag) =>
    (children.mapM fun i => if i < id then read? slots i else none).map (.group kind · cursor tag)
  | some (modified kind amount inner tag) =>
    (if inner < id then read? slots inner else none).map (.modified kind amount · tag)
termination_by id

end Slot

theorem Cursors.read_push_append (cursors more : Cursors) (cursor : UInt64) :
    read (cursors.push cursor ++ more) cursors.size = cursor := by
  have hget : (cursors.push cursor ++ more)[cursors.size]? = some cursor := by
    rw [Array.getElem?_append_left (by simp), Array.getElem?_push_size]
  rw [read, Array.getD_eq_getD_getElem?, hget, Option.getD_some]

namespace Tree

/-- The slot of the top node. -/
def slot (cursors : Cursors) : Tree → Slot
  | leaf _ pattern => .leaf pattern
  | group id kind children tag => .group kind (children.map Tree.id) (cursors.read id) tag
  | modified _ kind amount inner tag => .modified kind amount inner.id tag

/-- The numbers of the children. -/
def childIds (t : Tree) : List Nat :=
  t.children.map id

theorem parts_slot (cursors : Cursors) (t : Tree) : (t.slot cursors).parts = t.childIds := by
  cases t <;> rfl

mutual

/-- The pattern that a tree stands for with these cursors. -/
def pattern (cursors : Cursors) : Tree → Pattern
  | leaf _ p => p
  | group id kind children tag =>
    .group kind (patternAll cursors children) (cursors.read id) tag
  | modified _ kind amount inner tag => .modified kind amount (inner.pattern cursors) tag

/-- The patterns that trees stand for with these cursors. -/
def patternAll (cursors : Cursors) : List Tree → List Pattern
  | [] => []
  | t :: ts => t.pattern cursors :: patternAll cursors ts

end

/-! ## Numbering a pattern loses nothing -/

mutual

/-- Numbering adds cursors after those it finds. -/
theorem exists_cursors_number (cursors : Cursors) :
    ∀ p : Pattern, ∃ own, (number cursors p).2 = cursors ++ own
  | .atom .. | .operator .. => ⟨#[0], rfl⟩
  | .modified _ _ inner _ => by
    obtain ⟨own, hown⟩ := exists_cursors_number cursors inner
    exact ⟨own.push 0, by rw [number_modified, hown, Array.append_push]⟩
  | .group _ children cursor _ => by
    obtain ⟨own, hown⟩ := exists_cursors_numberAll cursors children
    exact ⟨own.push cursor, by rw [number_group, hown, Array.append_push]⟩

theorem exists_cursors_numberAll (cursors : Cursors) :
    ∀ ps : List Pattern, ∃ own, (numberAll cursors [] ps).2 = cursors ++ own
  | [] => ⟨#[], rfl⟩
  | p :: ps => by
    obtain ⟨first, hfirst⟩ := exists_cursors_number cursors p
    obtain ⟨others, hothers⟩ := exists_cursors_numberAll (number cursors p).2 ps
    exact ⟨first ++ others, by rw [numberAll_cons, hothers, hfirst, Array.append_assoc]⟩

end

mutual

/-- Whatever cursors are added after it, a numbered pattern stands for itself. -/
theorem pattern_number (cursors : Cursors) :
    ∀ (p : Pattern) (more : Cursors),
      (number cursors p).1.pattern ((number cursors p).2 ++ more) = p
  | .atom .., _ | .operator .., _ => rfl
  | .modified kind amount inner tag, more => by
    rw [number_modified, pattern, Array.push_eq_append, Array.append_assoc,
      pattern_number cursors inner]
  | .group kind children cursor tag, more => by
    rw [number_group, pattern, Cursors.read_push_append, Array.push_eq_append, Array.append_assoc,
      patternAll_numberAll cursors children]

theorem patternAll_numberAll (cursors : Cursors) :
    ∀ (ps : List Pattern) (more : Cursors),
      patternAll ((numberAll cursors [] ps).2 ++ more) (numberAll cursors [] ps).1 = ps
  | [], _ => rfl
  | p :: ps, more => by
    obtain ⟨others, hothers⟩ := exists_cursors_numberAll (number cursors p).2 ps
    rw [numberAll_cons, patternAll, patternAll_numberAll (number cursors p).2 ps, hothers,
      Array.append_assoc, pattern_number cursors p]

end

/-! ## Every number but that of the root is the number of one child -/

theorem ids_eq (t : Tree) : t.ids = idsAll t.children ++ [t.id] := by
  rw [← map_id_nodes, nodes_eq, List.map_append, map_id_nodesAll, List.map_singleton]

mutual

theorem perm_childIds_nodes : ∀ t : Tree, (t.nodes.flatMap childIds).Perm (idsAll t.children)
  | leaf .. => .refl _
  | group _ _ children _ => by
    rw [nodes, List.flatMap_append, List.flatMap_singleton]
    exact perm_childIds_nodesAll children
  | modified _ _ _ inner _ => by
    have hinner := (perm_childIds_nodes inner).append_right [inner.id]
    rw [nodes, List.flatMap_append, List.flatMap_singleton, children, idsAll, idsAll,
      List.append_nil, ids_eq inner]
    exact hinner

theorem perm_childIds_nodesAll : ∀ ts : List Tree,
    ((nodesAll ts).flatMap childIds ++ ts.map id).Perm (idsAll ts)
  | [] => .refl _
  | t :: ts => by
    have hfirst := (perm_childIds_nodes t).append_right [t.id]
    have hswap : ((nodesAll ts).flatMap childIds ++ t.id :: ts.map id).Perm
        ([t.id] ++ ((nodesAll ts).flatMap childIds ++ ts.map id)) := List.perm_middle
    rw [nodesAll, List.flatMap_append, List.map_cons, List.append_assoc, idsAll, ids_eq t]
    refine (hswap.append_left _).trans ?_
    rw [← List.append_assoc]
    exact hfirst.append (perm_childIds_nodesAll ts)

end

end Tree

namespace Score

/-- The slots of a score, in the order of their numbers. -/
def slots (s : Score) : List Slot :=
  s.tree.nodes.map (Tree.slot s.cursors)

/-- The pattern that a score stands for, read from its slots. -/
def read? (s : Score) : Option Pattern :=
  Slot.read? s.slots s.tree.id

variable {s : Score}

/-- A child is a node of the score and has a smaller number. -/
theorem Numbered.child (h : s.Numbered) {t c : Tree} (ht : t ∈ s.tree.nodes)
    (hc : c ∈ t.children) : c ∈ s.tree.nodes ∧ c.id < t.id := by
  refine ⟨Tree.mem_nodes_trans (Tree.mem_nodes_of_mem_children hc) ht, ?_⟩
  have hsorted : t.ids.Pairwise (· < ·) := by
    refine List.Pairwise.sublist (Tree.ids_sublist ht) ?_
    rw [h]
    exact List.pairwise_lt_range
  rw [Tree.ids_eq] at hsorted
  exact (List.pairwise_append.1 hsorted).2.2 _ (Tree.ids_subset_idsAll hc c.id_mem_ids) _
    (List.mem_singleton.2 rfl)

theorem Numbered.slots_id (h : s.Numbered) {t : Tree} (ht : t ∈ s.tree.nodes) :
    s.slots[t.id]? = some (t.slot s.cursors) := by
  have hnode : s.tree.nodes[t.id]? = some t := (h.node?_id ht).2
  rw [slots, List.getElem?_map, hnode, Option.map_some]

/-! ## Reading the slots -/

mutual

theorem Numbered.read?_id (h : s.Numbered) : ∀ t : Tree, t ∈ s.tree.nodes →
    Slot.read? s.slots t.id = some (t.pattern s.cursors)
  | .leaf .., ht => by
    rw [Slot.read?, h.slots_id ht]
    rfl
  | .group id kind children tag, ht => by
    have hchildren := h.mapM_read?_id id children fun c hc => h.child ht hc
    rw [Slot.read?, h.slots_id ht]
    exact congrArg (Option.map _) hchildren
  | .modified id kind amount inner tag, ht => by
    obtain ⟨hmem, hlt⟩ := h.child ht (c := inner) (List.mem_singleton.2 rfl)
    rw [Slot.read?, h.slots_id ht]
    simp only [Tree.slot]
    rw [if_pos hlt, h.read?_id inner hmem]
    rfl

theorem Numbered.mapM_read?_id (h : s.Numbered) (bound : Nat) : ∀ ts : List Tree,
    (∀ t ∈ ts, t ∈ s.tree.nodes ∧ t.id < bound) →
      (ts.map Tree.id).mapM (fun i => if i < bound then Slot.read? s.slots i else none) =
        some (Tree.patternAll s.cursors ts)
  | [], _ => rfl
  | t :: ts, hts => by
    obtain ⟨⟨ht, hlt⟩, hothers⟩ := List.forall_mem_cons.1 hts
    rw [List.map_cons, List.mapM_cons, if_pos hlt, h.read?_id t ht,
      h.mapM_read?_id bound ts hothers]
    rfl

end

theorem Numbered.read?_eq (h : s.Numbered) : s.read? = some (s.tree.pattern s.cursors) :=
  h.read?_id s.tree s.tree.self_mem_nodes

/-- Reading the slots of a prepared pattern gives the pattern back. -/
theorem read?_ofPattern (p : Pattern) : (ofPattern p).read? = some p := by
  have hpattern := Tree.pattern_number #[] p #[]
  rw [Array.append_empty] at hpattern
  exact (numbered_ofPattern p).read?_eq.trans (congrArg some hpattern)

/-! ## The shape of the slots -/

/-- The slots hold one tree and share nothing: the root is the last slot, the parts of a slot stand
before it, and every slot but the root is a part of exactly one slot, which names it once. -/
structure IsArena (s : Score) : Prop where
  one_cursor : s.cursors.size = s.slots.length
  root_last : s.slots.length = s.tree.id + 1
  part_lt : ∀ {i : Nat} {slot : Slot}, s.slots[i]? = some slot → ∀ part ∈ slot.parts, part < i
  nodup_parts : ∀ slot ∈ s.slots, slot.parts.Nodup
  one_whole : ∀ i < s.tree.id, ∃! whole : Nat, ∃ slot : Slot,
    s.slots[whole]? = some slot ∧ i ∈ slot.parts

/-- The root has the last number, and the nodes below it have all others. -/
theorem Numbered.root (h : s.Numbered) :
    s.size = s.tree.id + 1 ∧ Tree.idsAll s.tree.children = List.range s.tree.id := by
  have hids : Tree.idsAll s.tree.children ++ [s.tree.id] = List.range s.size :=
    (Tree.ids_eq s.tree).symm.trans h
  cases hsize : s.size with
  | zero =>
    rw [hsize] at hids
    exact absurd hids (List.append_ne_nil_of_right_ne_nil _ (List.cons_ne_nil _ _))
  | succ n =>
    rw [hsize, List.range_succ] at hids
    obtain ⟨hbelow, hroot⟩ := List.append_inj' hids rfl
    obtain ⟨rfl, -⟩ := List.cons.inj hroot
    exact ⟨rfl, hbelow⟩

theorem length_slots (s : Score) : s.slots.length = s.tree.ids.length := by
  rw [slots, List.length_map, ← Tree.map_id_nodes, List.length_map]

/-- A slot is that of the node with its number. -/
theorem Numbered.exists_node (h : s.Numbered) {i : Nat} {slot : Slot}
    (hslot : s.slots[i]? = some slot) :
    ∃ t ∈ s.tree.nodes, t.id = i ∧ t.slot s.cursors = slot := by
  rw [slots, List.getElem?_map, Option.map_eq_some_iff] at hslot
  obtain ⟨t, ht, hslot⟩ := hslot
  have hid : (s.tree.nodes.map Tree.id)[i]? = some t.id := by
    rw [List.getElem?_map, ht, Option.map_some]
  rw [Tree.map_id_nodes, h, List.getElem?_eq_some_iff] at hid
  obtain ⟨hlt, hid⟩ := hid
  rw [List.getElem_range] at hid
  exact ⟨t, List.mem_of_getElem? ht, hid.symm, hslot⟩

/-- All numbers in the slots together are those below the root, each of them once. -/
theorem Numbered.perm_parts (h : s.Numbered) :
    (s.slots.flatMap Slot.parts).Perm (List.range s.tree.id) := by
  have hparts : s.slots.flatMap Slot.parts = s.tree.nodes.flatMap Tree.childIds := by
    rw [slots, List.flatMap_map]
    simp only [Tree.parts_slot]
  rw [hparts, ← h.root.2]
  exact Tree.perm_childIds_nodes s.tree

end Score

/-- If all numbers in the slots are different, a number is in one slot only. -/
theorem Slot.eq_of_mem_parts {slots : List Slot} (hnodup : (slots.flatMap parts).Nodup)
    {i j part : Nat} {a b : Slot} (ha : slots[i]? = some a) (hb : slots[j]? = some b)
    (hpa : part ∈ a.parts) (hpb : part ∈ b.parts) : i = j := by
  have hapart := List.pairwise_iff_getElem.1 (List.nodup_flatMap.1 hnodup).2
  obtain ⟨hi, rfl⟩ := List.getElem?_eq_some_iff.1 ha
  obtain ⟨hj, rfl⟩ := List.getElem?_eq_some_iff.1 hb
  rcases Nat.lt_trichotomy i j with hlt | heq | hgt
  · exact absurd hpb (hapart i j hi hj hlt hpa)
  · exact heq
  · exact absurd hpa (hapart j i hj hi hgt hpb)

theorem Score.Numbered.isArena {s : Score} (h : s.Numbered) : s.IsArena := by
  have hlength : s.slots.length = s.size := by
    rw [Score.length_slots, h, List.length_range]
  have hperm := h.perm_parts
  have hnodup := hperm.nodup_iff.2 List.nodup_range
  refine ⟨hlength.symm, hlength.trans h.root.1, ?_, (List.nodup_flatMap.1 hnodup).1, ?_⟩
  · intro i slot hslot part hpart
    obtain ⟨t, ht, rfl, rfl⟩ := h.exists_node hslot
    rw [Tree.parts_slot] at hpart
    obtain ⟨c, hc, rfl⟩ := List.mem_map.1 hpart
    exact (h.child ht hc).2
  · intro i hi
    obtain ⟨slot, hslot, hpart⟩ := List.mem_flatMap.1 (hperm.mem_iff.2 (List.mem_range.2 hi))
    obtain ⟨whole, hwhole⟩ := List.mem_iff_getElem?.1 hslot
    refine ⟨whole, ⟨slot, hwhole, hpart⟩, ?_⟩
    rintro other ⟨slot', hother, hpart'⟩
    exact Slot.eq_of_mem_parts hnodup hother hwhole hpart' hpart

end PatternSynth
