import PatternSynth.Tree

/-!
# The numbers of a prepared pattern

`Tree.ids` lists the numbers of a tree in the order in which its nodes are completed. Preparing a
pattern gives its nodes consecutive numbers in that order (`ids_number`), so that no two nodes of a
score share a number and the parts of a score that are entered side by side share no cursor. So a
number tells where its node stands among all of them (`Score.Numbered.node?_id`).
-/

namespace PatternSynth.Tree

/-! ## Numbering from left to right -/

theorem numberAll_step (cursors : Cursors) (done : List Tree) (p : Pattern) (ps : List Pattern) :
    numberAll cursors done (p :: ps) =
      numberAll (number cursors p).2 ((number cursors p).1 :: done) ps := rfl

theorem numberAll_eq_append (ps : List Pattern) (cursors : Cursors) (done : List Tree) :
    numberAll cursors done ps =
      (done.reverse ++ (numberAll cursors [] ps).1, (numberAll cursors [] ps).2) := by
  induction ps generalizing cursors done with
  | nil => simp [numberAll]
  | cons p ps ih =>
    rw [numberAll_step, ih, numberAll_step, ih _ [_]]
    simp

theorem numberAll_cons (cursors : Cursors) (p : Pattern) (ps : List Pattern) :
    numberAll cursors [] (p :: ps) =
      ((number cursors p).1 :: (numberAll (number cursors p).2 [] ps).1,
        (numberAll (number cursors p).2 [] ps).2) := by
  rw [numberAll_step, numberAll_eq_append]
  rfl

theorem number_group (cursors : Cursors) (kind : Grouping) (children : List Pattern)
    (cursor : UInt64) (tag : Tag) :
    number cursors (.group kind children cursor tag) =
      (group (numberAll cursors [] children).2.size kind (numberAll cursors [] children).1 tag,
        (numberAll cursors [] children).2.push cursor) := rfl

theorem number_modified (cursors : Cursors) (kind : Modifier) (amount inner : Pattern) (tag : Tag) :
    number cursors (.modified kind amount inner tag) =
      (modified (number cursors inner).2.size kind amount (number cursors inner).1 tag,
        (number cursors inner).2.push 0) := rfl

theorem length_numberAll (ps : List Pattern) (cursors : Cursors) :
    (numberAll cursors [] ps).1.length = ps.length := by
  induction ps generalizing cursors with
  | nil => rfl
  | cons p ps ih => rw [numberAll_cons, List.length_cons, ih, List.length_cons]

/-! ## The numbers of a tree -/

mutual

/-- The numbers of a tree, in the order in which its nodes are completed. -/
def ids : Tree → List Nat
  | leaf i _ => [i]
  | group i _ children _ => idsAll children ++ [i]
  | modified i _ _ inner _ => inner.ids ++ [i]

/-- The numbers of trees from left to right. -/
def idsAll : List Tree → List Nat
  | [] => []
  | t :: ts => t.ids ++ idsAll ts

end

theorem idsAll_append (ts us : List Tree) : idsAll (ts ++ us) = idsAll ts ++ idsAll us := by
  induction ts with
  | nil => rfl
  | cons t ts ih => rw [List.cons_append, idsAll, idsAll, ih, List.append_assoc]

theorem ids_subset_idsAll {t : Tree} {ts : List Tree} (h : t ∈ ts) : t.ids ⊆ idsAll ts := by
  obtain ⟨before, after, rfl⟩ := List.append_of_mem h
  rw [idsAll_append, idsAll]
  exact fun i hi => List.mem_append_right _ (List.mem_append_left _ hi)

mutual

/-- The nodes of a pattern get the next numbers, one after another. -/
theorem ids_number (cursors : Cursors) :
    ∀ p : Pattern, ∃ n, (number cursors p).2.size = cursors.size + n ∧
      (number cursors p).1.ids = List.range' cursors.size n
  | .atom .. => ⟨1, Array.size_push _, rfl⟩
  | .operator .. => ⟨1, Array.size_push _, rfl⟩
  | .modified _ _ inner _ => by
    obtain ⟨n, hsize, hids⟩ := ids_number cursors inner
    refine ⟨n + 1, ?_, ?_⟩
    · rw [number, Array.size_push, hsize, Nat.add_assoc]
    · rw [number, ids, hids, hsize, List.range'_1_concat]
  | .group _ children _ _ => by
    obtain ⟨n, hsize, hids⟩ := idsAll_numberAll cursors children
    refine ⟨n + 1, ?_, ?_⟩
    · rw [number, Array.size_push, hsize, Nat.add_assoc]
    · rw [number, ids, hids, hsize, List.range'_1_concat]

theorem idsAll_numberAll (cursors : Cursors) :
    ∀ ps : List Pattern, ∃ n, (numberAll cursors [] ps).2.size = cursors.size + n ∧
      idsAll (numberAll cursors [] ps).1 = List.range' cursors.size n
  | [] => ⟨0, rfl, rfl⟩
  | p :: ps => by
    obtain ⟨m, hsize, hids⟩ := ids_number cursors p
    obtain ⟨n, hsizes, hidss⟩ := idsAll_numberAll (number cursors p).2 ps
    refine ⟨m + n, ?_, ?_⟩
    · rw [numberAll_cons, hsizes, hsize, Nat.add_assoc]
    · rw [numberAll_cons, idsAll, hids, hidss, hsize, List.range'_append_1]

end

/-- No two nodes of a prepared pattern have the same number. -/
theorem nodup_ids_ofPattern (p : Pattern) : (Score.ofPattern p).tree.ids.Nodup := by
  obtain ⟨n, -, hids⟩ := ids_number #[] p
  have h : (Score.ofPattern p).tree = (number #[] p).1 := rfl
  rw [h, hids]
  exact List.nodup_range'

/-! ## The nodes of a tree -/

mutual

/-- The nodes of a tree, in the order in which they are completed. -/
def nodes : Tree → List Tree
  | leaf i p => [leaf i p]
  | group i kind children tag => nodesAll children ++ [group i kind children tag]
  | modified i kind amount inner tag => inner.nodes ++ [modified i kind amount inner tag]

/-- The nodes of trees from left to right. -/
def nodesAll : List Tree → List Tree
  | [] => []
  | t :: ts => t.nodes ++ nodesAll ts

end

theorem nodes_eq (t : Tree) : t.nodes = nodesAll t.children ++ [t] := by
  cases t with
  | leaf | group => rfl
  | modified => rw [nodes, children, nodesAll, nodesAll, List.append_nil]

mutual

theorem map_id_nodes : ∀ t : Tree, t.nodes.map id = t.ids
  | leaf .. => rfl
  | group _ _ children _ => by
    rw [nodes, ids, List.map_append, map_id_nodesAll children]
    rfl
  | modified _ _ _ inner _ => by
    rw [nodes, ids, List.map_append, map_id_nodes inner]
    rfl

theorem map_id_nodesAll : ∀ ts : List Tree, (nodesAll ts).map id = idsAll ts
  | [] => rfl
  | t :: ts => by rw [nodesAll, idsAll, List.map_append, map_id_nodes t, map_id_nodesAll ts]

end

theorem self_mem_nodes : ∀ t : Tree, t ∈ t.nodes
  | leaf .. => List.mem_singleton.2 rfl
  | group .. | modified .. => List.mem_append_right _ (List.mem_singleton.2 rfl)

theorem mem_nodesAll {t : Tree} : ∀ {ts : List Tree}, t ∈ ts → t ∈ nodesAll ts
  | _ :: _, h => by
    rcases List.mem_cons.1 h with rfl | h
    · exact List.mem_append_left _ (self_mem_nodes _)
    · exact List.mem_append_right _ (mem_nodesAll h)

theorem mem_nodes_of_mem_children {t : Tree} : ∀ {u : Tree}, t ∈ u.children → t ∈ u.nodes
  | group .., h => List.mem_append_left _ (mem_nodesAll h)
  | modified .., h => by
    obtain rfl := List.mem_singleton.1 h
    exact List.mem_append_left _ (self_mem_nodes _)

mutual

theorem nodes_sublist {t : Tree} : ∀ {u : Tree}, t ∈ u.nodes → t.nodes.Sublist u.nodes
  | leaf .., h => by
    obtain rfl := List.mem_singleton.1 h
    exact List.Sublist.refl _
  | group .., h => by
    rcases List.mem_append.1 h with h | h
    · exact (nodes_sublist_nodesAll h).trans (List.sublist_append_left _ _)
    · obtain rfl := List.mem_singleton.1 h
      exact List.Sublist.refl _
  | modified .., h => by
    rcases List.mem_append.1 h with h | h
    · exact (nodes_sublist h).trans (List.sublist_append_left _ _)
    · obtain rfl := List.mem_singleton.1 h
      exact List.Sublist.refl _

theorem nodes_sublist_nodesAll {t : Tree} :
    ∀ {us : List Tree}, t ∈ nodesAll us → t.nodes.Sublist (nodesAll us)
  | _ :: _, h => by
    rcases List.mem_append.1 h with h | h
    · exact (nodes_sublist h).trans (List.sublist_append_left _ _)
    · exact (nodes_sublist_nodesAll h).trans (List.sublist_append_right _ _)

end

theorem mem_nodes_trans {s t u : Tree} (hs : s ∈ t.nodes) (ht : t ∈ u.nodes) : s ∈ u.nodes :=
  (nodes_sublist ht).subset hs

/-- The numbers below a node are among those of the whole tree, in their order. -/
theorem ids_sublist {t u : Tree} (h : t ∈ u.nodes) : t.ids.Sublist u.ids := by
  rw [← map_id_nodes, ← map_id_nodes]
  exact (nodes_sublist h).map id

theorem ids_sublist_idsAll {t : Tree} {us : List Tree} (h : t ∈ nodesAll us) :
    t.ids.Sublist (idsAll us) := by
  rw [← map_id_nodes, ← map_id_nodesAll]
  exact (nodes_sublist_nodesAll h).map id

theorem id_mem_ids (t : Tree) : t.id ∈ t.ids := by
  rw [← map_id_nodes]
  exact List.mem_map_of_mem t.self_mem_nodes

theorem id_mem_ids_of_mem_children {t u : Tree} (h : t ∈ u.children) : t.id ∈ u.ids :=
  (ids_sublist (mem_nodes_of_mem_children h)).subset t.id_mem_ids

end PatternSynth.Tree

namespace PatternSynth.Score

/-- The node with a number. -/
def node? (s : Score) (id : Nat) : Option Tree :=
  s.tree.nodes[id]?

/-- The nodes are numbered from zero, in the order in which they are completed, and there is a
cursor for each of them. -/
def Numbered (s : Score) : Prop :=
  s.tree.ids = List.range s.size

theorem numbered_ofPattern (p : Pattern) : (ofPattern p).Numbered := by
  obtain ⟨n, hsize, hids⟩ := Tree.ids_number #[] p
  have htree : (ofPattern p).tree = (Tree.number #[] p).1 := rfl
  have hcursors : (ofPattern p).size = (Tree.number #[] p).2.size := rfl
  rw [Numbered, htree, hcursors, hids, hsize, Array.size_empty, Nat.zero_add,
    List.range_eq_range']

/-- A node stands where its number says. -/
theorem Numbered.node?_id {s : Score} (h : s.Numbered) {t : Tree} (ht : t ∈ s.tree.nodes) :
    t.id < s.size ∧ s.node? t.id = some t := by
  obtain ⟨i, hi, rfl⟩ := List.getElem_of_mem ht
  have hids : s.tree.nodes.map Tree.id = List.range s.size := (Tree.map_id_nodes _).trans h
  have hlength : s.tree.nodes.length = s.size := by
    rw [← List.length_map Tree.id, hids, List.length_range]
  have hid : s.tree.nodes[i].id = i := by
    have hget := congrArg (·[i]?) hids
    simp only [List.getElem?_map, List.getElem?_eq_getElem hi, Option.map_some] at hget
    rw [List.getElem?_range (hlength ▸ hi)] at hget
    exact Option.some.inj hget
  rw [hid, ← hlength]
  exact ⟨hi, List.getElem?_eq_getElem hi⟩

theorem Numbered.eq_of_id_eq {s : Score} (h : s.Numbered) {t u : Tree} (ht : t ∈ s.tree.nodes)
    (hu : u ∈ s.tree.nodes) (hid : t.id = u.id) : t = u := by
  have hnode := (h.node?_id ht).2
  rw [hid, (h.node?_id hu).2] at hnode
  exact (Option.some.inj hnode).symm

end PatternSynth.Score
