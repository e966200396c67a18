import Mathlib.Data.List.Nodup
import Mathlib.Data.Nat.GCD.Basic
import PatternSynth.Proofs.Step.Turns

/-!
# Patterns repeat

A cycle gives its children their turns one after another, so after as many activations as it has
children it begins again, and each child has been activated once. A child that itself needs several
activations to begin again makes the cycle need so many times more. `Tree.period` puts this
together. The main result of this file is that a pass is the same as the one so many passes later,
and that in between every cycle has given each of its children the same number of turns.

`Score.visits` counts the passes that enter a node. The children of a cycle share its visits, and
other children have those of their parent. So over one period of the root, the visits of each node
grow by a multiple of its own period (`Score.Recurs`), from the root down to the leaves.
-/

namespace PatternSynth

open Cursors

namespace Tree

/-! ## Periods -/

mutual

/-- After how many activations a node begins again. -/
def period : Tree → Nat
  | leaf .. => 1
  | group _ _ [] _ => 1
  | group _ .sequence (t :: ts) _ => periodAll (t :: ts)
  | group _ .cycle (t :: ts) _ => (t :: ts).length * periodAll (t :: ts)
  | group _ .chord (t :: ts) _ => periodAll (t :: ts)
  | modified _ _ _ inner _ => inner.period

/-- After how many activations of each of them these nodes begin again together. -/
def periodAll : List Tree → Nat
  | [] => 1
  | t :: ts => Nat.lcm t.period (periodAll ts)

end

theorem period_dvd_periodAll {t : Tree} : ∀ {ts : List Tree}, t ∈ ts → t.period ∣ periodAll ts
  | u :: us, h => by
    rw [periodAll]
    rcases List.mem_cons.1 h with rfl | h
    · exact Nat.dvd_lcm_left _ _
    · exact (period_dvd_periodAll h).trans (Nat.dvd_lcm_right _ _)

theorem period_dvd_of_mem_children {t : Tree} :
    ∀ {u : Tree}, t ∈ u.children → u.takesTurns = false → t.period ∣ u.period
  | group _ .sequence (_ :: _) _, h, _ => period_dvd_periodAll h
  | group _ .cycle [] _, h, _ => (List.not_mem_nil h).elim
  | group _ .cycle (_ :: _) _, _, hturns => Bool.noConfusion hturns
  | group _ .chord (_ :: _) _, h, _ => period_dvd_periodAll h
  | modified .., h, _ => by
    obtain rfl := List.mem_singleton.1 h
    exact Nat.dvd_refl _

theorem eq_cycle_of_takesTurns : ∀ {t : Tree}, t.takesTurns = true →
    ∃ id u us tag, t = group id .cycle (u :: us) tag
  | group id .cycle (u :: us) tag, _ => ⟨id, u, us, tag, rfl⟩

/-! ## Parents and children -/

mutual

/-- What passes on from each node to its children holds of all nodes if it holds of the top. -/
theorem forall_mem_nodes {P : Tree → Prop} (hstep : ∀ t, P t → ∀ u ∈ t.children, P u) :
    ∀ t : Tree, P t → ∀ node ∈ t.nodes, P node
  | leaf .., h, node, hnode => by
    obtain rfl := List.mem_singleton.1 hnode
    exact h
  | group id kind ts tag, h, node, hnode => by
    rcases List.mem_append.1 hnode with hnode | hnode
    · exact forall_mem_nodesAll hstep ts (hstep _ h) node hnode
    · obtain rfl := List.mem_singleton.1 hnode
      exact h
  | modified id kind amount inner tag, h, node, hnode => by
    rcases List.mem_append.1 hnode with hnode | hnode
    · exact forall_mem_nodes hstep inner (hstep _ h inner (List.mem_singleton.2 rfl)) node hnode
    · obtain rfl := List.mem_singleton.1 hnode
      exact h

theorem forall_mem_nodesAll {P : Tree → Prop} (hstep : ∀ t, P t → ∀ u ∈ t.children, P u) :
    ∀ ts : List Tree, (∀ t ∈ ts, P t) → ∀ node ∈ nodesAll ts, P node
  | t :: ts, h, node, hnode => by
    obtain ⟨ht, hts⟩ := List.forall_mem_cons.1 h
    rcases List.mem_append.1 hnode with hnode | hnode
    · exact forall_mem_nodes hstep t ht node hnode
    · exact forall_mem_nodesAll hstep ts hts node hnode

end

variable {c : Cursors}

theorem self_mem_entered (t : Tree) : t ∈ t.entered c := by
  cases t with
  | leaf => exact List.mem_singleton.2 rfl
  | group id kind =>
    cases kind <;> exact List.mem_append_right _ (List.mem_singleton.2 rfl)
  | modified => exact List.mem_append_right _ (List.mem_singleton.2 rfl)

theorem id_mem_entered (t : Tree) : t.id ∈ (t.entered c).map id :=
  List.mem_map_of_mem t.self_mem_entered

section Below

variable {node : Tree} {i : Nat}

/-- The node itself is none of those below it. -/
theorem mem_entered_concat_iff {below : List Nat} {nodes : List Tree} {top : Tree}
    (hnodup : (below ++ [top.id]).Nodup) (hsub : node.ids ⊆ below) (hi : i ∈ node.ids)
    (h : i ∈ nodes.map id ↔ node.id ∈ nodes.map id ∧ i ∈ (node.entered c).map id) :
    i ∈ (nodes ++ [top]).map id ↔
      node.id ∈ (nodes ++ [top]).map id ∧ i ∈ (node.entered c).map id := by
  have hapart := (List.nodup_append'.1 hnodup).2.2
  have hother : ∀ j ∈ node.ids, j ∉ [top].map id := fun j hj => hapart (hsub hj)
  rw [List.map_append, List.mem_append, List.mem_append, or_iff_left (hother i hi),
    or_iff_left (hother node.id node.id_mem_ids), h]

mutual

/-- A number below a node is entered if the node is, and the node itself enters it. -/
theorem mem_entered_iff (hi : i ∈ node.ids) :
    ∀ t : Tree, t.ids.Nodup → node ∈ t.nodes → (i ∈ (t.entered c).map id ↔
      node.id ∈ (t.entered c).map id ∧ i ∈ (node.entered c).map id)
  | leaf .., _, hnode => by
    obtain rfl := List.mem_singleton.1 hnode
    exact (and_iff_right (id_mem_entered _)).symm
  | group _ kind ts _, hnodup, hnode => by
    rcases List.mem_append.1 hnode with hbelow | hnode
    · have hts := (List.nodup_append.1 hnodup).1
      have hsub := (ids_sublist_idsAll hbelow).subset
      cases kind with
      | sequence =>
        exact mem_entered_concat_iff hnodup hsub hi (mem_enteredAll_iff hi ts hts hbelow)
      | cycle =>
        exact mem_entered_concat_iff hnodup hsub hi (mem_enteredNth_iff hi ts _ hts hbelow)
      | chord =>
        exact mem_entered_concat_iff hnodup hsub hi (mem_enteredAll_iff hi ts hts hbelow)
    · obtain rfl := List.mem_singleton.1 hnode
      exact (and_iff_right (id_mem_entered _)).symm
  | modified _ _ _ inner _, hnodup, hnode => by
    rcases List.mem_append.1 hnode with hnode | hnode
    · exact mem_entered_concat_iff hnodup (ids_sublist hnode).subset hi
        (mem_entered_iff hi inner (List.nodup_append.1 hnodup).1 hnode)
    · obtain rfl := List.mem_singleton.1 hnode
      exact (and_iff_right (id_mem_entered _)).symm

theorem mem_enteredAll_iff (hi : i ∈ node.ids) :
    ∀ ts : List Tree, (idsAll ts).Nodup → node ∈ nodesAll ts → (i ∈ (enteredAll c ts).map id ↔
      node.id ∈ (enteredAll c ts).map id ∧ i ∈ (node.entered c).map id)
  | t :: ts, hnodup, hnode => by
    obtain ⟨ht, hts, hapart⟩ := List.nodup_append'.1 hnodup
    rw [enteredAll, List.map_append, List.mem_append, List.mem_append]
    rcases List.mem_append.1 hnode with hnode | hnode
    · have hother : ∀ j ∈ node.ids, j ∉ (enteredAll c ts).map id := fun j hj hmem =>
        hapart ((ids_sublist hnode).subset hj) ((id_enteredAll_sublist c ts).subset hmem)
      rw [or_iff_left (hother i hi), or_iff_left (hother node.id node.id_mem_ids)]
      exact mem_entered_iff hi t ht hnode
    · have hother : ∀ j ∈ node.ids, j ∉ (t.entered c).map id := fun j hj hmem =>
        hapart ((id_entered_sublist c t).subset hmem) ((ids_sublist_idsAll hnode).subset hj)
      rw [or_iff_right (hother i hi), or_iff_right (hother node.id node.id_mem_ids)]
      exact mem_enteredAll_iff hi ts hts hnode

theorem mem_enteredNth_iff (hi : i ∈ node.ids) :
    ∀ (ts : List Tree) (index : Nat), (idsAll ts).Nodup → node ∈ nodesAll ts →
      (i ∈ (enteredNth c ts index).map id ↔
        node.id ∈ (enteredNth c ts index).map id ∧ i ∈ (node.entered c).map id)
  | t :: ts, index, hnodup, hnode => by
    obtain ⟨ht, hts, hapart⟩ := List.nodup_append'.1 hnodup
    rcases List.mem_append.1 hnode with hnode | hnode <;> cases index with
    | zero => ?_
    | succ index => ?_
    · exact mem_entered_iff hi t ht hnode
    · have hother : ∀ j ∈ node.ids, j ∉ (enteredNth c ts index).map id := fun j hj hmem =>
        hapart ((ids_sublist hnode).subset hj) ((id_enteredNth_sublist c ts index).subset hmem)
      exact iff_of_false (hother i hi) fun h => hother node.id node.id_mem_ids h.1
    · have hother : ∀ j ∈ node.ids, j ∉ (t.entered c).map id := fun j hj hmem =>
        hapart ((id_entered_sublist c t).subset hmem) ((ids_sublist_idsAll hnode).subset hj)
      exact iff_of_false (hother i hi) fun h => hother node.id node.id_mem_ids h.1
    · exact mem_enteredNth_iff hi ts index hts hnode

end

end Below

theorem id_mem_enteredAll {t : Tree} : ∀ {ts : List Tree}, t ∈ ts → t.id ∈ (enteredAll c ts).map id
  | u :: us, h => by
    rw [enteredAll, List.map_append]
    rcases List.mem_cons.1 h with rfl | h
    · exact List.mem_append_left _ (id_mem_entered _)
    · exact List.mem_append_right _ (id_mem_enteredAll h)

/-- Every child of a node that is no cycle is entered with it. -/
theorem id_mem_entered_of_mem_children {t : Tree} :
    ∀ {u : Tree}, u.takesTurns = false → t ∈ u.children → t.id ∈ (u.entered c).map id
  | group _ .sequence ts _, _, h => by
    rw [entered, List.map_append]
    exact List.mem_append_left _ (id_mem_enteredAll h)
  | group _ .cycle [] _, _, h => (List.not_mem_nil h).elim
  | group _ .cycle (_ :: _) _, hturns, _ => Bool.noConfusion hturns
  | group _ .chord ts _, _, h => by
    rw [entered, List.map_append]
    exact List.mem_append_left _ (id_mem_enteredAll h)
  | modified .., _, h => by
    obtain rfl := List.mem_singleton.1 h
    rw [entered, List.map_append]
    exact List.mem_append_left _ (id_mem_entered _)

theorem id_mem_enteredNth_iff {t : Tree} :
    ∀ {ts : List Tree} {place index : Nat}, (idsAll ts).Nodup → ts[place]? = some t →
      (t.id ∈ (enteredNth c ts index).map id ↔ index = place)
  | u :: us, 0, index, hnodup, hplace => by
    obtain rfl := Option.some.inj hplace
    cases index with
    | zero => exact iff_of_true (id_mem_entered u) rfl
    | succ index =>
      have hapart := (List.nodup_append'.1 hnodup).2.2
      refine iff_of_false (fun hmem => ?_) (Nat.succ_ne_zero index)
      exact hapart u.id_mem_ids ((id_enteredNth_sublist c us index).subset hmem)
  | u :: us, place + 1, index, hnodup, hplace => by
    obtain ⟨-, hus, hapart⟩ := List.nodup_append'.1 hnodup
    rw [List.getElem?_cons_succ] at hplace
    cases index with
    | zero =>
      have hids := ids_subset_idsAll (List.mem_of_getElem? hplace) t.id_mem_ids
      refine iff_of_false (fun hmem => ?_) (Nat.succ_ne_zero place).symm
      exact hapart ((id_entered_sublist c u).subset hmem) hids
    | succ index =>
      rw [Nat.succ_inj]
      exact id_mem_enteredNth_iff hus hplace

/-- A child of a cycle is entered with it when it is the child's turn. -/
theorem id_mem_entered_cycle_iff {t : Tree} {id place : Nat} {ts : List Tree} {tag : Tag}
    (hnodup : (group id .cycle ts tag).ids.Nodup) (hplace : ts[place]? = some t) :
    t.id ∈ ((group id .cycle ts tag).entered c).map Tree.id ↔
      (c.turn id ts.length).1 = place := by
  obtain ⟨hts, -, hapart⟩ := List.nodup_append'.1 hnodup
  have hother : t.id ∉ [group id .cycle ts tag].map Tree.id := fun hmem =>
    hapart (ids_subset_idsAll (List.mem_of_getElem? hplace) t.id_mem_ids) hmem
  rw [entered, List.map_append, List.mem_append, or_iff_left hother]
  exact id_mem_enteredNth_iff hts hplace

end Tree

/-! ## Cursors from pass to pass -/

theorem Cursors.read_foldl_enter {node : Tree} (hturns : node.takesTurns = true)
    {nodes : List Tree} (hnodup : (nodes.map Tree.id).Nodup)
    (hunique : ∀ other ∈ nodes, other.id = node.id → other = node) {cursors : Cursors}
    (hbound : node.id < cursors.size) :
    (nodes.foldl enter cursors).read node.id =
      if node.id ∈ nodes.map Tree.id then cursors.read node.id + 1 else cursors.read node.id := by
  induction nodes generalizing cursors with
  | nil => rfl
  | cons first nodes ih =>
    rw [List.map_cons, List.nodup_cons] at hnodup
    obtain ⟨hfirst, hothers⟩ := List.forall_mem_cons.1 hunique
    rw [List.foldl_cons, List.map_cons]
    by_cases hid : first.id = node.id
    · obtain rfl := hfirst hid
      have hread : (nodes.foldl enter (cursors.enter first)).read first.id =
          (cursors.enter first).read first.id := by
        refine read_eq_of_agreeOn fun i hi => ?_
        obtain rfl := List.mem_singleton.1 hi
        exact getElem?_foldl_enter hnodup.1 _
      rw [hread, if_pos List.mem_cons_self, enter, if_pos hturns, read,
        Array.getD_eq_getD_getElem?, Array.getElem?_setIfInBounds_self_of_lt hbound]
      rfl
    · have hmem : node.id ∈ first.id :: nodes.map Tree.id ↔ node.id ∈ nodes.map Tree.id := by
        rw [List.mem_cons, or_iff_right (Ne.symm hid)]
      rw [ih hnodup.2 hothers (by rwa [size_enter]), read_enter_ne cursors hid]
      simp only [hmem]

namespace Score

variable (score : Score)

/-- Whether a pass enters the node with this number. -/
def enters (id k : Nat) : Bool :=
  decide (id ∈ (score.tree.entered (score.cursorsAt k)).map Tree.id)

/-- How many of the first passes enter the node with this number. -/
def visits (id k : Nat) : Nat :=
  (List.range k).countP (score.enters id)

/-- In how many of the first passes a cycle gives its turn to the child at an index. -/
def turnsTo (id count index k : Nat) : Nat :=
  (List.range k).countP fun j =>
    score.enters id j && ((score.cursorsAt j).turn id count).1 == index

/-- No cursor has been set back in the first passes, as one is when it goes past the largest
number. -/
def Unwrapped (count : Nat) : Prop :=
  ∀ k < count, ∀ id ∈ score.tree.ids,
    (score.cursorsAt k).read id ≤ (score.cursorsAt (k + 1)).read id

instance (count : Nat) : Decidable (score.Unwrapped count) :=
  inferInstanceAs (Decidable (∀ k < count, ∀ id ∈ score.tree.ids,
    (score.cursorsAt k).read id ≤ (score.cursorsAt (k + 1)).read id))

variable {score}

theorem visits_succ (id k : Nat) :
    score.visits id (k + 1) = score.visits id k + if score.enters id k then 1 else 0 := by
  rw [visits, List.range_succ, List.countP_append, List.countP_singleton]
  rfl

theorem turnsTo_succ (id count index k : Nat) :
    score.turnsTo id count index (k + 1) = score.turnsTo id count index k +
      if score.enters id k && ((score.cursorsAt k).turn id count).1 == index then 1 else 0 := by
  rw [turnsTo, List.range_succ, List.countP_append, List.countP_singleton]
  rfl

theorem Numbered.nodup (hscore : score.Numbered) : score.tree.ids.Nodup := by
  rw [hscore]
  exact List.nodup_range

theorem size_cursorsAt (k : Nat) : (score.cursorsAt k).size = score.size := by
  induction k with
  | zero => rfl
  | succ k ih => exact (size_foldl_enter _ _).trans ih

section Node

variable {node : Tree}

/-- A pass that enters a cycle moves its cursor on. -/
theorem Numbered.read_succ (hscore : score.Numbered) (hnode : node ∈ score.tree.nodes)
    (hturns : node.takesTurns = true) (k : Nat) :
    (score.cursorsAt (k + 1)).read node.id =
      if score.enters node.id k then (score.cursorsAt k).read node.id + 1
      else (score.cursorsAt k).read node.id := by
  have hsub := Tree.entered_sublist (score.cursorsAt k) score.tree
  have hnodup : (score.tree.nodes.map Tree.id).Nodup := by
    rw [Tree.map_id_nodes]
    exact hscore.nodup
  have hbound : node.id < (score.cursorsAt k).size := by
    rw [size_cursorsAt]
    exact (hscore.node?_id hnode).1
  have hread := read_foldl_enter hturns (hnodup.sublist (hsub.map Tree.id))
    (fun other hother => List.inj_on_of_nodup_map hnodup (hsub.subset hother) hnode) hbound
  rw [cursorsAt, Tree.turned, hread]
  simp only [enters, decide_eq_true_eq]

theorem toNat_succ_of_le {x : UInt64} (h : x ≤ x + 1) : (x + 1).toNat = x.toNat + 1 := by
  rw [UInt64.le_iff_toNat_le] at h
  rw [UInt64.toNat_add] at h ⊢
  have hone : (1 : UInt64).toNat = 1 := rfl
  have hx := x.toNat_lt
  omega

/-- Until it wraps around, a cursor counts the visits of its cycle. -/
theorem Unwrapped.toNat_read {count : Nat} (h : score.Unwrapped count) (hscore : score.Numbered)
    (hnode : node ∈ score.tree.nodes) (hturns : node.takesTurns = true) {k : Nat}
    (hk : k ≤ count) :
    ((score.cursorsAt k).read node.id).toNat =
      (score.cursors.read node.id).toNat + score.visits node.id k := by
  induction k with
  | zero => rfl
  | succ k ih =>
    have hid : node.id ∈ score.tree.ids := (Tree.ids_sublist hnode).subset node.id_mem_ids
    have hle := h k hk node.id hid
    have hread := hscore.read_succ hnode hturns k
    rw [visits_succ, ← Nat.add_assoc, ← ih (Nat.le_of_succ_le hk)]
    by_cases hentered : score.enters node.id k = true
    · rw [if_pos hentered] at hread ⊢
      rw [hread] at hle ⊢
      exact toNat_succ_of_le hle
    · rw [if_neg hentered] at hread ⊢
      rw [hread]
      rfl

end Node

/-! ## Sharing turns -/

/-- How many of the numbers below `bound` leave the remainder `index` after division by `count`. -/
def share (count index bound : Nat) : Nat :=
  (bound + (count - 1 - index)) / count

theorem share_succ {count index : Nat} (h : index < count) (bound : Nat) :
    share count index (bound + 1) =
      share count index bound + if bound % count = index then 1 else 0 := by
  have hdvd : count ∣ bound + (count - 1 - index) + 1 ↔ bound % count = index := by
    have hmod := Nat.mod_lt bound (Nat.zero_lt_of_lt h)
    have hsum : bound + (count - 1 - index) + 1 =
        count * (bound / count) + (bound % count + (count - index)) := by
      have hbound := Nat.div_add_mod bound count
      omega
    rw [hsum, Nat.dvd_add_right (Nat.dvd_mul_right _ _)]
    constructor
    · intro hdvd
      have heq := Nat.eq_of_dvd_of_lt_two_mul (by omega) hdvd (by omega)
      omega
    · rintro rfl
      rw [Nat.add_sub_cancel' (Nat.le_of_lt hmod)]
  rw [share, share, Nat.add_right_comm, Nat.succ_div]
  simp only [hdvd]

theorem share_add_mul {count : Nat} (h : 0 < count) (index bound turns : Nat) :
    share count index (bound + count * turns) = share count index bound + turns := by
  rw [share, share, Nat.add_right_comm, Nat.add_mul_div_left _ _ h]

section Cycle

variable {id : Nat} {ts : List Tree} {tag : Tag}

/-- Until its cursor wraps around, a cycle gives its children their turns one after another. -/
theorem Unwrapped.turnsTo_add_share {count : Nat} (h : score.Unwrapped count)
    (hscore : score.Numbered) (hnode : .group id .cycle ts tag ∈ score.tree.nodes) {index : Nat}
    (hindex : index < ts.length) {k : Nat} (hk : k ≤ count) :
    score.turnsTo id ts.length index k + share ts.length index (score.cursors.read id).toNat =
      share ts.length index ((score.cursors.read id).toNat + score.visits id k) := by
  have hturns : (Tree.group id .cycle ts tag).takesTurns = true := by
    cases ts with
    | nil => exact absurd hindex (Nat.not_lt_zero _)
    | cons => rfl
  induction k with
  | zero => exact Nat.zero_add _
  | succ k ih =>
    have hread : ((score.cursorsAt k).read id).toNat = _ :=
      h.toNat_read hscore hnode hturns (Nat.le_of_succ_le hk)
    rw [turnsTo_succ, visits_succ, Nat.add_right_comm, ih (Nat.le_of_succ_le hk), turn, hread]
    cases score.enters id k with
    | false => rfl
    | true =>
      rw [if_pos rfl, ← Nat.add_assoc, share_succ hindex]
      simp only [Bool.true_and, beq_iff_eq, Tree.id]

end Cycle

/-! ## Periods of visits -/

/-- From one pass to another, the visits of a node grow by a multiple of its period. -/
def Recurs (score : Score) (k count : Nat) (node : Tree) : Prop :=
  ∃ turns, score.visits node.id (k + count) = score.visits node.id k + node.period * turns

theorem visits_root (k : Nat) : score.visits score.tree.id k = k := by
  have henters : ∀ j ∈ List.range k, score.enters score.tree.id j = true := fun j _ =>
    decide_eq_true score.tree.id_mem_entered
  rw [visits, List.countP_eq_length.2 henters, List.length_range]

/-- A child of a node that is no cycle has the visits of the node. -/
theorem Numbered.visits_child (hscore : score.Numbered) {node child : Tree}
    (hnode : node ∈ score.tree.nodes) (hturns : node.takesTurns = false)
    (hchild : child ∈ node.children) (k : Nat) :
    score.visits child.id k = score.visits node.id k := by
  refine List.countP_congr fun j _ => ?_
  rw [enters, enters, decide_eq_true_iff, decide_eq_true_iff,
    Tree.mem_entered_iff (Tree.id_mem_ids_of_mem_children hchild) score.tree hscore.nodup hnode]
  exact and_iff_left (Tree.id_mem_entered_of_mem_children hturns hchild)

/-- A child of a cycle has a visit for each of its turns. -/
theorem Numbered.visits_turn (hscore : score.Numbered) {id place : Nat} {ts : List Tree} {tag : Tag}
    {child : Tree} (hnode : .group id .cycle ts tag ∈ score.tree.nodes)
    (hplace : ts[place]? = some child) (k : Nat) :
    score.visits child.id k = score.turnsTo id ts.length place k := by
  refine List.countP_congr fun j _ => ?_
  have hids : child.id ∈ (Tree.group id .cycle ts tag).ids :=
    Tree.id_mem_ids_of_mem_children (List.mem_of_getElem? hplace)
  have hnodup := hscore.nodup.sublist (Tree.ids_sublist hnode)
  rw [enters, enters, decide_eq_true_iff, Bool.and_eq_true, decide_eq_true_iff, beq_iff_eq,
    Tree.mem_entered_iff hids score.tree hscore.nodup hnode,
    Tree.id_mem_entered_cycle_iff hnodup hplace]
  rfl

/-- When a cycle recurs, each of its children has got the same number of turns. -/
theorem Unwrapped.turnsTo_add {k count : Nat} (h : score.Unwrapped (k + count))
    (hscore : score.Numbered) {id index turns : Nat} {ts : List Tree} {tag : Tag}
    (hnode : .group id .cycle ts tag ∈ score.tree.nodes) (hindex : index < ts.length)
    (hvisits : score.visits id (k + count) = score.visits id k + ts.length * turns) :
    score.turnsTo id ts.length index (k + count) = score.turnsTo id ts.length index k + turns := by
  have hlater := h.turnsTo_add_share hscore hnode hindex (Nat.le_refl _)
  have hearlier := h.turnsTo_add_share hscore hnode hindex (Nat.le_add_right k count)
  rw [hvisits, ← Nat.add_assoc, share_add_mul (Nat.zero_lt_of_lt hindex)] at hlater
  omega

theorem Unwrapped.recurs_child {k count : Nat} (h : score.Unwrapped (k + count))
    (hscore : score.Numbered) {node child : Tree} (hnode : node ∈ score.tree.nodes)
    (hchild : child ∈ node.children) (hrecurs : score.Recurs k count node) :
    score.Recurs k count child := by
  obtain ⟨turns, hvisits⟩ := hrecurs
  by_cases hturns : node.takesTurns = true
  · -- The children of the cycle share its visits.
    obtain ⟨id, t, ts, tag, rfl⟩ := Tree.eq_cycle_of_takesTurns hturns
    replace hchild : child ∈ t :: ts := hchild
    obtain ⟨place, hplace⟩ := List.mem_iff_getElem?.1 hchild
    obtain ⟨factor, hperiod⟩ := Tree.period_dvd_periodAll hchild
    have hshared : score.visits id (k + count) =
        score.visits id k + (t :: ts).length * (Tree.periodAll (t :: ts) * turns) := by
      rw [← Nat.mul_assoc]
      exact hvisits
    refine ⟨factor * turns, ?_⟩
    rw [hscore.visits_turn hnode hplace, hscore.visits_turn hnode hplace,
      h.turnsTo_add hscore hnode (List.getElem?_eq_some_iff.1 hplace).1 hshared, hperiod,
      Nat.mul_assoc]
  · rw [Bool.not_eq_true] at hturns
    obtain ⟨factor, hperiod⟩ := Tree.period_dvd_of_mem_children hchild hturns
    refine ⟨factor * turns, ?_⟩
    rw [hscore.visits_child hnode hturns hchild, hscore.visits_child hnode hturns hchild, hvisits,
      hperiod, Nat.mul_assoc]

theorem Unwrapped.recurs {k : Nat} (h : score.Unwrapped (k + score.tree.period))
    (hscore : score.Numbered) :
    ∀ node ∈ score.tree.nodes, score.Recurs k score.tree.period node := by
  have hroot : score.Recurs k score.tree.period score.tree := by
    refine ⟨1, ?_⟩
    rw [visits_root, visits_root, Nat.mul_one]
  intro node hnode
  refine (Tree.forall_mem_nodes
    (P := fun node => node ∈ score.tree.nodes ∧ score.Recurs k score.tree.period node) ?_
    score.tree ⟨score.tree.self_mem_nodes, hroot⟩ node hnode).2
  rintro parent ⟨hparent, hrecurs⟩ child hchild
  exact ⟨(Tree.nodes_sublist hparent).subset (Tree.mem_nodes_of_mem_children hchild),
    h.recurs_child hscore hparent hchild hrecurs⟩

/-- One period later, it is the turn of the same child at every cycle. -/
theorem Unwrapped.sameTurns {k : Nat} (h : score.Unwrapped (k + score.tree.period))
    (hscore : score.Numbered) :
    Tree.SameTurns score.tree.nodes (score.cursorsAt (k + score.tree.period))
      (score.cursorsAt k) := by
  intro node hnode hturns
  obtain ⟨turns, hvisits⟩ := h.recurs hscore node hnode
  have hlater := h.toNat_read hscore hnode hturns (Nat.le_refl _)
  have hearlier := h.toNat_read hscore hnode hturns (Nat.le_add_right k _)
  obtain ⟨id, t, ts, tag, rfl⟩ := Tree.eq_cycle_of_takesTurns hturns
  rw [turn, turn, hlater, hearlier, hvisits, ← Nat.add_assoc]
  rw [Tree.period, Nat.mul_assoc]
  exact Nat.add_mul_mod_self_left _ _ _

/-! ## Turns as the cursors show them -/

/-- The turn that a cycle takes in a pass, if it takes one: if it does, its cursor moves. -/
def turn? (score : Score) (id count k : Nat) : Option Nat :=
  if (score.cursorsAt (k + 1)).read id = (score.cursorsAt k).read id then none
  else some ((score.cursorsAt k).turn id count).1

theorem Numbered.turn?_eq (hscore : score.Numbered) {node : Tree} (hnode : node ∈ score.tree.nodes)
    (hturns : node.takesTurns = true) (count k : Nat) :
    score.turn? node.id count k =
      if score.enters node.id k then some ((score.cursorsAt k).turn node.id count).1 else none := by
  rw [turn?, hscore.read_succ hnode hturns]
  by_cases hentered : score.enters node.id k = true
  · rw [if_pos hentered, if_pos hentered, if_neg]
    simp
  · rw [if_neg hentered, if_neg hentered, if_pos rfl]

theorem countP_range_add (p : Nat → Bool) (k count : Nat) :
    (List.range (k + count)).countP p =
      (List.range k).countP p + (List.range' k count).countP p := by
  rw [List.range_eq_range', List.range_eq_range', ← List.countP_append]
  congr 1
  have happend := List.range'_append_1 (s := 0) (m := k) (n := count)
  rw [Nat.zero_add] at happend
  exact happend.symm

/-- In one period, a cycle gives the same share of its turns to each of its children. -/
theorem Unwrapped.share_turns {k : Nat} (h : score.Unwrapped (k + score.tree.period))
    (hscore : score.Numbered) {id index : Nat} {ts : List Tree} {tag : Tag}
    (hnode : .group id .cycle ts tag ∈ score.tree.nodes) (hindex : index < ts.length) :
    ts.length * (List.range' k score.tree.period).countP
        (fun j => score.turn? id ts.length j == some index) =
      (List.range' k score.tree.period).countP fun j => (score.turn? id ts.length j).isSome := by
  obtain ⟨t, us, rfl⟩ := List.exists_cons_of_length_pos (Nat.zero_lt_of_lt hindex)
  have hturn : ∀ j, score.turn? id (t :: us).length j = _ :=
    hscore.turn?_eq hnode rfl (t :: us).length
  have hgiven : (fun j => score.turn? id (t :: us).length j == some index) = fun j =>
      score.enters id j && ((score.cursorsAt j).turn id (t :: us).length).1 == index := by
    funext j
    rw [hturn]
    cases hentered : score.enters id j <;> simp [Tree.id, hentered]
  have htaken : (fun j => (score.turn? id (t :: us).length j).isSome) = score.enters id := by
    funext j
    rw [hturn]
    cases hentered : score.enters id j <;> simp [Tree.id, hentered]
  obtain ⟨turns, hvisits⟩ := h.recurs hscore _ hnode
  rw [Tree.period, Nat.mul_assoc] at hvisits
  have hturns := h.turnsTo_add hscore hnode hindex hvisits
  rw [visits, visits, countP_range_add, Nat.add_left_cancel_iff] at hvisits
  rw [turnsTo, turnsTo, countP_range_add, Nat.add_left_cancel_iff] at hturns
  rw [hgiven, htaken, hturns]
  exact hvisits.symm

/-- Without chords, the passes of a player repeat with the period of its root as long as no cursor
wraps around, and in one period every cycle shares its turns equally between its children. -/
theorem passes_repeat {β : Type} [Beats β] (p : Pattern) (hp : p.isChordFree = true)
    (timing : ChordTiming β) (env : Env) :
    Passes timing env (ofPattern p) (ofPattern p).cursorsAt ((ofPattern p).pass env) ∧
    (∀ n count, n ≤ count → Player.steps timing env n (.ofPattern p) =
      ((List.range count).flatMap ((ofPattern p).pass env)).take n) ∧
    ∀ k, (ofPattern p).Unwrapped (k + (ofPattern p).tree.period) →
      ((ofPattern p).pass env (k + (ofPattern p).tree.period) : List (Step β)) =
        (ofPattern p).pass env k ∧
      ∀ id ts tag, .group id .cycle ts tag ∈ (ofPattern p).tree.nodes → ∀ index < ts.length,
        ts.length * (List.range' k (ofPattern p).tree.period).countP
            (fun j => (ofPattern p).turn? id ts.length j == some index) =
          (List.range' k (ofPattern p).tree.period).countP
            fun j => ((ofPattern p).turn? id ts.length j).isSome := by
  have hscore := numbered_ofPattern p
  have hfree : (ofPattern p).tree.isChordFree = true := by
    rw [← hp]
    exact Tree.isChordFree_number #[] p
  have hpasses := (ofPattern p).passes_of_isChordFree timing env hfree hscore.nodup
  refine ⟨hpasses, hpasses.steps_eq_take, fun k h => ⟨?_, ?_⟩⟩
  · exact Tree.steps_congr env (Beats.ofNat 1) 1 _ (h.sameTurns hscore)
  · intro id ts tag hnode index hindex
    exact h.share_turns hscore hnode hindex

/-- The pattern `[ 1 < 2 < 3 4 > > ]`, whose inner cycle takes a turn in every other pass. -/
def cycleInCycle : Pattern :=
  .collect .sequence
    [.literal (.number 1) ⟨2, 3⟩,
      .collect .cycle
        [.literal (.number 2) ⟨6, 7⟩,
          .collect .cycle [.literal (.number 3) ⟨10, 11⟩, .literal (.number 4) ⟨12, 13⟩]]]

theorem passes_repeat_cycleInCycle :
    cycleInCycle.isChordFree = true ∧ (ofPattern cycleInCycle).tree.period = 4 ∧
      (ofPattern cycleInCycle).Unwrapped (1 + (ofPattern cycleInCycle).tree.period) ∧
      ((ofPattern cycleInCycle).pass .zero (1 + (ofPattern cycleInCycle).tree.period) :
        List (Step Float)) = (ofPattern cycleInCycle).pass .zero 1 ∧
      ∃ id ts tag, .group id .cycle ts tag ∈ (ofPattern cycleInCycle).tree.nodes ∧
        0 < ts.length ∧
        ts.length * (List.range' 1 (ofPattern cycleInCycle).tree.period).countP
            (fun j => (ofPattern cycleInCycle).turn? id ts.length j == some 0) =
          (List.range' 1 (ofPattern cycleInCycle).tree.period).countP
            fun j => ((ofPattern cycleInCycle).turn? id ts.length j).isSome := by
  have hunwrapped : (ofPattern cycleInCycle).Unwrapped
      (1 + (ofPattern cycleInCycle).tree.period) := by decide +kernel
  obtain ⟨-, -, hrepeat⟩ := passes_repeat cycleInCycle rfl .usual .zero
  obtain ⟨hpass, hturns⟩ := hrepeat 1 hunwrapped
  obtain ⟨id, t, ts, tag, hcycle⟩ : ∃ id t ts tag,
      (ofPattern cycleInCycle).tree.children[1]? = some (.group id .cycle (t :: ts) tag) :=
    ⟨_, _, _, _, rfl⟩
  have hnode := Tree.mem_nodes_of_mem_children (List.mem_of_getElem? hcycle)
  exact ⟨rfl, by decide +kernel, hunwrapped, hpass, id, t :: ts, tag, hnode, Nat.succ_pos _,
    hturns id (t :: ts) tag hnode 0 (Nat.succ_pos _)⟩

example : (List.range 6).map (fun k =>
    ((ofPattern cycleInCycle).pass .zero k : List (Step Float)).map fun s => s.notes.map Note.id) =
      [[[0], [1]], [[0], [2]], [[0], [1]], [[0], [3]], [[0], [1]], [[0], [2]]] := by
  decide +kernel

end Score

end PatternSynth
