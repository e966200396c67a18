import Mathlib.Data.List.Nodup
import PatternSynth.Proofs.Step.Footprint
import PatternSynth.Proofs.Step.Pass
import PatternSynth.Proofs.Step.Walk

/-!
# What a pass makes of the cursors

Without chords, the cursors at the start of a pass decide all of it: which nodes it enters
(`Tree.entered`), which steps it has (`Tree.steps`), and which cursors it leaves (`Tree.turned`),
namely those with which it starts, moved on by one at each cycle that it enters. No two nodes share
a cursor, so a pass meets none that it has moved itself. It is enough to know whose turn it is at
each cycle (`Tree.SameTurns`).
-/

namespace PatternSynth

open Cursors

namespace Tree

/-- Whether the top node is a cycle with children, which take turns. -/
def takesTurns : Tree → Bool
  | group _ .cycle (_ :: _) _ => true
  | _ => false

end Tree

/-! ## Entering nodes -/

namespace Cursors

/-- The cursors once a node has been entered. -/
def enter (cursors : Cursors) (node : Tree) : Cursors :=
  if node.takesTurns then cursors.setIfInBounds node.id (cursors.read node.id + 1) else cursors

theorem enter_cycle (cursors : Cursors) (id : Nat) (t : Tree) (ts : List Tree) (tag : Tag) :
    cursors.enter (.group id .cycle (t :: ts) tag) = (cursors.turn id (t :: ts).length).2 := rfl

theorem getElem?_enter_ne (cursors : Cursors) {node : Tree} {id : Nat} (h : node.id ≠ id) :
    (cursors.enter node)[id]? = cursors[id]? := by
  rw [enter]
  split
  · exact Array.getElem?_setIfInBounds_ne h
  · rfl

theorem read_enter_ne (cursors : Cursors) {node : Tree} {id : Nat} (h : node.id ≠ id) :
    (cursors.enter node).read id = cursors.read id := by
  refine read_eq_of_agreeOn fun i hi => ?_
  obtain rfl := List.mem_singleton.1 hi
  exact getElem?_enter_ne cursors h

theorem size_enter (cursors : Cursors) (node : Tree) :
    (cursors.enter node).size = cursors.size := by
  rw [enter]
  split
  · exact Array.size_setIfInBounds
  · rfl

theorem enter_comm (cursors : Cursors) {node node' : Tree} (h : node.id ≠ node'.id) :
    (cursors.enter node).enter node' = (cursors.enter node').enter node := by
  have hread := read_enter_ne cursors h
  have hread' := read_enter_ne cursors h.symm
  rw [enter, hread, enter.eq_1 (cursors.enter node'), hread', enter, enter]
  split <;> split
  · exact Array.setIfInBounds_comm _ _ h
  all_goals rfl

theorem getElem?_foldl_enter {nodes : List Tree} {id : Nat} (h : id ∉ nodes.map Tree.id)
    (cursors : Cursors) : (nodes.foldl enter cursors)[id]? = cursors[id]? := by
  induction nodes generalizing cursors with
  | nil => rfl
  | cons node nodes ih =>
    rw [List.map_cons, List.mem_cons, not_or] at h
    rw [List.foldl_cons, ih h.2, getElem?_enter_ne cursors (Ne.symm h.1)]

theorem size_foldl_enter (nodes : List Tree) (cursors : Cursors) :
    (nodes.foldl enter cursors).size = cursors.size := by
  induction nodes generalizing cursors with
  | nil => rfl
  | cons node nodes ih => rw [List.foldl_cons, ih, size_enter]

theorem foldl_enter_comm {nodes : List Tree} {node : Tree} (h : node.id ∉ nodes.map Tree.id)
    (cursors : Cursors) :
    nodes.foldl enter (cursors.enter node) = (nodes.foldl enter cursors).enter node := by
  induction nodes generalizing cursors with
  | nil => rfl
  | cons first nodes ih =>
    rw [List.map_cons, List.mem_cons, not_or] at h
    rw [List.foldl_cons, List.foldl_cons, enter_comm cursors h.1, ih h.2]

end Cursors

namespace Tree

/-! ## The nodes that a pass enters -/

mutual

/-- The nodes that an activation enters on these cursors, in the order in which they are
completed. -/
def entered (cursors : Cursors) : Tree → List Tree
  | leaf id pattern => [leaf id pattern]
  | group id .sequence ts tag => enteredAll cursors ts ++ [group id .sequence ts tag]
  | group id .cycle ts tag =>
    enteredNth cursors ts (cursors.turn id ts.length).1 ++ [group id .cycle ts tag]
  | group id .chord ts tag => enteredAll cursors ts ++ [group id .chord ts tag]
  | modified id kind amount inner tag =>
    entered cursors inner ++ [modified id kind amount inner tag]

/-- The nodes that activations of these nodes enter. -/
def enteredAll (cursors : Cursors) : List Tree → List Tree
  | [] => []
  | t :: ts => entered cursors t ++ enteredAll cursors ts

/-- The nodes that an activation of the node at an index enters. -/
def enteredNth (cursors : Cursors) : List Tree → Nat → List Tree
  | [], _ => []
  | t :: _, 0 => entered cursors t
  | _ :: ts, index + 1 => enteredNth cursors ts index

end

/-- The cursors once an activation is over. -/
def turned (cursors : Cursors) (t : Tree) : Cursors :=
  (t.entered cursors).foldl enter cursors

mutual

theorem entered_sublist (cursors : Cursors) : ∀ t : Tree, (t.entered cursors).Sublist t.nodes
  | leaf .. => List.Sublist.refl _
  | group _ .sequence ts _ => (enteredAll_sublist cursors ts).append (List.Sublist.refl _)
  | group _ .cycle ts _ => (enteredNth_sublist cursors ts _).append (List.Sublist.refl _)
  | group _ .chord ts _ => (enteredAll_sublist cursors ts).append (List.Sublist.refl _)
  | modified _ _ _ inner _ => (entered_sublist cursors inner).append (List.Sublist.refl _)

theorem enteredAll_sublist (cursors : Cursors) :
    ∀ ts : List Tree, (enteredAll cursors ts).Sublist (nodesAll ts)
  | [] => List.Sublist.refl _
  | t :: ts => (entered_sublist cursors t).append (enteredAll_sublist cursors ts)

theorem enteredNth_sublist (cursors : Cursors) :
    ∀ (ts : List Tree) (index : Nat), (enteredNth cursors ts index).Sublist (nodesAll ts)
  | [], _ => List.Sublist.refl _
  | t :: _, 0 => (entered_sublist cursors t).trans (List.sublist_append_left _ _)
  | _ :: ts, index + 1 =>
    (enteredNth_sublist cursors ts index).trans (List.sublist_append_right _ _)

end

theorem id_entered_sublist (cursors : Cursors) (t : Tree) :
    ((t.entered cursors).map id).Sublist t.ids := by
  rw [← map_id_nodes]
  exact (entered_sublist cursors t).map id

theorem id_enteredAll_sublist (cursors : Cursors) (ts : List Tree) :
    ((enteredAll cursors ts).map id).Sublist (idsAll ts) := by
  rw [← map_id_nodesAll]
  exact (enteredAll_sublist cursors ts).map id

theorem id_enteredNth_sublist (cursors : Cursors) (ts : List Tree) (index : Nat) :
    ((enteredNth cursors ts index).map id).Sublist (idsAll ts) := by
  rw [← map_id_nodesAll]
  exact (enteredNth_sublist cursors ts index).map id

/-! ## The steps of a pass -/

variable {β : Type} [Beats β] (env : Env)

mutual

/-- The steps of an activation on these cursors, without chords. -/
def steps (cursors : Cursors) (duration : β) (gain : Float) : Tree → List (Step β)
  | leaf id pattern =>
    [⟨[⟨id, pattern, pattern.tag.innerGain gain⟩], duration, pattern.activeSpans env⟩]
  | group _ _ [] tag => [.rest duration tag.spans]
  | group _ .sequence (t :: ts) tag =>
    (stepsAll cursors (duration / Beats.ofNat (t :: ts).length) (tag.innerGain gain)
      (t :: ts)).map (.under tag.spans)
  | group id .cycle (t :: ts) tag =>
    (stepsNth cursors duration (tag.innerGain gain) (t :: ts)
      (cursors.turn id (t :: ts).length).1).map (.under tag.spans)
  | group _ .chord (_ :: _) _ => []
  | modified _ kind amount inner tag =>
    let amount := (amount.resolve env).toNumber
    (steps cursors (kind.innerDuration amount duration)
      (kind.innerGain amount (tag.innerGain gain)) inner).map (.under tag.spans)

/-- The steps of activations one after another. -/
def stepsAll (cursors : Cursors) (duration : β) (gain : Float) : List Tree → List (Step β)
  | [] => []
  | t :: ts => steps cursors duration gain t ++ stepsAll cursors duration gain ts

/-- The steps of an activation of the node at an index. -/
def stepsNth (cursors : Cursors) (duration : β) (gain : Float) : List Tree → Nat → List (Step β)
  | [], _ => []
  | t :: _, 0 => steps cursors duration gain t
  | _ :: ts, index + 1 => stepsNth cursors duration gain ts index

end

/-! ## Turns are all that matters of the cursors -/

/-- It is the turn of the same child at each cycle among these nodes. -/
def SameTurns (nodes : List Tree) (c d : Cursors) : Prop :=
  ∀ node ∈ nodes, node.takesTurns = true →
    (c.turn node.id node.children.length).1 = (d.turn node.id node.children.length).1

theorem SameTurns.mono {nodes nodes' : List Tree} {c d : Cursors} (h : SameTurns nodes' c d)
    (hsub : nodes ⊆ nodes') : SameTurns nodes c d :=
  fun node hnode => h node (hsub hnode)

theorem sameTurns_nodesAll {c d : Cursors} {ts : List Tree} (h : AgreeOn (idsAll ts) c d) :
    SameTurns (nodesAll ts) c d := by
  intro node hnode _
  refine fst_turn_eq_of_agreeOn h ?_ _
  rw [← map_id_nodesAll]
  exact List.mem_map_of_mem hnode

variable {c d : Cursors}

mutual

theorem entered_congr : ∀ t : Tree, SameTurns t.nodes c d → t.entered c = t.entered d
  | leaf .., _ => rfl
  | group _ .sequence ts _, h => by
    rw [entered, entered, enteredAll_congr ts (h.mono (List.subset_append_left _ _))]
  | group _ .cycle [] _, _ => rfl
  | group id .cycle (t :: ts) tag, h => by
    have hturn : (c.turn id (t :: ts).length).1 = (d.turn id (t :: ts).length).1 :=
      h _ (List.mem_append_right _ (List.mem_singleton.2 rfl)) rfl
    rw [entered, entered, hturn,
      enteredNth_congr (t :: ts) _ (h.mono (List.subset_append_left _ _))]
  | group _ .chord ts _, h => by
    rw [entered, entered, enteredAll_congr ts (h.mono (List.subset_append_left _ _))]
  | modified _ _ _ inner _, h => by
    rw [entered, entered, entered_congr inner (h.mono (List.subset_append_left _ _))]

theorem enteredAll_congr :
    ∀ ts : List Tree, SameTurns (nodesAll ts) c d → enteredAll c ts = enteredAll d ts
  | [], _ => rfl
  | t :: ts, h => by
    rw [enteredAll, enteredAll, entered_congr t (h.mono (List.subset_append_left _ _)),
      enteredAll_congr ts (h.mono (List.subset_append_right _ _))]

theorem enteredNth_congr :
    ∀ (ts : List Tree) (index : Nat), SameTurns (nodesAll ts) c d →
      enteredNth c ts index = enteredNth d ts index
  | [], _, _ => rfl
  | t :: _, 0, h => entered_congr t (h.mono (List.subset_append_left _ _))
  | _ :: ts, index + 1, h => enteredNth_congr ts index (h.mono (List.subset_append_right _ _))

end

mutual

theorem steps_congr (duration : β) (gain : Float) : ∀ t : Tree, SameTurns t.nodes c d →
    t.steps env c duration gain = t.steps env d duration gain
  | leaf .., _ => rfl
  | group _ _ [] _, _ => rfl
  | group _ .sequence (t :: ts) _, h => by
    rw [steps, steps, stepsAll_congr _ _ (t :: ts) (h.mono (List.subset_append_left _ _))]
  | group id .cycle (t :: ts) tag, h => by
    have hturn : (c.turn id (t :: ts).length).1 = (d.turn id (t :: ts).length).1 :=
      h _ (List.mem_append_right _ (List.mem_singleton.2 rfl)) rfl
    rw [steps, steps, hturn,
      stepsNth_congr _ _ (t :: ts) _ (h.mono (List.subset_append_left _ _))]
  | group _ .chord (_ :: _) _, _ => rfl
  | modified _ _ _ inner _, h => by
    rw [steps, steps, steps_congr _ _ inner (h.mono (List.subset_append_left _ _))]

theorem stepsAll_congr (duration : β) (gain : Float) :
    ∀ ts : List Tree, SameTurns (nodesAll ts) c d →
      stepsAll env c duration gain ts = stepsAll env d duration gain ts
  | [], _ => rfl
  | t :: ts, h => by
    rw [stepsAll, stepsAll, steps_congr _ _ t (h.mono (List.subset_append_left _ _)),
      stepsAll_congr _ _ ts (h.mono (List.subset_append_right _ _))]

theorem stepsNth_congr (duration : β) (gain : Float) :
    ∀ (ts : List Tree) (index : Nat), SameTurns (nodesAll ts) c d →
      stepsNth env c duration gain ts index = stepsNth env d duration gain ts index
  | [], _, _ => rfl
  | t :: _, 0, h => steps_congr _ _ t (h.mono (List.subset_append_left _ _))
  | _ :: ts, index + 1, h =>
    stepsNth_congr _ _ ts index (h.mono (List.subset_append_right _ _))

end

end Tree

/-! ## An activation has these steps and leaves these cursors -/

namespace Visit

open PatternSynth.Tree hiding id

variable {β : Type} [Beats β] (timing : ChordTiming β) (env : Env)

mutual

theorem yields_start (duration : β) (gain : Float) (cursors : Cursors) :
    ∀ t : Tree, t.isChordFree = true → t.ids.Nodup →
      Yields timing env (start timing env duration gain cursors t)
        (t.steps env cursors duration gain) (t.turned cursors)
  | .leaf .., _, _ => yields_once _ cursors
  | .group _ kind [] _, _, _ => by
    cases kind <;> exact yields_once _ cursors
  | .group _ .sequence (t :: ts) tag, hfree, hnodup => by
    have hfirst := yields_startFirst tag.spans (duration / Beats.ofNat (t :: ts).length)
      (tag.innerGain gain) cursors (t :: ts) hfree (List.nodup_append.1 hnodup).1
    rw [turned, entered, List.foldl_append]
    exact hfirst
  | .group id .cycle (t :: ts) tag, hfree, hnodup => by
    obtain ⟨hchildren, -, hapart⟩ := List.nodup_append'.1 hnodup
    have hbranch := yields_startNth duration (tag.innerGain gain)
      (cursors.turn id (t :: ts).length).2 (t :: ts) (cursors.turn id (t :: ts).length).1 hfree
      hchildren
    -- The turn of the cycle itself is not among those of its children.
    have hagree := (local_turn id (t :: ts).length).agreeOn_of_disjoint hapart cursors
    have hturns := sameTurns_nodesAll hagree
    have hid : ∀ index, id ∉ (enteredNth cursors (t :: ts) index).map Tree.id := fun index hmem =>
      hapart ((id_enteredNth_sublist cursors (t :: ts) index).subset hmem)
        (List.mem_singleton.2 rfl)
    rw [stepsNth_congr env _ _ (t :: ts) _ hturns, enteredNth_congr (t :: ts) _ hturns,
      ← enter_cycle cursors id t ts tag, foldl_enter_comm (hid _)] at hbranch
    rw [turned, entered, List.foldl_append]
    exact hbranch.surround tag.spans
  | .group _ .chord (_ :: _) _, hfree, _ => Bool.noConfusion hfree
  | .modified _ kind amount inner tag, hfree, hnodup => by
    have hinner := yields_start (kind.innerDuration (amount.resolve env).toNumber duration)
      (kind.innerGain (amount.resolve env).toNumber (tag.innerGain gain)) cursors inner hfree
      (List.nodup_append.1 hnodup).1
    rw [start_modified, turned, entered, List.foldl_append]
    exact hinner.surround tag.spans

theorem yields_startFirst (spans : List Span) (duration : β) (gain : Float) (cursors : Cursors) :
    ∀ ts : List Tree, areChordFree ts = true → (idsAll ts).Nodup →
      Yields timing env (startFirst timing env spans duration gain cursors ts)
        ((stepsAll env cursors duration gain ts).map (.under spans))
        ((enteredAll cursors ts).foldl enter cursors)
  | [], _, _ => .ended cursors
  | t :: ts, hfree, hnodup => by
    obtain ⟨ht, hts⟩ := areChordFree_cons.1 hfree
    obtain ⟨hfirst, hothers, hapart⟩ := List.nodup_append'.1 hnodup
    have hyields := yields_startFirst spans duration gain (t.turned cursors) ts hts hothers
    have hagree : AgreeOn (idsAll ts) (t.turned cursors) cursors := fun i hi =>
      getElem?_foldl_enter (fun hmem => hapart ((id_entered_sublist cursors t).subset hmem) hi)
        cursors
    have hturns := sameTurns_nodesAll hagree
    rw [stepsAll_congr env _ _ ts hturns, enteredAll_congr ts hturns] at hyields
    rw [startFirst_cons, stepsAll, List.map_append, enteredAll, List.foldl_append]
    exact (yields_start duration gain cursors t ht hfirst).proceed hyields

theorem yields_startNth (duration : β) (gain : Float) (cursors : Cursors) :
    ∀ (ts : List Tree) (index : Nat), areChordFree ts = true → (idsAll ts).Nodup →
      Yields timing env (startNth timing env duration gain cursors ts index)
        (stepsNth env cursors duration gain ts index)
        ((enteredNth cursors ts index).foldl enter cursors)
  | [], _, _, _ => .ended cursors
  | t :: _, 0, hfree, hnodup =>
    yields_start duration gain cursors t (areChordFree_cons.1 hfree).1
      (List.nodup_append.1 hnodup).1
  | _ :: ts, index + 1, hfree, hnodup =>
    yields_startNth duration gain cursors ts index (areChordFree_cons.1 hfree).2
      (List.nodup_append.1 hnodup).2.1

end

end Visit

/-! ## Passes -/

namespace Score

variable (score : Score)

/-- The cursors with which a pass starts. -/
def cursorsAt : Nat → Cursors
  | 0 => score.cursors
  | k + 1 => score.tree.turned (cursorsAt k)

/-- The steps of a pass. -/
def pass {β : Type} [Beats β] (env : Env) (k : Nat) : List (Step β) :=
  score.tree.steps env (score.cursorsAt k) (Beats.ofNat 1) 1

/-- Without chords, these are the passes that a player hands out. -/
theorem passes_of_isChordFree {β : Type} [Beats β] (timing : ChordTiming β) (env : Env)
    (hfree : score.tree.isChordFree = true) (hnodup : score.tree.ids.Nodup) :
    Passes timing env score score.cursorsAt (score.pass env) where
  cursors_zero := rfl
  yields k := Visit.yields_start timing env _ _ (score.cursorsAt k) score.tree hfree hnodup
  ne_nil k hnil := by
    have hyields := Visit.yields_start timing env (Beats.ofNat 1) 1 (score.cursorsAt k) score.tree
      hfree hnodup
    obtain ⟨step, v, after, hstart, -⟩ := Visit.start_proceeds timing env (Beats.ofNat 1) 1
      (score.cursorsAt k) score.tree hfree
    rw [pass] at hnil
    rw [hstart, hnil] at hyields
    cases hyields

end Score

end PatternSynth
