import Mathlib.Algebra.GroupWithZero.Nat
import Mathlib.Algebra.Order.BigOperators.Group.List
import Mathlib.Algebra.Order.Group.Nat
import PatternSynth.Proofs.Program.Effect
import PatternSynth.Proofs.Tree.Numbering

/-!
# What a compile keeps is within the limits

The machine charges every pattern it makes. So whatever it keeps, on the stack and in the commands,
has no more nodes than were charged, and none of it nests deeper than patterns may
(`Machine.Bounded`). A pattern is paid for once, however often it is moved afterwards, because
moving it and scaling its gain make no node that was not there. A prepared pattern is no larger and
no deeper than the pattern it was made from.
-/

namespace PatternSynth

/-! ## Prepared patterns -/

namespace Pattern

theorem nodes_extentOver (ps : List Pattern) (counted : Extent) :
    (extentOver counted ps).nodes = counted.nodes + (ps.map nodes).sum := by
  induction ps generalizing counted with
  | nil => rfl
  | cons p ps ih =>
    simp only [extentOver, ih, Extent.addChild, List.map_cons, List.sum_cons, nodes]
    omega

theorem le_depth_extentOver (ps : List Pattern) (counted : Extent) :
    counted.depth ≤ (extentOver counted ps).depth := by
  induction ps generalizing counted with
  | nil => exact Nat.le_refl _
  | cons p ps ih =>
    have hps := ih (counted.addChild p.extent)
    simp only [extentOver, Extent.addChild] at hps ⊢
    omega

theorem extent_scaleGain (factor : Float) (p : Pattern) :
    (p.scaleGain factor).extent = p.extent := by
  cases p <;> rfl

end Pattern

namespace Tree

mutual

/-- How deep a tree nests. A leaf has depth one. -/
def depth : Tree → Nat
  | leaf .. => 1
  | group _ _ children _ => depthAll children + 1
  | modified _ _ _ inner _ => inner.depth + 1

/-- The depth of the deepest of some trees. -/
def depthAll : List Tree → Nat
  | [] => 0
  | t :: ts => max t.depth (depthAll ts)

end

open Pattern (extentOver)

mutual

/-- A pattern has at least as many nodes as it is given numbers. -/
theorem size_number_le (cursors : Cursors) :
    ∀ p : Pattern, (number cursors p).2.size ≤ cursors.size + p.extent.nodes
  | .atom .. => by simp [number, Pattern.extent, Extent.leaf]
  | .operator _ args _ => by
    simp only [number, Array.size_push, Pattern.extent, Pattern.nodes_extentOver, Extent.leaf]
    omega
  | .modified _ amount inner _ => by
    have hinner := size_number_le cursors inner
    simp only [number, Array.size_push, Pattern.extent, Extent.addChild, Extent.leaf]
    omega
  | .group _ children _ _ => by
    have hchildren := size_numberAll_le cursors .leaf children
    simp only [number, Array.size_push, Pattern.extent, Extent.leaf] at hchildren ⊢
    omega

theorem size_numberAll_le (cursors : Cursors) (counted : Extent) :
    ∀ ps : List Pattern, (numberAll cursors [] ps).2.size + counted.nodes ≤
      cursors.size + (extentOver counted ps).nodes
  | [] => by simp [numberAll, extentOver]
  | p :: ps => by
    have hfirst := size_number_le cursors p
    have hothers := size_numberAll_le (number cursors p).2 (counted.addChild p.extent) ps
    simp only [numberAll_cons, extentOver, Extent.addChild] at hothers ⊢
    omega

end

mutual

/-- A pattern nests at least as deep as its tree. -/
theorem depth_number_le (cursors : Cursors) :
    ∀ p : Pattern, (number cursors p).1.depth ≤ p.extent.depth
  | .atom .. => by simp [number, depth, Pattern.extent, Extent.leaf]
  | .operator _ args _ => by
    simp only [number, depth, Pattern.extent]
    exact Pattern.le_depth_extentOver args .leaf
  | .modified _ amount inner _ => by
    have hinner := depth_number_le cursors inner
    simp only [number, depth, Pattern.extent, Extent.addChild]
    omega
  | .group _ children _ _ => by
    simp only [number, depth, Pattern.extent]
    exact depth_numberAll_lt cursors .leaf (Nat.le_refl 1) children

theorem depth_numberAll_lt (cursors : Cursors) (counted : Extent) (hcounted : 1 ≤ counted.depth) :
    ∀ ps : List Pattern,
      depthAll (numberAll cursors [] ps).1 + 1 ≤ (extentOver counted ps).depth
  | [] => hcounted
  | p :: ps => by
    have hfirst := depth_number_le cursors p
    have hothers := depth_numberAll_lt (number cursors p).2 (counted.addChild p.extent)
      (Nat.le_trans hcounted (Nat.le_max_left _ _)) ps
    have hparent := Pattern.le_depth_extentOver ps (counted.addChild p.extent)
    simp only [numberAll_cons, depthAll, extentOver, Extent.addChild] at hothers hparent ⊢
    omega

end

end Tree

/-! ## What the machine keeps -/

namespace Machine

/-- The machine is within the limits: what it keeps has been charged, and what was charged is no
more than may be. -/
structure Bounded (m : Machine) : Prop where
  depth_le : ∀ p ∈ m.patterns, p.depth ≤ Limit.nesting
  nodes_le : (m.patterns.map Pattern.nodes).sum ≤ m.built
  built_le : m.built ≤ Limit.builtNodes

theorem bounded_initial (tempo : Float) : (initial tempo).Bounded where
  depth_le _ hp := (List.not_mem_nil hp).elim
  nodes_le := Nat.le_refl 0
  built_le := Nat.zero_le _

theorem Bounded.withTable {m : Machine} (h : m.Bounded) (definitions : Definitions)
    (expanded : Nat) : (m.withTable definitions expanded).Bounded :=
  ⟨h.depth_le, h.nodes_le, h.built_le⟩

/-- Some of the patterns have at most as many nodes. -/
theorem nodes_le_of_subperm {ps qs : List Pattern} (h : ps.Subperm qs) :
    (ps.map Pattern.nodes).sum ≤ (qs.map Pattern.nodes).sum := by
  obtain ⟨ps', hperm, hsub⟩ := h
  have hsame : (ps'.map Pattern.nodes).sum = (ps.map Pattern.nodes).sum :=
    (hperm.map Pattern.nodes).sum_nat
  have hle : (ps'.map Pattern.nodes).sum ≤ (qs.map Pattern.nodes).sum :=
    (hsub.map Pattern.nodes).sum_le_sum fun _ _ => Nat.zero_le _
  omega

/-- Whatever is done to the patterns, they stay within the limits. -/
theorem Bounded.effect {token : Token} {m m' : Machine} (h : m.Bounded)
    (heffect : Effect token m m') : m'.Bounded := by
  obtain ⟨hdepth, hnodes, hbuilt⟩ := h
  cases heffect with
  | moved hsame hkept =>
    have hle := nodes_le_of_subperm hkept
    exact ⟨fun p hp => hdepth p (hkept.subset hp), by omega, by omega⟩
  | @scaled factor p rest hsame hold hkept =>
    have hle := nodes_le_of_subperm hkept
    have hle' := nodes_le_of_subperm hold
    have hp : (p.scaleGain factor).nodes = p.nodes := by
      rw [Pattern.nodes, Pattern.extent_scaleGain, Pattern.nodes]
    refine ⟨?_, ?_, by omega⟩
    · intro q hq
      rcases List.mem_cons.1 (hkept.subset hq) with rfl | hq
      · rw [Pattern.depth, Pattern.extent_scaleGain]
        exact hdepth p (hold.subset List.mem_cons_self)
      · exact hdepth q (hold.subset (List.mem_cons_of_mem _ hq))
    · simp only [List.map_cons, List.sum_cons] at hle hle'
      omega
  | @made p hmade hnew hcharged hlimit hkept =>
    have hle := nodes_le_of_subperm hkept
    refine ⟨?_, ?_, hlimit⟩
    · intro q hq
      rcases List.mem_cons.1 (hkept.subset hq) with rfl | hq
      · exact hnew
      · exact hdepth q hq
    · simp only [List.map_cons, List.sum_cons] at hle
      omega

end Machine

/-! ## Compiled programs -/

/-- Every state that a compile passes through is within the limits. -/
theorem bounded_compileTrace (mode : Mode) (tempo : Float) (source : String) :
    (compileTrace mode tempo source).Meets Machine.Bounded fun _ => True := by
  have hmeets := meets_compileTrace (P := Machine.Bounded) mode tempo source
    (fun _ _ _ _ hm heffect => hm.effect heffect)
    (fun definitions expanded _ hm => hm.withTable definitions expanded)
    (Machine.bounded_initial tempo)
  exact hmeets.imp (fun _ hm => hm) fun _ _ => trivial

/-- Every state that a compile passes through is within the limits. So the patterns of a compiled
program have no more nodes together than may be charged, and a prepared command has at most as many
numbers as nodes and nests no deeper than a pattern may. -/
theorem bounded_compile (mode : Mode) (tempo : Float) (source : String) :
    compile mode tempo source = (compileTrace mode tempo source).outcome.map Machine.finish ∧
      (∀ m ∈ Machine.initial tempo :: (compileTrace mode tempo source).states, m.Bounded) ∧
      ∀ program, compile mode tempo source = .ok program →
        (program.patterns.map Pattern.nodes).sum ≤ Limit.builtNodes ∧
          (∀ p ∈ program.patterns, p.depth ≤ Limit.nesting) ∧
          ∀ c ∈ program.commands,
            (Score.ofPattern c.pattern).size ≤ c.pattern.nodes ∧
              (Score.ofPattern c.pattern).tree.depth ≤ Limit.nesting := by
  have hmeets := bounded_compileTrace mode tempo source
  refine ⟨compile_eq_outcome mode tempo source,
    List.forall_mem_cons.2 ⟨Machine.bounded_initial tempo, hmeets.1⟩, ?_⟩
  intro program hprogram
  obtain ⟨m, hm, rfl⟩ := hmeets.finish hprogram
  refine ⟨hm.nodes_le.trans hm.built_le, hm.depth_le, ?_⟩
  intro c hc
  have hdepth : c.pattern.depth ≤ Limit.nesting :=
    hm.depth_le c.pattern (List.mem_append_left _ (List.mem_map_of_mem hc))
  have hsize := Tree.size_number_le #[] c.pattern
  have hnesting := Tree.depth_number_le #[] c.pattern
  simp only [Array.size_empty, Nat.zero_add] at hsize
  exact ⟨hsize, hnesting.trans hdepth⟩

end PatternSynth
