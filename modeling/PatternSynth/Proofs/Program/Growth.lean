import PatternSynth.Proofs.Pattern.Skeleton
import PatternSynth.Proofs.Program.Bounds
import PatternSynth.Proofs.Token.Meaning

/-!
# How large arithmetic makes a pattern before it is charged

Distributing an operator copies the cells of each operand once for every choice of cells of the
others. Replacing the cells of a pattern by patterns that are at most so many times as large makes
it at most so many times as large (`Pattern.nodes_graft_le`), and something like it holds of the
depth. So an operator makes a pattern of at most as many nodes as its operands have when they are
multiplied, times one more than there are operands (`Pattern.nodes_operate_le`). The machine
multiplies the operands before it distributes the operator, so that even what is refused in the end
has never been much larger than the limits.
-/

namespace PatternSynth

namespace Pattern

theorem nodes_operator (op : Operator) (args : List Pattern) (tag : Tag) :
    (operator op args tag).nodes = 1 + (args.map nodes).sum := by
  rw [nodes, extent, nodes_extentOver, Extent.leaf]

theorem nodes_group (kind : Grouping) (children : List Pattern) (cursor : UInt64) (tag : Tag) :
    (group kind children cursor tag).nodes = 1 + (children.map nodes).sum := by
  rw [nodes, extent, nodes_extentOver, Extent.leaf]

theorem one_le_nodes (p : Pattern) : 1 ≤ p.nodes := by
  cases p with
  | atom => exact Nat.le_refl 1
  | operator op args tag => exact (nodes_operator op args tag).symm ▸ Nat.le_add_right 1 _
  | group kind children cursor tag =>
    exact (nodes_group kind children cursor tag).symm ▸ Nat.le_add_right 1 _
  | modified kind amount inner tag =>
    simp only [nodes, extent, Extent.addChild, Extent.leaf]
    omega

theorem one_le_depth (p : Pattern) : 1 ≤ p.depth := by
  cases p with
  | atom => exact Nat.le_refl 1
  | operator op args tag => exact le_depth_extentOver args .leaf
  | group kind children cursor tag => exact le_depth_extentOver children .leaf
  | modified kind amount inner tag =>
    simp only [depth, extent, Extent.addChild, Extent.leaf]
    omega

/-! ## Depth -/

theorem depth_lt_extentOver {p : Pattern} {ps : List Pattern} (hp : p ∈ ps) (counted : Extent) :
    p.depth + 1 ≤ (extentOver counted ps).depth := by
  induction ps generalizing counted with
  | nil => cases hp
  | cons q ps ih =>
    rw [extentOver]
    rcases List.mem_cons.1 hp with rfl | hp
    · have hfirst : p.depth + 1 ≤ (counted.addChild p.extent).depth := Nat.le_max_right _ _
      exact hfirst.trans (le_depth_extentOver ps _)
    · exact ih hp _

theorem depth_extentOver_le {ps : List Pattern} {counted : Extent} {bound : Nat}
    (hcounted : counted.depth ≤ bound) (hps : ∀ p ∈ ps, p.depth + 1 ≤ bound) :
    (extentOver counted ps).depth ≤ bound := by
  induction ps generalizing counted with
  | nil => exact hcounted
  | cons p ps ih =>
    obtain ⟨hp, hps⟩ := List.forall_mem_cons.1 hps
    exact ih (Nat.max_le.2 ⟨hcounted, hp⟩) hps

/-- If what is put in place of each cell is at most `more` deeper than the cell and `less`, so is
the whole. -/
theorem depth_graft_le {f : Pattern → Pattern} {less more : Nat} (hmore : less ≤ more)
    {p : Pattern} (h : ∀ x ∈ p.cells, (f x).depth + less ≤ x.depth + more) :
    (p.graft f).depth + less ≤ p.depth + more := by
  induction p using skeletonInduction with
  | hscalar p hp =>
    rw [graft_scalar hp]
    exact h p (by rw [cells_scalar hp, List.mem_singleton])
  | hgroup kind children cursor tag hkind ih =>
    have hdepth : (extentOver .leaf (children.map (graft f))).depth ≤
        (extentOver .leaf children).depth + (more - less) := by
      refine depth_extentOver_le ?_ ?_
      · exact (le_depth_extentOver children .leaf).trans (Nat.le_add_right _ _)
      · intro q hq
        obtain ⟨child, hchild, rfl⟩ := List.mem_map.1 hq
        have hgraft := ih child hchild fun x hx => h x (by
          rw [cells_group hkind]
          exact List.mem_flatMap.2 ⟨child, hchild, hx⟩)
        have hlt := depth_lt_extentOver hchild .leaf
        omega
    rw [graft_group hkind]
    simp only [depth, extent]
    omega

/-- The first operand makes an operator one deeper than itself, and each other one makes it deeper
by less than its own depth. -/
theorem depth_operator_le (op : Operator) (args : List Pattern) (tag : Tag) :
    (operator op args tag).depth + args.length ≤ (args.map depth).sum + 2 := by
  have hothers : ∀ (ps : List Pattern) (counted : Extent), 2 ≤ counted.depth →
      (extentOver counted ps).depth + ps.length ≤ counted.depth + (ps.map depth).sum := by
    intro ps
    induction ps with
    | nil => exact fun counted _ => Nat.le_refl _
    | cons p ps ih =>
      intro counted hcounted
      have hp := one_le_depth p
      have hps := ih (counted.addChild p.extent) (hcounted.trans (Nat.le_max_left _ _))
      simp only [extentOver, List.length_cons, List.map_cons, List.sum_cons]
      simp only [Extent.addChild, depth] at hps hp ⊢
      omega
  cases args with
  | nil => exact Nat.le_succ 1
  | cons p ps =>
    have hp := one_le_depth p
    have hps := hothers ps (Extent.leaf.addChild p.extent)
      (Nat.le_trans (Nat.succ_le_succ hp) (Nat.le_max_right _ _))
    simp only [depth, extent, extentOver, List.length_cons, List.map_cons, List.sum_cons]
    simp only [Extent.addChild, Extent.leaf, depth] at hps hp ⊢
    omega

theorem length_le_sum_depth (ps : List Pattern) : ps.length ≤ (ps.map depth).sum := by
  induction ps with
  | nil => exact Nat.le_refl 0
  | cons p ps ih =>
    have hp := one_le_depth p
    rw [List.length_cons, List.map_cons, List.sum_cons]
    omega

section Operands

variable (op : Operator) (keyword : Span)

theorem depth_substituted_le (chosen args : List Pattern) :
    (substituted op keyword chosen args).depth + (chosen.length + args.length) ≤
      (chosen.map depth).sum + (args.map depth).sum + 2 := by
  induction args generalizing chosen with
  | nil => exact depth_operator_le op chosen _
  | cons p rest ih =>
    have hchosen := length_le_sum_depth chosen
    have hrest := length_le_sum_depth rest
    have hcells : ∀ x ∈ p.cells,
        (substituted op keyword (chosen ++ [x]) rest).depth + (chosen.length + rest.length + 1) ≤
          x.depth + ((chosen.map depth).sum + (rest.map depth).sum + 2) := by
      intro x _
      have hx := ih (chosen ++ [x])
      simp only [List.length_append, List.length_singleton, List.map_append, List.map_singleton,
        List.sum_append, List.sum_singleton] at hx
      omega
    have hgraft := depth_graft_le (by omega) hcells
    simp only [List.length_cons, List.map_cons, List.sum_cons, substituted]
    omega

theorem depth_operate_le (args : List Pattern) :
    (operate op args keyword).depth + args.length ≤ (args.map depth).sum + 2 := by
  have h := depth_substituted_le op keyword [] args
  rw [operate_eq_substituted]
  simpa using h

end Operands

/-! ## Nodes -/

/-- If what is put in place of each cell has at most so many times as many nodes, so has the
whole. -/
theorem nodes_graft_le {f : Pattern → Pattern} {times : Nat} (htimes : 1 ≤ times) {p : Pattern}
    (h : ∀ x ∈ p.cells, (f x).nodes ≤ times * x.nodes) : (p.graft f).nodes ≤ times * p.nodes := by
  induction p using skeletonInduction with
  | hscalar p hp =>
    rw [graft_scalar hp]
    exact h p (by rw [cells_scalar hp, List.mem_singleton])
  | hgroup kind children cursor tag hkind ih =>
    have hchildren : ∀ child ∈ children, (child.graft f).nodes ≤ times * child.nodes := by
      intro child hchild
      refine ih child hchild fun x hx => h x ?_
      rw [cells_group hkind]
      exact List.mem_flatMap.2 ⟨child, hchild, hx⟩
    rw [graft_group hkind, nodes_group, nodes_group, List.map_map]
    calc 1 + (children.map (nodes ∘ graft f)).sum
        ≤ times + (children.map fun child => times * child.nodes).sum :=
          Nat.add_le_add htimes (List.sum_le_sum hchildren)
      _ = times * (1 + (children.map nodes).sum) := by
          rw [List.sum_map_mul_left, Nat.mul_add, Nat.mul_one]

theorem prod_nodes_pos (ps : List Pattern) : 0 < (ps.map nodes).prod := by
  refine List.prod_pos fun n hn => ?_
  obtain ⟨p, -, rfl⟩ := List.mem_map.1 hn
  exact one_le_nodes p

/-- An operator has one node and those of its operands, none of which has more than the product. -/
theorem nodes_operator_le (op : Operator) (args : List Pattern) (tag : Tag) :
    (operator op args tag).nodes ≤ (args.length + 1) * (args.map nodes).prod := by
  have hpos := prod_nodes_pos args
  have hsum : (args.map nodes).sum ≤ args.length * (args.map nodes).prod := by
    have hle := List.sum_le_card_nsmul (args.map nodes) (args.map nodes).prod fun n hn =>
      Nat.le_of_dvd hpos (List.dvd_prod hn)
    rwa [List.length_map, smul_eq_mul] at hle
  rw [nodes_operator, Nat.succ_mul]
  omega

section Operands

variable (op : Operator) (keyword : Span)

theorem nodes_substituted_le (chosen args : List Pattern) :
    (substituted op keyword chosen args).nodes ≤
      (chosen.length + args.length + 1) * ((chosen.map nodes).prod * (args.map nodes).prod) := by
  induction args generalizing chosen with
  | nil =>
    rw [List.map_nil, List.prod_nil, Nat.mul_one]
    exact nodes_operator_le op chosen _
  | cons p rest ih =>
    have htimes : 1 ≤ (chosen.length + rest.length + 2) *
        ((chosen.map nodes).prod * (rest.map nodes).prod) :=
      Nat.mul_pos (Nat.succ_pos _) (Nat.mul_pos (prod_nodes_pos chosen) (prod_nodes_pos rest))
    refine (nodes_graft_le htimes fun x _ => (ih (chosen ++ [x])).trans_eq ?_).trans_eq ?_
    · simp only [List.length_append, List.length_singleton, List.map_append, List.map_singleton,
        List.prod_append, List.prod_singleton]
      ring
    · simp only [List.length_cons, List.map_cons, List.prod_cons]
      ring

theorem nodes_operate_le (args : List Pattern) :
    (operate op args keyword).nodes ≤ (args.length + 1) * (args.map nodes).prod := by
  have h := nodes_substituted_le op keyword [] args
  rw [operate_eq_substituted]
  simpa using h

end Operands

end Pattern

namespace Machine

open Pattern

/-! ## What the machine distributes -/

/-- The values that an operator finds on the stack, deepest first. -/
def operands (m : Machine) (op : Operator) : List Pattern :=
  StackItem.values (m.stack.take op.arity)

theorem operands_subset_patterns (m : Machine) (op : Operator) : m.operands op ⊆ m.patterns :=
  fun _ hp => values_subset_patterns m
    ((StackItem.values_sublist (List.take_sublist op.arity m.stack)).subset hp)

/-- Operands that are all values, and that multiply to few enough nodes, are distributed over one
another, and what comes of it is charged. -/
theorem operate_of_operands {m : Machine} {op : Operator}
    (harity : (m.operands op).length = op.arity)
    (hproduct : (m.operands op).foldl (fun n p => n * p.extent.nodes) 1 ≤ Limit.builtNodes)
    (span : Span) :
    m.operate op span =
      { m with stack := m.stack.drop op.arity }.push (.operate op (m.operands op) span) span := by
  have htaken : op.arity ≤ (m.stack.take op.arity).length := by
    have hle : (m.operands op).length ≤ (m.stack.take op.arity).reverse.length :=
      List.length_filterMap_le _ _
    rwa [harity, List.length_reverse] at hle
  rw [operands] at harity hproduct
  rw [operate, if_neg (Nat.not_lt.2 htaken), if_neg (harity.symm ▸ Nat.lt_irrefl _),
    if_neg (Nat.not_lt.2 hproduct)]
  rfl

theorem foldl_nodes_eq_prod (ps : List Pattern) :
    ps.foldl (fun n p => n * p.extent.nodes) 1 = (ps.map nodes).prod := by
  rw [List.prod_eq_foldl, List.foldl_map]
  rfl

/-- What a machine within the limits distributes is not much larger than the limits. -/
theorem Bounded.operate_le {m : Machine} (h : m.Bounded) {op : Operator}
    (harity : (m.operands op).length = op.arity)
    (hproduct : (m.operands op).foldl (fun n p => n * p.extent.nodes) 1 ≤ Limit.builtNodes)
    (span : Span) :
    (Pattern.operate op (m.operands op) span).nodes ≤ 3 * Limit.builtNodes ∧
      (Pattern.operate op (m.operands op) span).depth ≤ 2 * Limit.nesting := by
  have hlength : (m.operands op).length ≤ 2 := by
    rw [harity]
    cases op <;> decide
  have hdepths : ((m.operands op).map Pattern.depth).sum ≤ (m.operands op).length * 256 := by
    have hle := List.sum_le_card_nsmul ((m.operands op).map Pattern.depth) Limit.nesting ?_
    · rwa [List.length_map] at hle
    · intro d hd
      obtain ⟨p, hp, rfl⟩ := List.mem_map.1 hd
      exact h.depth_le p (operands_subset_patterns m op hp)
  constructor
  · rw [foldl_nodes_eq_prod] at hproduct
    exact (nodes_operate_le op span _).trans (Nat.mul_le_mul (by omega) hproduct)
  · have hdepth := depth_operate_le op span (m.operands op)
    have hnesting : Limit.nesting = 256 := rfl
    omega

/-- An operator makes of one pattern, or of two, at most three times as many nodes as they have
multiplied. One pattern becomes at most one deeper, and two at most as deep as both together. So
operands in the middle of a compile that multiply to few enough nodes are made into a pattern that
is at most three times as large as may be charged and twice as deep, and only then is it charged. -/
theorem operate_growth :
    (∀ (op : Operator) (p : Pattern) (keyword : Span),
      (Pattern.operate op [p] keyword).nodes ≤ 3 * p.nodes ∧
        (Pattern.operate op [p] keyword).depth ≤ p.depth + 1) ∧
    (∀ (op : Operator) (p q : Pattern) (keyword : Span),
      (Pattern.operate op [p, q] keyword).nodes ≤ 3 * (p.nodes * q.nodes) ∧
        (Pattern.operate op [p, q] keyword).depth ≤ p.depth + q.depth) ∧
    ∀ (mode : Mode) (tempo : Float) (source : String),
      ∀ m ∈ initial tempo :: (compileTrace mode tempo source).states,
        ∀ (op : Operator) (span : Span), (m.operands op).length = op.arity →
          (m.operands op).foldl (fun n p => n * p.extent.nodes) 1 ≤ Limit.builtNodes →
            m.operate op span = { m with stack := m.stack.drop op.arity }.push
              (.operate op (m.operands op) span) span ∧
            (Pattern.operate op (m.operands op) span).nodes ≤ 3 * 2 ^ 18 ∧
            (Pattern.operate op (m.operands op) span).depth ≤ 512 := by
  refine ⟨fun op p keyword => ?_, fun op p q keyword => ?_, ?_⟩
  · have hnodes := nodes_operate_le op keyword [p]
    have hdepth := depth_operate_le op keyword [p]
    simp only [List.length_singleton, List.map_singleton, List.prod_singleton,
      List.sum_singleton] at hnodes hdepth
    omega
  · have hnodes := nodes_operate_le op keyword [p, q]
    have hdepth := depth_operate_le op keyword [p, q]
    simp only [List.length_cons, List.length_nil, List.map_cons, List.map_nil, List.prod_cons,
      List.prod_nil, List.sum_cons, List.sum_nil, Nat.mul_one] at hnodes hdepth
    omega
  · intro mode tempo source m hm op span harity hproduct
    have hbounded : m.Bounded := by
      rcases List.mem_cons.1 hm with rfl | hm
      · exact bounded_initial tempo
      · exact (bounded_compileTrace mode tempo source).1 m hm
    exact ⟨operate_of_operands harity hproduct span, hbounded.operate_le harity hproduct span⟩

/-- A source that leaves a sequence and a number on the stack. -/
def sequenceAndNumber : String :=
  "[ 1 2 ] 3"

/-- The machine that the source leaves. -/
def holdingSequenceAndNumber : Machine :=
  { initial 120 with
    stack := [.value (.literal (.number 3) ⟨8, 9⟩),
      .value (.collect .sequence
        [.literal (.number 1) ⟨2, 3⟩, .literal (.number 2) ⟨4, 5⟩])]
    built := 6 }

theorem holdingSequenceAndNumber_mem_states :
    holdingSequenceAndNumber ∈
      initial 120 :: (compileTrace .commit 120 sequenceAndNumber).states := by
  have htokens : Token.tokenize sequenceAndNumber = [⟨"[", ⟨0, 1⟩⟩, ⟨"1", ⟨2, 3⟩⟩, ⟨"2", ⟨4, 5⟩⟩,
      ⟨"]", ⟨6, 7⟩⟩, ⟨"3", ⟨8, 9⟩⟩] := by
    cbv
  have hwords : ∀ t ∈ Token.tokenize sequenceAndNumber, Word.ofText? t.text ≠ some .define := by
    rw [htokens]
    decide
  refine endsFrom_trace .commit Limit.callDepth _ (initial 120) _ ?_
  rw [outcome_trace, run_eq_performAll .commit
    (flatten_of_performed fun t ht => Token.role_of_ne_define (hwords t ht)) rfl (Nat.zero_le _),
    htokens]
  rfl

theorem operate_growth_sequenceAndNumber :
    let m := holdingSequenceAndNumber
    m ∈ initial 120 :: (compileTrace .commit 120 sequenceAndNumber).states ∧
      (m.operands .add).length = Operator.add.arity ∧
      (m.operands .add).foldl (fun n p => n * p.extent.nodes) 1 ≤ Limit.builtNodes ∧
      m.operate .add ⟨10, 11⟩ = { m with stack := [] }.push
        (.operate .add (m.operands .add) ⟨10, 11⟩) ⟨10, 11⟩ ∧
      (Pattern.operate .add (m.operands .add) ⟨10, 11⟩).nodes ≤ 3 * 2 ^ 18 ∧
      (Pattern.operate .add (m.operands .add) ⟨10, 11⟩).depth ≤ 512 :=
  ⟨holdingSequenceAndNumber_mem_states, rfl, by decide,
    operate_growth.2.2 .commit 120 sequenceAndNumber _ holdingSequenceAndNumber_mem_states .add
      ⟨10, 11⟩ rfl (by decide)⟩

end Machine

end PatternSynth
