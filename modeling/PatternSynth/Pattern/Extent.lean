import PatternSynth.Pattern.Basic

/-! The size of a pattern: how deep it nests and how many nodes it has. -/

namespace PatternSynth

/-- Nesting depth and number of nodes. -/
structure Extent where
  depth : Nat
  nodes : Nat
deriving DecidableEq, Repr

namespace Extent

/-- The extent of a leaf. -/
def leaf : Extent := ⟨1, 1⟩

/-- Add a child to the extent of its parent. -/
def addChild (parent child : Extent) : Extent :=
  ⟨max parent.depth (child.depth + 1), parent.nodes + child.nodes⟩

end Extent

namespace Pattern

mutual

/-- The extent of a pattern. A leaf has depth one; amounts and operands count like children. -/
def extent : Pattern → Extent
  | atom .. => .leaf
  | operator _ args _ => extentOver .leaf args
  | group _ children _ _ => extentOver .leaf children
  | modified _ amount inner _ => (Extent.leaf.addChild amount.extent).addChild inner.extent

/-- The extent of a node with these children, on top of what is already counted. -/
def extentOver (counted : Extent) : List Pattern → Extent
  | [] => counted
  | p :: ps => extentOver (counted.addChild p.extent) ps

end

end Pattern

end PatternSynth
