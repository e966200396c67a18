import PatternSynth.Yaml.Scalar

/-!
# Nodes of a YAML document

An alias stands for the node in a slot. Which node that is, is known only at the end of the
document, so the slots belong to the document and not to its nodes.
-/

namespace PatternSynth.Yaml

/-- A node of a document. -/
inductive Node where
  | scalar (scalar : Scalar)
  | sequence (items : List Node)
  | mapping (entries : List (Node × Node))
  | alias (slot : Nat)

/-- The node of a missing value. -/
def Node.empty : Node :=
  .scalar { text := "" }

/-- The names of a document that aliases can refer to, and the slots of the nodes behind them. -/
structure Anchors where
  /-- The names, each once, with the slot that it has now. -/
  slots : List (String × Nat) := []
  /-- The scalar in a slot, or `none` for a collection; what was put there last is in front. -/
  targets : List (Nat × Option Scalar) := []

/-- Give a name to a node. The slot is the number of names before it; a name that is used again
moves to a slot of this number and is counted once. -/
def Anchors.insert (a : Anchors) (name : String) (target : Option Scalar) : Anchors :=
  let slot := a.slots.length
  { slots := (name, slot) :: a.slots.filter (·.1 != name)
    targets := (slot, target) :: a.targets }

/-- A document. -/
structure Document where
  root : Node
  anchors : Anchors

/-- The scalar that a node of a document is or stands for. -/
def Document.scalar? (d : Document) : Node → Option Scalar
  | .scalar s => some s
  | .alias slot => (d.anchors.targets.lookup slot).join
  | _ => none

end PatternSynth.Yaml
