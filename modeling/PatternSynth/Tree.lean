import PatternSynth.Pattern.Basic

/-!
# Patterns prepared for playing

The structural nodes of a pattern, and its leaves, are numbered in the order in which they are
completed: children before their parent, and the root last. The turns of the cycles are kept apart
from the tree, in one cursor for each number, because they are all that playing changes.
-/

namespace PatternSynth

/-- A numbered pattern. Operators and amounts stay patterns, which are read when they are needed. -/
inductive Tree where
  | leaf (id : Nat) (pattern : Pattern)
  | group (id : Nat) (kind : Grouping) (children : List Tree) (tag : Tag)
  | modified (id : Nat) (kind : Modifier) (amount : Pattern) (inner : Tree) (tag : Tag)

/-- Whose turn it is at each numbered node. -/
abbrev Cursors := Array UInt64

namespace Tree

instance : Inhabited Tree := ⟨.leaf 0 default⟩

/-- The number of the top node. -/
def id : Tree → Nat
  | leaf i _ | group i _ _ _ | modified i _ _ _ _ => i

/-- The tag of the top node. -/
def tag : Tree → Tag
  | leaf _ p => p.tag
  | group _ _ _ t | modified _ _ _ _ t => t

/-- The children of a group, or the inner node of a modifier. -/
def children : Tree → List Tree
  | leaf .. => []
  | group _ _ cs _ => cs
  | modified _ _ _ inner _ => [inner]

mutual

/-- Number a pattern after the nodes that `cursors` already counts. -/
def number (cursors : Cursors) : Pattern → Tree × Cursors
  | .group kind children cursor tag =>
    let (ts, cursors) := numberAll cursors [] children
    (group cursors.size kind ts tag, cursors.push cursor)
  | .modified kind amount inner tag =>
    let (t, cursors) := number cursors inner
    (modified cursors.size kind amount t tag, cursors.push 0)
  | .atom value tag => (leaf cursors.size (.atom value tag), cursors.push 0)
  | .operator op args tag => (leaf cursors.size (.operator op args tag), cursors.push 0)

/-- Number patterns from left to right. Those in `done`, in reverse order, have their numbers. -/
def numberAll (cursors : Cursors) (done : List Tree) : List Pattern → List Tree × Cursors
  | [] => (done.reverse, cursors)
  | p :: ps =>
    let (t, cursors) := number cursors p
    numberAll cursors (t :: done) ps

end

end Tree

/-- A pattern ready to play. -/
structure Score where
  tree : Tree
  cursors : Cursors

namespace Score

/-- Prepare a pattern. -/
def ofPattern (p : Pattern) : Score :=
  let (tree, cursors) := Tree.number #[] p
  ⟨tree, cursors⟩

/-- How many nodes are numbered. -/
def size (s : Score) : Nat :=
  s.cursors.size

end Score

namespace Cursors

/-- The cursor of a node. -/
def read (cursors : Cursors) (id : Nat) : UInt64 :=
  cursors.getD id 0

/-- Which of `count` children is next at a node, and the cursors once it has had its turn. -/
def turn (cursors : Cursors) (id count : Nat) : Nat × Cursors :=
  ((cursors.read id).toNat % count, cursors.setIfInBounds id (cursors.read id + 1))

/-- The child of a node that is next, if it has any, and the cursors once it has had its turn. -/
def rotate (cursors : Cursors) (t : Tree) : Option Tree × Cursors :=
  match t with
  | .group id _ (c :: cs) _ =>
    let (index, cursors) := cursors.turn id (c :: cs).length
    ((c :: cs)[index]?, cursors)
  | _ => (none, cursors)

end Cursors

end PatternSynth
