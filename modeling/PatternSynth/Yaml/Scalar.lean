/-!
# Scalars of a YAML document

A scalar is a text. How it was written and the tag in front of it decide what else than a text it
can stand for.
-/

namespace PatternSynth.Yaml

/-- The ways to write a scalar. -/
inductive Style where
  | plain
  | singleQuoted
  | doubleQuoted
  | literal
  | folded
deriving DecidableEq, Repr

/-- A scalar and the full name of its tag, if it has one. -/
structure Scalar where
  text : String
  style : Style := .plain
  tag : Option String := none
deriving DecidableEq, Repr

end PatternSynth.Yaml
