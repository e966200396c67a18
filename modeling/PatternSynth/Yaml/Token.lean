import PatternSynth.Yaml.Scalar

/-!
# Tokens of a YAML document

Block collections have no brackets in the text. The tokens that start and end them come from the
indentation.
-/

namespace PatternSynth.Yaml

/-- A tag as it is written: the handle stands for the front part of the full name. The full name is
written out where the handle is empty. -/
structure Tag where
  handle : String
  suffix : String
deriving DecidableEq, Repr

/-- What a document is read from. -/
inductive Token where
  /-- The version of the format that a document is written for. -/
  | version (major minor : Nat)
  /-- What a handle stands for in tags. -/
  | handle (name front : String)
  | documentStart
  | documentEnd
  | blockSequenceStart
  | blockMappingStart
  | blockEnd
  | flowSequenceStart
  | flowSequenceEnd
  | flowMappingStart
  | flowMappingEnd
  | blockEntry
  | flowEntry
  | key
  | value
  | anchor (name : String)
  | alias (name : String)
  | tag (tag : Tag)
  | scalar (style : Style) (text : String)
deriving DecidableEq, Repr

end PatternSynth.Yaml
