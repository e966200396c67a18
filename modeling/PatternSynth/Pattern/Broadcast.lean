import PatternSynth.Pattern.Basic

/-!
# Arithmetic on patterns

An operator distributes over the first operand that is a sequence or a chord, and then again inside
each of its children, so that `[1 2] 10 +` becomes `[11 12]` and nested groups keep their shape.
Cycles and modified patterns are operands like any other.
-/

namespace PatternSynth.Pattern

/-- An operator node over these operands, tagged with their spans and the keyword. -/
def scalarOperator (op : Operator) (args : List Pattern) (keyword : Span) : Pattern :=
  operator op args ⟨args.flatMap spans ++ [keyword], none⟩

/-- Distribute over the operands still to come. Those in `settled`, in reverse order, are scalar. -/
def distribute (op : Operator) (keyword : Span) (settled : List Pattern) :
    List Pattern → Pattern
  | [] => scalarOperator op settled.reverse keyword
  | .group kind children cursor tag :: rest =>
    if kind.broadcasts then
      let children := children.map fun child => distribute op keyword settled (child :: rest)
      .group kind children cursor tag
    else distribute op keyword (.group kind children cursor tag :: settled) rest
  | p :: rest => distribute op keyword (p :: settled) rest
termination_by operands => operands
decreasing_by
  · have := List.sizeOf_lt_of_mem ‹_›
    simp only [List.cons.sizeOf_spec, group.sizeOf_spec]
    omega
  · simp only [List.cons.sizeOf_spec]
    omega
  · simp only [List.cons.sizeOf_spec]
    omega

/-- The pattern that an arithmetic word makes of its operands. -/
def operate (op : Operator) (args : List Pattern) (keyword : Span) : Pattern :=
  distribute op keyword [] args

end PatternSynth.Pattern
