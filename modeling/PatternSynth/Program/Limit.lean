import PatternSynth.Span

/-!
# Limits on a compile

Almost nothing in the language is an error: unknown words, too short a stack and stray brackets all
come to something harmless. What remains is runaway growth, and it stops the compile.
-/

namespace PatternSynth

namespace Limit

/-- How deep definitions may call one another. -/
def callDepth : Nat := 64

/-- How deep a value may nest. -/
def nesting : Nat := 256

/-- How many tokens the bodies of definitions may run to, over one compile. -/
def expandedTokens : Nat := 262144

/-- How many nodes the values pushed on the stack may add up to, over one compile. -/
def builtNodes : Nat := 262144

end Limit

/-- Which limit a compile ran into. -/
inductive Overrun where
  /-- Calls of definitions nest too deep; `name` is the one that was called. -/
  | callDepth (name : String)
  | nesting
  | expandedTokens
  | builtNodes
deriving DecidableEq, Repr

namespace Overrun

/-- The name of the kind of error. -/
def kind : Overrun → String
  | callDepth _ => "MacroDepth"
  | nesting => "NestingDepth"
  | expandedTokens => "ExpansionLimit"
  | builtNodes => "PatternSize"

/-- What went wrong, in words. -/
def explanation : Overrun → String
  | callDepth name =>
    "macro '" ++ name ++ "' expanded more than " ++ toString Limit.callDepth ++ " levels deep"
  | nesting => "value nested more than " ++ toString Limit.nesting ++ " levels deep"
  | expandedTokens => "macros expanded more than " ++ toString Limit.expandedTokens ++ " tokens"
  | builtNodes => "program built more than " ++ toString Limit.builtNodes ++ " pattern nodes"

end Overrun

/-- A compile that ran into a limit, and the token it was at. -/
structure CompileError where
  overrun : Overrun
  span : Span
deriving DecidableEq, Repr

/-- The text of an error: `[2..6] MacroDepth: …`. -/
def CompileError.message (e : CompileError) : String :=
  "[" ++ toString e.span.start ++ ".." ++ toString e.span.stop ++ "] " ++ e.overrun.kind ++ ": " ++
    e.overrun.explanation

end PatternSynth
