import PatternSynth.Pattern.Broadcast
import PatternSynth.Pattern.Extent
import PatternSynth.Program.Basic
import PatternSynth.Program.Limit
import PatternSynth.Token.Lexer
import PatternSynth.Word
import Std.Data.HashMap

/-!
# The stack machine that compiles a source text

Tokens run from left to right against a stack of values and bracket markers. A token is a number if
it starts like one, else a literal if it is quoted, else a builtin word, else a call of a
definition, and else a bare word. Values are charged against the limits as they are pushed.
-/

namespace PatternSynth

/-- What a compile is for: to be played, or only to be shown. -/
inductive Mode where
  | commit
  | eval
deriving DecidableEq, Repr

/-- An entry of the stack. -/
inductive StackItem where
  /-- An opening bracket that waits for its partner. -/
  | marker (kind : Grouping)
  | value (p : Pattern)

namespace StackItem

/-- The value of an entry that is one. -/
def value? : StackItem → Option Pattern
  | value p => some p
  | marker _ => none

/-- Whether an entry is an opening bracket of a kind. -/
def isMarker (kind : Grouping) : StackItem → Bool
  | marker k => k == kind
  | value _ => false

/-- The values of a stack whose top comes first, deepest first. -/
def values (items : List StackItem) : List Pattern :=
  items.reverse.filterMap value?

end StackItem

/-- What a token means before definitions are looked up. -/
inductive Meaning where
  | literal (value : Atom)
  | builtin (w : Word)
  /-- A call of a definition, or a bare word if there is none of that name. -/
  | name (s : String)

/-- A token with a quote in it is never a number. -/
def Token.number? (t : Token) : Option Float :=
  if t.text.toList.contains '"' then none else Number.leading? t.text

/-- What a token means. -/
def Token.meaning (t : Token) : Meaning :=
  match t.number? with
  | some x => .literal (.number x)
  | none =>
    if t.isQuoted then .literal (.text t.unquoted)
    else match Word.ofText? t.text with
      | some w => .builtin w
      | none => .name t.text

/-- Whether a token ends a definition. -/
def Token.isSemicolon (t : Token) : Bool :=
  t.text == ";"

/-- The machine in the middle of a compile. -/
structure Machine where
  /-- The stack, top first. -/
  stack : List StackItem
  /-- The bodies of the definitions so far. -/
  definitions : Std.HashMap String (List Token)
  commands : Array Command
  requests : Array String
  tempo : Float
  /-- Tokens run from bodies of definitions. -/
  expanded : Nat
  /-- Nodes of all values charged. -/
  built : Nat

namespace Pattern

/-- Add a name to the samples asked for, unless it is a builtin word or already there. -/
def request (found : Array String) (name : String) : Array String :=
  if (Word.ofText? name).isSome || found.contains name then found else found.push name

mutual

/-- Add the names that a pattern plays: texts and words, in groups and under modifiers too. -/
def requestsAfter (found : Array String) : Pattern → Array String
  | atom (.text s) _ => request found s
  | atom (.word s) _ => request found s
  | atom _ _ => found
  | operator .. => found
  | group _ children _ _ => requestsAfterAll found children
  | modified _ _ inner _ => requestsAfter found inner

/-- Add the names that each pattern plays. -/
def requestsAfterAll (found : Array String) : List Pattern → Array String
  | [] => found
  | p :: ps => requestsAfterAll (requestsAfter found p) ps

end

end Pattern

namespace Machine

/-- The machine before the first token. -/
def initial (tempo : Float) : Machine :=
  ⟨[], ∅, #[], #[], tempo, 0, 0⟩

/-- What the machine has made when the tokens have run out. Markers are dropped. -/
def finish (m : Machine) : Program :=
  ⟨m.commands.toList, StackItem.values m.stack, m.tempo, m.requests.toList⟩

/-- Charge a value made at `span` against the limits. -/
def charge (m : Machine) (p : Pattern) (span : Span) : Except CompileError Machine :=
  let extent := p.extent
  if extent.depth > Limit.nesting then .error ⟨.nesting, span⟩
  else if m.built + extent.nodes > Limit.builtNodes then .error ⟨.builtNodes, span⟩
  else .ok { m with built := m.built + extent.nodes }

/-- Charge a value and push it. -/
def push (m : Machine) (p : Pattern) (span : Span) : Except CompileError Machine := do
  let m ← m.charge p span
  return { m with stack := .value p :: m.stack }

/-- Render the whole stack: nothing, or its one value, or the sequence of its values. -/
def render (m : Machine) (mode : Mode) (w : Waveform) (span : Span) :
    Except CompileError Machine := do
  let below := { m with stack := [] }
  let issue (m : Machine) (p : Pattern) : Machine :=
    { m with
      commands := m.commands.push ⟨w, p⟩
      requests :=
        if mode = .commit ∧ w = .sample then p.requestsAfter m.requests else m.requests }
  match StackItem.values m.stack with
  | [] => return below
  | [p] => return issue below p
  | ps =>
    let p := Pattern.collect .sequence ps
    return issue (← below.charge p span) p

/-- Close the nearest open bracket of a kind, if there is one. Other markers above it go. -/
def close (m : Machine) (kind : Grouping) (span : Span) : Except CompileError Machine :=
  let inside := m.stack.takeWhile (!·.isMarker kind)
  match m.stack.drop inside.length with
  | [] => .ok m
  | _ :: below =>
    { m with stack := below }.push (.collect kind (StackItem.values inside)) span

/-- Arithmetic on the top of the stack. With too few entries nothing happens. Operands that
multiply to too many nodes are refused before they are distributed over one another. -/
def operate (m : Machine) (op : Operator) (span : Span) : Except CompileError Machine :=
  let taken := m.stack.take op.arity
  if taken.length < op.arity then .ok m
  else
    let below := { m with stack := m.stack.drop op.arity }
    let args := StackItem.values taken
    if args.length < op.arity then below.push (.degenerate op span) span
    else if args.foldl (fun n p => n * p.extent.nodes) 1 > Limit.builtNodes then
      .error ⟨.builtNodes, span⟩
    else below.push (.operate op args span) span

/-- Run a builtin word other than the one that starts a definition. -/
def execute (m : Machine) (mode : Mode) (w : Word) (span : Span) : Except CompileError Machine :=
  match w with
  | .render waveform => m.render mode waveform span
  | .collect kind => { m with stack := [] }.push (.collect kind (StackItem.values m.stack)) span
  | .opening kind => .ok { m with stack := .marker kind :: m.stack }
  | .closing kind => m.close kind span
  | .define => .ok m
  | .dup =>
    match m.stack with
    | .value p :: _ => m.push p span
    | .marker kind :: _ => .ok { m with stack := .marker kind :: m.stack }
    | [] => .ok m
  | .drop => .ok { m with stack := m.stack.tail }
  | .swap =>
    match m.stack with
    | a :: b :: below => .ok { m with stack := b :: a :: below }
    | _ => .ok m
  | .modify kind =>
    match m.stack with
    | .value amount :: .value p :: below =>
      { m with stack := below }.push (.modify kind amount p span) span
    | _ => .ok m
  | .gain =>
    match m.stack with
    | .value amount :: .value p :: below =>
      let factor := (amount.resolve .zero).toNumber
      .ok { m with stack := .value (p.scaleGain factor) :: below }
    | _ => .ok m
  | .tempo =>
    match m.stack with
    | .value p :: below =>
      let tempo := (p.resolve .zero).toNumber
      let m := { m with stack := below }
      .ok (if tempo.isFinite && tempo > 0 then { m with tempo } else m)
    | _ => .ok m
  | .var v => m.push (.literal (.var v) span) span
  | .operate op => m.operate op span

/-- Count a token that is run from the body of a definition. -/
def expand (m : Machine) (span : Span) : Except CompileError Machine :=
  if m.expanded + 1 > Limit.expandedTokens then .error ⟨.expandedTokens, span⟩
  else .ok { m with expanded := m.expanded + 1 }

/-- Run tokens with `levels` levels of calls left. The tokens of the source have all of them. -/
def run (mode : Mode) (levels : Nat) (tokens : List Token) (m : Machine) :
    Except CompileError Machine :=
  match tokens with
  | [] => .ok m
  | token :: rest =>
    match if levels < Limit.callDepth then m.expand token.span else .ok m with
    | .error e => .error e
    | .ok m =>
      match token.meaning with
      | .literal value =>
        match m.push (.literal value token.span) token.span with
        | .error e => .error e
        | .ok m => run mode levels rest m
      | .builtin .define =>
        match rest with
        | [] => .ok m
        | name :: after =>
          let body := after.takeWhile (!·.isSemicolon)
          run mode levels (after.drop (body.length + 1))
            { m with definitions := m.definitions.insert name.text body }
      | .builtin w =>
        match m.execute mode w token.span with
        | .error e => .error e
        | .ok m => run mode levels rest m
      | .name s =>
        match m.definitions[s]? with
        | none =>
          match m.push (.literal (.word s) token.span) token.span with
          | .error e => .error e
          | .ok m => run mode levels rest m
        | some body =>
          match levels with
          | 0 => .error ⟨.callDepth s, token.span⟩
          | fewer + 1 =>
            match run mode fewer body m with
            | .error e => .error e
            | .ok m => run mode (fewer + 1) rest m
termination_by (levels, tokens.length)
decreasing_by all_goals (simp_wf; omega)

end Machine

/-- Compile a source text, starting from a tempo. -/
def compile (mode : Mode) (tempo : Float) (source : String) : Except CompileError Program :=
  (Machine.run mode Limit.callDepth (Token.tokenize source) (.initial tempo)).map Machine.finish

/-- Compile a source text only to show what it comes to. -/
def evaluate (tempo : Float) (source : String) : Except CompileError String :=
  (compile .eval tempo source).map Program.display

end PatternSynth
