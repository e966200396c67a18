import PatternSynth.Number

/-!
# The command line

    [--config FILE] render FILE [--seconds N] [--sample-rate N] [--out FILE] [--samples DIR]
    [--config FILE] eval CODE

A switch takes a value, which follows it as an argument of its own or after `=`. No switch is given
twice, and after `--` there are no more switches.
-/

namespace PatternSynth

/-- What to render. -/
structure RenderJob where
  source : String
  seconds : Float := 10
  rate : UInt32 := 44100
  out : String := "out.wav"
  /-- Where the samples are. -/
  samples : Option String := none

/-- What the program is asked to do. -/
inductive Task where
  | render (job : RenderJob)
  | eval (code : String)

/-- A command line in parts. -/
structure Invocation where
  /-- The file with the settings. -/
  config : Option String
  task : Task

namespace CommandLine

/-- The switches. -/
inductive Switch where
  | config
  | seconds
  | rate
  | out
  | samples
deriving DecidableEq, Repr

/-- A switch by its name. -/
def Switch.ofName? : String → Option Switch
  | "config" => some .config
  | "seconds" => some .seconds
  | "sample-rate" => some .rate
  | "out" => some .out
  | "samples" => some .samples
  | _ => none

/-- A switch by its letter. -/
def Switch.ofLetter? : Char → Option Switch
  | 'c' => some .config
  | 'n' => some .seconds
  | 'r' => some .rate
  | 'o' => some .out
  | 's' => some .samples
  | _ => none

/-- An argument on its own. -/
inductive Argument where
  | word (text : String)
  | switch (s : Switch) (value : Option String)
  | endOfSwitches
  | unknown
deriving DecidableEq, Repr

/-- A value that is attached to a name by `=`. -/
def attached? : List Char → Option String
  | '=' :: value => some (String.ofList value)
  | _ => none

/-- A value that is attached to a letter, with or without `=`. -/
def attachedToLetter? : List Char → Option String
  | [] => none
  | '=' :: value => some (String.ofList value)
  | value => some (String.ofList value)

/-- Tell what an argument is. -/
def Argument.ofText (text : String) : Argument :=
  match text.toList with
  | ['-', '-'] => .endOfSwitches
  | '-' :: '-' :: cs =>
    match Switch.ofName? (String.ofList (cs.takeWhile (· ≠ '='))) with
    | some s => .switch s (attached? (cs.dropWhile (· ≠ '=')))
    | none => .unknown
  | '-' :: c :: cs =>
    match Switch.ofLetter? c with
    | some s => .switch s (attachedToLetter? cs)
    | none => .unknown
  | _ => .word text

/-- Arguments in parts. -/
structure Arguments where
  switches : List (Switch × String) := []
  words : List String := []

namespace Arguments

/-- Add a word in front. -/
def addWord (w : String) (a : Arguments) : Arguments :=
  { a with words := w :: a.words }

/-- Add a switch, unless it is there already or does not belong there. -/
def addSwitch (allowed : List Switch) (s : Switch) (value : String) (a : Arguments) :
    Option Arguments :=
  if allowed.contains s && (a.switches.lookup s).isNone then
    some { a with switches := (s, value) :: a.switches }
  else none

/-- Read arguments of which only the first are switches, up to the first word. -/
def readFront (allowed : List Switch) : List String → Option Arguments
  | [] => some {}
  | text :: rest =>
    match Argument.ofText text, rest with
    | .word w, rest => some { words := w :: rest }
    | .switch s (some value), rest => (readFront allowed rest).bind (addSwitch allowed s value)
    | .switch s none, value :: rest =>
      match Argument.ofText value with
      | .word value => (readFront allowed rest).bind (addSwitch allowed s value)
      | _ => none
    | _, _ => none

/-- Read arguments in any order. -/
def read (allowed : List Switch) : List String → Option Arguments
  | [] => some {}
  | text :: rest =>
    match Argument.ofText text, rest with
    | .word w, rest => (read allowed rest).map (addWord w)
    | .endOfSwitches, rest => some { words := rest }
    | .switch s (some value), rest => (read allowed rest).bind (addSwitch allowed s value)
    | .switch s none, value :: rest =>
      match Argument.ofText value with
      | .word value => (read allowed rest).bind (addSwitch allowed s value)
      | _ => none
    | _, _ => none

/-- The value of a switch. -/
def value? (a : Arguments) (s : Switch) : Option String :=
  a.switches.lookup s

end Arguments

/-- A sample rate that fits 32 bits. -/
def rate? (text : String) : Option UInt32 :=
  let ds := match text.toList with
    | '+' :: ds => ds
    | ds => ds
  if ds.isEmpty || !ds.all Char.isDigit then none
  else
    let n : Nat := ds.foldl (fun n c => 10 * n + (c.toNat - '0'.toNat)) 0
    if n < UInt32.size then some n.toUInt32 else none

/-- The value of a switch as `read` understands it, or what holds without the switch. -/
def valueOr {α : Type} (a : Arguments) (s : Switch) (read : String → Option α) (usual : α) :
    Option α :=
  match a.value? s with
  | none => some usual
  | some text => read text

/-- The task `render`. -/
def renderTask (a : Arguments) : Option Task := do
  let [source] := a.words | none
  let usual : RenderJob := { source }
  let seconds ← valueOr a .seconds Number.ofText? usual.seconds
  let rate ← valueOr a .rate rate? usual.rate
  let out := (a.value? .out).getD usual.out
  return .render { source, seconds, rate, out, samples := a.value? .samples }

/-- The task `eval`. -/
def evalTask (a : Arguments) : Option Task := do
  let [code] := a.words | none
  return .eval code

end CommandLine

open CommandLine in
/-- Read a command line. -/
def Invocation.ofArguments? (args : List String) : Option Invocation := do
  let front ← Arguments.readFront [.config] args
  let (allowed, task, rest) ← match front.words with
    | "render" :: rest => some ([.config, .seconds, .rate, .out, .samples], renderTask, rest)
    | "eval" :: rest => some ([.config], evalTask, rest)
    | _ => none
  let a ← Arguments.read allowed rest
  return ⟨(a.value? .config).or (front.value? .config), ← task a⟩

end PatternSynth
