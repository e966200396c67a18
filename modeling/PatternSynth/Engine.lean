import PatternSynth.Clock
import PatternSynth.Program.Machine
import PatternSynth.Sound.Basic

/-!
# The render engine

It compiles what it is sent, plays every sound of the present program against the beat clock, and
mixes them into one channel. A source that does not compile leaves everything as it was.
-/

namespace PatternSynth

/-- What a host sends to the engine. -/
inductive Inbound where
  /-- Source text to play. -/
  | source (text : String)
  /-- Source text to be shown only. -/
  | eval (text : String)
  | sample (name : String) (buffer : SampleBuffer)

/-- What the engine sends to its host. -/
inductive Outbound where
  /-- The reply to source text to be shown. -/
  | result (text : String)
  /-- The samples that a program plays and that are not known. -/
  | request (names : List String)
  /-- The source text that sounds at the start of a block. -/
  | highlight (spans : List Span)
deriving DecidableEq, Repr

/-- The engine. -/
structure Engine where
  config : Config
  sounds : List (Sound Float)
  bank : SampleBank
  clock : Clock Float
  noise : Noise
  /-- Messages for the host, oldest first. -/
  outbox : Array Outbound

namespace Engine

/-- An engine without a program. -/
def ofConfig (config : Config) : Engine :=
  ⟨config, [], ∅, .starting config.defaultTempo, .ofSeed config.noiseSeed, #[]⟩

/-- The tempo that was requested last. -/
def tempo (e : Engine) : Float :=
  e.clock.tempo

/-- Send a message to the host. -/
def send (m : Outbound) (e : Engine) : Engine :=
  { e with outbox := e.outbox.push m }

/-- Take the voices of the first old sound with a signature, which is then left out. -/
def takeVoices (signature : String) :
    List (Sound Float) → Option (List Voice × List (Sound Float))
  | [] => none
  | s :: rest =>
    if s.signature == signature then some (s.voices, rest)
    else (takeVoices signature rest).map fun (voices, rest) => (voices, s :: rest)

/-- Hand the voices of old sounds to new sounds with the same signature, each to at most one. -/
def carryVoices (old : List (Sound Float)) : List (Sound Float) → List (Sound Float)
  | [] => []
  | s :: rest =>
    match takeVoices s.signature old with
    | none => s :: carryVoices old rest
    | some (voices, old) => { s with voices } :: carryVoices old rest

/-- Play a program from now on. -/
def play (p : Program) (e : Engine) : Engine :=
  let fresh := p.commands.map Sound.ofCommand
  let sounds := if e.config.carryVoices then carryVoices e.sounds fresh else fresh
  let e := { e with sounds, clock := e.clock.request p.tempo }
  let missing := p.requests.filter (!e.bank.contains ·)
  if missing.isEmpty then e else e.send (.request missing)

/-- Compile a source text and play it. -/
def load (source : String) (e : Engine) : Except CompileError Engine :=
  (compile .commit e.tempo source).map (e.play ·)

/-- What a source text comes to, or why it does not compile. -/
def evaluate (source : String) (e : Engine) : String :=
  match PatternSynth.evaluate e.tempo source with
  | .ok text => text
  | .error err => err.message

/-- Make a sample known, in place of any other of that name. -/
def register (name : String) (buffer : SampleBuffer) (e : Engine) : Engine :=
  { e with bank := e.bank.insert name buffer }

/-- Act on a message from the host. -/
def handle (m : Inbound) (e : Engine) : Engine :=
  match m with
  | .source text =>
    match e.load text with
    | .ok e => e
    | .error _ => e
  | .eval text => e.send (.result (e.evaluate text))
  | .sample name buffer => e.register name buffer

/-- Stop all sounds. The tempo and the samples stay. -/
def silence (e : Engine) : Engine :=
  { e with sounds := [] }

/-- Take the messages for the host. -/
def drain (e : Engine) : List Outbound × Engine :=
  (e.outbox.toList, { e with outbox := #[] })

/-- Bring every sound to the present beat and add up one frame of them, from left to right. -/
def mix (rig : Rig) (timing : ChordTiming Float) (env : Env) (signal : Float) (g : Noise) :
    List (Sound Float) → Float × List (Sound Float) × Noise
  | [] => (signal, [], g)
  | s :: rest =>
    let s := s.advance timing env env.beat rig.config.maxStepsPerSample.toNat
    let (x, s, g) := s.render rig env g
    let (signal, rest, g) := mix rig timing env (signal + x) g rest
    (signal, s :: rest, g)

/-- Render one frame. -/
def renderFrame (frame : UInt64) (rate : UInt32) (e : Engine) : Float32 × Engine :=
  let env := Env.atFrame frame rate (e.clock.beatAt frame rate)
  let (signal, sounds, noise) :=
    mix ⟨e.config, e.bank, rate⟩ e.config.chordTiming env 0 e.noise e.sounds
  ((signal * e.config.headroom).toFloat32, { e with sounds, noise })

/-- Render frames after those already rendered. -/
def renderFrames (rate : UInt32) :
    Nat → UInt64 → Array Float32 → Engine → Array Float32 × Engine
  | 0, _, rendered, e => (rendered, e)
  | n + 1, frame, rendered, e =>
    let (x, e) := e.renderFrame frame rate
    renderFrames rate n (frame + 1) (rendered.push x) e

/-- The source text that sounds. -/
def activeSpans (e : Engine) : List Span :=
  Span.distinct (e.sounds.flatMap Sound.activeSpans)

/-- Render a block of frames and report what sounds at its start. -/
def render (count : Nat) (frame : UInt64) (rate : UInt32) (e : Engine) :
    Array Float32 × Engine :=
  let e := { e with clock := e.clock.retime frame rate }
  match count with
  | 0 => (#[], e)
  | n + 1 =>
    let (x, e) := e.renderFrame frame rate
    let spans := e.activeSpans
    let (rendered, e) := renderFrames rate n (frame + 1) #[x] e
    (rendered, if spans.isEmpty then e else e.send (.highlight spans))

/-- Render frames in blocks of at most `block` frames, or of one frame if `block` is zero, after
those already rendered. -/
def renderBlocks (block : Nat) (rate : UInt32) (count : Nat) (frame : UInt64)
    (rendered : Array Float32) (e : Engine) : Array Float32 × Engine :=
  if count = 0 then (rendered, e)
  else
    let n := min (max block 1) count
    let (xs, e) := e.render n frame rate
    renderBlocks block rate (count - n) (frame + n.toUInt64) (rendered ++ xs) e
termination_by count

end Engine

end PatternSynth
