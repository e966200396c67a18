import PatternSynth.Config.Basic
import PatternSynth.Decimal.Shortest
import PatternSynth.Files
import PatternSynth.Number
import PatternSynth.Yaml.Document

/-!
# Settings as a YAML document

A document names some of the settings; the others keep their usual values. Names that are not
settings are passed over, but a setting that is named twice is refused.
-/

namespace PatternSynth

/-- How a setting is read and written. -/
inductive Setting where
  | real (get : Config → Float) (set : Float → Config → Config)
  | whole (get : Config → UInt64) (set : UInt64 → Config → Config)
  | flag (get : Config → Bool) (set : Bool → Config → Config)

/-- Why settings could not be loaded. -/
inductive ConfigError where
  | io (fault : FileFault)
  | document
deriving DecidableEq, Repr

/-- The error in words. -/
def ConfigError.message : ConfigError → String
  | io fault => "config I/O error: " ++ fault.message
  | document => "config parse error"

namespace Setting

/-- A number in a document. A sign may stand before it; the infinities and NaN have names. -/
def real? (s : String) : Option Float :=
  let unsigned := match s.toList with
    | '+' :: cs => String.ofList cs
    | _ => s
  if [".inf", ".Inf", ".INF"].contains unsigned then some Number.infinity
  else if ["-.inf", "-.Inf", "-.INF"].contains s then some (-Number.infinity)
  else if [".nan", ".NaN", ".NAN"].contains s then some Number.nan
  else if s.startsWith "+" && (unsigned.startsWith "+" || unsigned.startsWith "-") then none
  else (Number.ofText? unsigned).filter Float.isFinite

/-- The value of a digit. -/
def digit? (base : Nat) (c : Char) : Option Nat :=
  let n :=
    if c.isDigit then c.toNat - '0'.toNat
    else if c.isAlpha then c.toLower.toNat - 'a'.toNat + 10
    else base
  if n < base then some n else none

/-- A row of digits that fits 64 bits. -/
def digits? (base : Nat) (ds : List Char) : Option UInt64 :=
  if ds.isEmpty then none
  else match ds.foldlM (fun n c => (digit? base c).map (base * n + ·)) 0 with
    | some n => if n < UInt64.size then some n.toUInt64 else none
    | none => none

/-- A whole number in a document, in base ten, or with a base mark. In base ten it has no zeros in
front. -/
def whole? (s : String) : Option UInt64 :=
  let cs := match s.toList with
    | '+' :: cs => cs
    | cs => cs
  match cs with
  | '0' :: 'x' :: ds => digits? 16 ds
  | '0' :: 'o' :: ds => digits? 8 ds
  | '0' :: 'b' :: ds => digits? 2 ds
  | '0' :: _ :: _ => none
  | ds => digits? 10 ds

/-- A truth value in a document. -/
def flag? (s : String) : Option Bool :=
  if ["true", "True", "TRUE"].contains s then some true
  else if ["false", "False", "FALSE"].contains s then some false
  else none

/-- The full name of the tag for the values of a setting. -/
def tag : Setting → String
  | real .. => "tag:yaml.org,2002:float"
  | whole .. => "tag:yaml.org,2002:int"
  | flag .. => "tag:yaml.org,2002:bool"

/-- Whether a scalar can stand for the value of a setting: a plain one can, and a literal block with
the right tag. -/
def accepts (setting : Setting) (s : Yaml.Scalar) : Bool :=
  match s.style with
  | .plain => true
  | .literal => s.tag == some setting.tag
  | _ => false

/-- Set a setting from a scalar. -/
def read? (setting : Setting) (s : Yaml.Scalar) (c : Config) : Option Config :=
  if !setting.accepts s then none
  else match setting with
    | real _ set => (real? s.text).map (set · c)
    | whole _ set => (whole? s.text).map (set · c)
    | flag _ set => (flag? s.text).map (set · c)

/-- A number written with the fewest digits that read back: as an integer or a fraction between
`1e-5` and `1e16`, and with an exponent beyond. -/
def decimalText (d : Decimal) : String :=
  let ds := toString d.coefficient
  let before : Int := ds.length + d.exponent
  if 0 < before && before ≤ 16 then
    if 0 ≤ d.exponent then d.positional ++ ".0" else d.positional
  else if -5 < before && before ≤ 0 then d.positional
  else
    let tail := (ds.drop 1).toString
    (ds.take 1).toString ++ (if tail.isEmpty then "" else "." ++ tail) ++ "e" ++
      toString (before - 1)

/-- A number in a document. -/
def realText (x : Float) : String :=
  match Binary.ofFloat x with
  | .nan => ".nan"
  | .infinite negative => Number.minus negative ++ ".inf"
  | .finite negative 0 _ => Number.minus negative ++ "0.0"
  | .finite negative m e => Number.minus negative ++ decimalText (Decimal.shortest .even m e)

/-- The text of a setting. -/
def text (setting : Setting) (c : Config) : String :=
  match setting with
  | real get _ => realText (get c)
  | whole get _ => toString (get c).toNat
  | flag get _ => if get c then "true" else "false"

end Setting

namespace Config

/-- The settings by name, in the order they are written. -/
def settings : List (String × Setting) := [
  ("default_bpm", .real defaultTempo fun x c => { c with defaultTempo := x }),
  ("frequency_smoothing", .real frequencySmoothing fun x c => { c with frequencySmoothing := x }),
  ("amplitude_smoothing", .real amplitudeSmoothing fun x c => { c with amplitudeSmoothing := x }),
  ("amplitude_gate", .real amplitudeGate fun x c => { c with amplitudeGate := x }),
  ("headroom", .real headroom fun x c => { c with headroom := x }),
  ("chord_min_step", .real chordMinStep fun x c => { c with chordMinStep := x }),
  ("chord_stall", .real chordStall fun x c => { c with chordStall := x }),
  ("chord_epsilon", .real chordEpsilon fun x c => { c with chordEpsilon := x }),
  ("max_steps_per_sample", .whole maxStepsPerSample fun n c => { c with maxStepsPerSample := n }),
  ("carry_voices", .flag carryVoices fun b c => { c with carryVoices := b }),
  ("noise_seed", .whole noiseSeed fun n c => { c with noiseSeed := n }),
  ("block_size", .whole blockSize fun n c => { c with blockSize := n })]

/-- Read the entries of a document after the settings in `seen`. -/
def ofEntries (d : Yaml.Document) (c : Config) (seen : List String) :
    List (Yaml.Node × Yaml.Node) → Option Config
  | [] => some c
  | (key, value) :: rest =>
    match d.scalar? key with
    | none => none
    | some name =>
      match settings.lookup name.text with
      | none => ofEntries d c seen rest
      | some setting =>
        if seen.contains name.text then none
        else match (d.scalar? value).bind (setting.read? · c) with
          | some c => ofEntries d c (name.text :: seen) rest
          | none => none

/-- Read settings from a document. An empty one leaves everything as usual. -/
def ofDocument (d : Yaml.Document) : Option Config :=
  match d.root with
  | .mapping entries => ofEntries d {} [] entries
  | .scalar s => if s.text.isEmpty && s.style == .plain then some {} else none
  | _ => none

/-- Read settings from a text. A blank text, or one without a document, leaves everything as
usual. -/
def ofText (text : String) : Except ConfigError Config :=
  if (Text.trim text.toList).isEmpty then .ok {}
  else match Yaml.Document.ofText? text with
    | none => .error .document
    | some none => .ok {}
    | some (some d) =>
      match ofDocument d with
      | some c => .ok c
      | none => .error .document

/-- Load settings from a file. Where there is no file everything is as usual. -/
def load {m : Type → Type} [Monad m] (files : Files m) (path : String) :
    m (Except ConfigError Config) := do
  match ← files.readText path with
  | .ok text => return ofText text
  | .error .missing => return .ok {}
  | .error fault => return .error (.io fault)

/-- Write settings as a document, one to a line. -/
def toText (c : Config) : String :=
  settings.foldl (fun out (name, setting) => out ++ name ++ ": " ++ setting.text c ++ "\n") ""

end Config

end PatternSynth
