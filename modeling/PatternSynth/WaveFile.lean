import PatternSynth.Files
import PatternSynth.Sample

/-!
# Sound files in the RIFF WAVE format

A file is a header, then chunks with a tag and a length. A `fmt ` chunk says how samples are stored
and the first `data` chunk holds them. The checks stand in the order in which a fault is reported.
Integer samples are scaled, and the scale is computed with 64 bits before the first of them is read.
Where it does not fit, there is no fault to report: the program ends.
-/

namespace PatternSynth

namespace WaveFile

/-- What is wrong with the bytes of a file. -/
inductive Fault where
  | endOfFile
  | illFormed (reason : String)
  | unsupported
  /-- A sample has more bytes than can be read. -/
  | tooWide
deriving DecidableEq, Repr

/-- The fault in words. -/
def Fault.message : Fault → String
  | endOfFile => "Failed to read enough bytes."
  | illFormed reason => "Ill-formed WAVE file: " ++ reason
  | unsupported => "The wave format of the file is not supported."
  | tooWide => "The sample has more bits than the destination type."

/-- The scale of integer samples is one, shifted by so many bits, and it does not fit into 64. -/
structure Overflow where
  shift : Nat
deriving DecidableEq, Repr

/-- How the number in a sample is written. -/
inductive Encoding where
  | integer
  | float
deriving DecidableEq, Repr

/-- What a `fmt ` chunk says. -/
structure Format where
  channels : Nat
  rate : UInt32
  /-- The bits of a sample that count. -/
  bits : Nat
  /-- The bytes that a sample takes. -/
  width : Nat
  encoding : Encoding
deriving DecidableEq, Repr

/-- Readers of bytes, which are used up from the front. -/
abbrev Reader := StateT (List UInt8) (Except Fault)

/-- A fault in how the file is put together. -/
def illFormed {α : Type} (reason : String) : Reader α :=
  throw (.illFormed reason)

/-- The next `n` bytes. -/
def take (n : Nat) : Reader (List UInt8) := fun bytes =>
  let taken := bytes.take n
  if taken.length < n then .error .endOfFile else .ok (taken, bytes.drop n)

/-- The number whose bytes are given, the lowest first. -/
def littleEndian (bytes : List UInt8) : Nat :=
  bytes.foldr (fun b n => b.toNat + 256 * n) 0

/-- A number of `n` bytes. -/
def number (n : Nat) : Reader Nat :=
  littleEndian <$> take n

/-- The bytes of an ASCII tag. -/
def tagBytes (tag : String) : List UInt8 :=
  tag.toList.map fun c => c.toNat.toUInt8

/-- The end of the identifiers that an extended format names its encoding by. -/
def identifierTail : List UInt8 :=
  [0x00, 0x00, 0x00, 0x00, 0x10, 0x00, 0x80, 0x00, 0x00, 0xaa, 0x00, 0x38, 0x9b, 0x71]

/-- The rest of a plain integer format. -/
def readInteger (length : Nat) (f : Format) : Reader Format := do
  unless length = 16 || length = 18 || length = 40 do illFormed "unexpected fmt chunk size"
  if length = 16 then return f
  let _ ← take 2
  unless f.bits = 8 || f.bits = 16 || f.bits = 24 do illFormed "bits per sample is not 8 or 16"
  if length = 40 then let _ ← take 22
  return f

/-- The rest of a plain float format. -/
def readFloat (length : Nat) (f : Format) : Reader Format := do
  unless length = 16 || length = 18 do illFormed "unexpected fmt chunk size"
  if length = 18 then
    let extra ← number 2
    unless extra = 0 do illFormed "unexpected WAVEFORMATEX size"
  unless f.bits = 32 do illFormed "bits per sample is not 32"
  return { f with encoding := .float }

/-- The rest of an extended format. -/
def readExtended (length : Nat) (f : Format) : Reader Format := do
  if length < 40 then illFormed "unexpected fmt chunk size"
  let extra ← number 2
  unless extra = 22 do illFormed "unexpected WAVEFORMATEXTENSIBLE size"
  let validBits ← number 2
  let _ ← take 4
  let identifier ← take 16
  let bits := if validBits > 0 then validBits else f.bits
  if identifier = [0x01, 0x00] ++ identifierTail then return { f with bits, encoding := .integer }
  else if identifier = [0x03, 0x00] ++ identifierTail then
    return { f with bits, encoding := .float }
  else throw .unsupported

/-- A `fmt ` chunk of a length. -/
def readFormat (length : Nat) : Reader Format := do
  if length < 16 then illFormed "invalid fmt chunk size"
  let tag ← number 2
  let channels ← number 2
  let rate ← number 4
  let bytesPerSecond ← number 4
  let align ← number 2
  let bits ← number 2
  if channels = 0 then illFormed "file contains zero channels"
  let width := align / channels
  if bits > 8 * width || 0x10000 ≤ 8 * width then illFormed "sample bits exceeds size of sample"
  unless bytesPerSecond = align * rate do illFormed "inconsistent fmt chunk"
  unless bits % 8 = 0 do illFormed "bits per sample is not a multiple of 8"
  if bits = 0 then illFormed "bits per sample is 0"
  let f : Format := ⟨channels, rate.toUInt32, bits, width, .integer⟩
  match tag with
  | 1 => readInteger length f
  | 3 => readFloat length f
  | 0xfffe => readExtended length f
  | _ => throw .unsupported

/-- Go from chunk to chunk up to the samples, and give their format and their length in bytes. Each
chunk takes eight bytes at least, so `fuel` chunks are enough for as many bytes. -/
def findData (format : Option Format) : Nat → Reader (Format × Nat)
  | 0 => throw .endOfFile
  | fuel + 1 => do
    let tag ← take 4
    let length ← number 4
    if tag = tagBytes "fmt " then
      let f ← readFormat length
      findData (some f) fuel
    else if tag = tagBytes "fact" then
      let _ ← take 4
      findData format fuel
    else if tag = tagBytes "data" then
      match format with
      | some f => return (f, length)
      | none => illFormed "missing fmt chunk"
    else
      let _ ← take length
      findData format fuel

/-- Read a file up to its samples, and give their format and their number. -/
def readHeader : Reader (Format × Nat) := do
  unless (← take 4) = tagBytes "RIFF" do illFormed "no RIFF tag found"
  let _ ← take 4
  unless (← take 4) = tagBytes "WAVE" do illFormed "no WAVE tag found"
  let (f, length) ← findData none (← get).length
  unless length % f.width = 0 do illFormed "data chunk length is not a multiple of sample size"
  unless (length / f.width) % f.channels = 0 do illFormed "invalid data chunk length"
  return (f, length / f.width)

/-- The signed integer of `bits` bits with this bit pattern. -/
def signed (bits pattern : Nat) : Int :=
  (pattern : Int).bmod (1 <<< bits)

/-- One, shifted to the left within 64 bits. -/
def shiftedOne (shift : Nat) : Except Overflow UInt64 :=
  if shift < 64 then .ok (1 <<< shift.toUInt64) else .error ⟨shift⟩

/-- Half the range of the integers of a number of bits. -/
def fullScale (bits : Nat) : Except Overflow Float32 :=
  UInt64.toFloat32 <$> shiftedOne (max bits 1 - 1)

/-- The next integer, if samples of this size can be read. -/
def readIntegerSample (f : Format) : Reader Int := do
  match f.width, f.bits with
  | 1, 8 => return (← number 1) - 128
  | 2, 16 => return signed 16 (← number 2)
  | 3, 24 => return signed 24 (← number 3)
  | 4, 24 => return signed 24 (← number 4)
  | 4, 32 => return signed 32 (← number 4)
  | width, _ => throw (if width > 4 then .tooWide else .unsupported)

/-- The next float, if samples of this size can be read. -/
def readFloatSample (f : Format) : Reader Float32 := do
  match f.width, f.bits with
  | 4, 32 => return Float32.ofBits (← number 4).toUInt32
  | width, _ => throw (if width > 4 then .tooWide else .unsupported)

/-- How the next sample is read. Integers are scaled to lie between minus one and one. -/
def sampleReader (f : Format) : Except Overflow (Reader Float32) :=
  match f.encoding with
  | .integer => do
    let scale ← fullScale f.bits
    return (fun v => Float32.ofInt v / scale) <$> readIntegerSample f
  | .float => return readFloatSample f

/-- Read a number of samples after those already found. -/
def readSamples (next : Reader Float32) (found : Array Float32) : Nat → Reader (Array Float32)
  | 0 => return found
  | n + 1 => do
    let x ← next
    readSamples next (found.push x) n

/-- The mean of the channels of each frame. -/
def mixDown (channels : Nat) (samples : Array Float32) : Array Float32 :=
  let frame (i : Nat) : Float32 :=
    (samples.extract (i * channels) ((i + 1) * channels)).foldl (· + ·) (-0.0) /
      Float32.ofNat channels
  (Array.range (samples.size / channels)).map frame

end WaveFile

/-- Why a sample could not be loaded. -/
inductive SampleError where
  | io (fault : FileFault)
  | wave (fault : WaveFile.Fault)
  | empty
deriving DecidableEq, Repr

/-- The error in words. -/
def SampleError.message : SampleError → String
  | io fault => "sample I/O error: " ++ fault.message
  | wave fault => "WAV error: " ++ fault.message
  | empty => "WAV file contains no samples"

/-- The samples of a sound file as they are interleaved, with their format. -/
def WaveFile.decode (bytes : List UInt8) :
    Except Overflow (Except Fault (Format × Array Float32)) := do
  match readHeader bytes with
  | .error fault => return .error fault
  | .ok ((f, count), data) =>
    let next ← sampleReader f
    return (f, ·) <$> (readSamples next #[] count).run' data

/-- Decode a sound file and mix it down to mono. -/
def SampleBuffer.ofWave (bytes : List UInt8) :
    Except WaveFile.Overflow (Except SampleError SampleBuffer) := do
  match ← WaveFile.decode bytes with
  | .error fault => return .error (.wave fault)
  | .ok (f, samples) =>
    if samples.isEmpty then return .error .empty
    else return .ok ⟨WaveFile.mixDown f.channels samples, f.rate⟩

/-- Load a sound file. -/
def SampleBuffer.load {m : Type → Type} [Monad m] (files : Files m) (path : String) :
    ExceptT WaveFile.Overflow m (Except SampleError SampleBuffer) := do
  match ← files.read path with
  | .error fault => return .error (.io fault)
  | .ok bytes => ofWave bytes.toList

end PatternSynth
