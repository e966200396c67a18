import PatternSynth.WaveFile

/-! Writing sound files: one channel of 32-bit floats, in the extended format. -/

namespace PatternSynth.WaveFile

/-- A number in a count of bytes, the lowest first. -/
def toBytes : Nat → Nat → List UInt8
  | 0, _ => []
  | count + 1, n => n.toUInt8 :: toBytes count (n / 256)

/-- A chunk. -/
def chunk (tag : String) (content : List UInt8) : List UInt8 :=
  tagBytes tag ++ toBytes 4 content.length ++ content

/-- The format of one channel of 32-bit floats, placed at the front centre. -/
def monoFormat (rate : UInt32) : List UInt8 :=
  toBytes 2 0xfffe ++ toBytes 2 1 ++ toBytes 4 rate.toNat ++ toBytes 4 (4 * rate.toNat) ++
    toBytes 2 4 ++ toBytes 2 32 ++ toBytes 2 22 ++ toBytes 2 32 ++ toBytes 4 4 ++
    [0x03, 0x00] ++ identifierTail

/-- The bytes of samples one after the other. -/
def sampleBytes (samples : Array Float32) : List UInt8 :=
  samples.toList.flatMap fun x => toBytes 4 x.toBits.toNat

/-- A sound file. -/
def encode (b : SampleBuffer) : List UInt8 :=
  chunk "RIFF" <|
    tagBytes "WAVE" ++ chunk "fmt " (monoFormat b.rate) ++ chunk "data" (sampleBytes b.samples)

end PatternSynth.WaveFile
