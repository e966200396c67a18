import PatternSynth.CommandLine.Run
import PatternSynth.Host
import PatternSynth.Main
import PatternSynth.Proofs.Binary.Arithmetic
import PatternSynth.Proofs.Binary.Canonical
import PatternSynth.Proofs.Binary.Nearest
import PatternSynth.Proofs.Binary.Quotient
import PatternSynth.Proofs.Binary.Remainder
import PatternSynth.Proofs.Binary.Rounding
import PatternSynth.Proofs.Binary.Turn
import PatternSynth.Proofs.Binary.Value
import PatternSynth.Proofs.Clock
import PatternSynth.Proofs.Clock.Stretches
import PatternSynth.Proofs.Decimal.Numeral
import PatternSynth.Proofs.Decimal.Reading
import PatternSynth.Proofs.Engine.Blocks
import PatternSynth.Proofs.Engine.Carrying
import PatternSynth.Proofs.Engine.Highlights
import PatternSynth.Proofs.Engine.Samples
import PatternSynth.Proofs.Engine.Sounds
import PatternSynth.Proofs.Engine.Stems
import PatternSynth.Proofs.Engine.Unheard
import PatternSynth.Proofs.Host.Delivery
import PatternSynth.Proofs.Host.Process
import PatternSynth.Proofs.Host.Stream
import PatternSynth.Proofs.Number.Coercion
import PatternSynth.Proofs.Number.Display
import PatternSynth.Proofs.Number.Grammar
import PatternSynth.Proofs.Number.Identity
import PatternSynth.Proofs.Operator.Bits
import PatternSynth.Proofs.Oscillator
import PatternSynth.Proofs.Pattern.Broadcast
import PatternSynth.Proofs.Pattern.Reading
import PatternSynth.Proofs.Pattern.Signature
import PatternSynth.Proofs.Pattern.Skeleton
import PatternSynth.Proofs.Pattern.Words
import PatternSynth.Proofs.Program.Bounds
import PatternSynth.Proofs.Program.Core
import PatternSynth.Proofs.Program.Effect
import PatternSynth.Proofs.Program.Flatten
import PatternSynth.Proofs.Program.Growth
import PatternSynth.Proofs.Program.Literals
import PatternSynth.Proofs.Program.Output
import PatternSynth.Proofs.Program.Preview
import PatternSynth.Proofs.Program.Provenance
import PatternSynth.Proofs.Program.Replies
import PatternSynth.Proofs.Program.Requests
import PatternSynth.Proofs.Program.Trace
import PatternSynth.Proofs.Sound.Caps
import PatternSynth.Proofs.Sound.Glide
import PatternSynth.Proofs.Sound.Health
import PatternSynth.Proofs.Sound.Schedule
import PatternSynth.Proofs.Span
import PatternSynth.Proofs.Step.Activation
import PatternSynth.Proofs.Step.Active
import PatternSynth.Proofs.Step.Assembly
import PatternSynth.Proofs.Step.Chord
import PatternSynth.Proofs.Step.Conservation
import PatternSynth.Proofs.Step.Footprint
import PatternSynth.Proofs.Step.Notes
import PatternSynth.Proofs.Step.Pass
import PatternSynth.Proofs.Step.Period
import PatternSynth.Proofs.Step.Product
import PatternSynth.Proofs.Step.Rotation
import PatternSynth.Proofs.Step.Spans
import PatternSynth.Proofs.Step.Stall
import PatternSynth.Proofs.Step.Time
import PatternSynth.Proofs.Step.Turns
import PatternSynth.Proofs.Step.Visit
import PatternSynth.Proofs.Step.Walk
import PatternSynth.Proofs.Text.Quoted
import PatternSynth.Proofs.Token.Grammar
import PatternSynth.Proofs.Token.Lexer
import PatternSynth.Proofs.Token.Meaning
import PatternSynth.Proofs.Token.Respacing
import PatternSynth.Proofs.Tree.Numbering
import PatternSynth.Proofs.Tree.Slots
import PatternSynth.Proofs.WaveFile.Decoding
