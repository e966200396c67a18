import PatternSynth.Pattern.Basic
import PatternSynth.Waveform

/-! The builtin words and what each does to the stack. -/

namespace PatternSynth

/-- A builtin word. -/
inductive Word where
  /-- Render the whole stack with a waveform. -/
  | render (w : Waveform)
  /-- Collect the whole stack into a group. -/
  | collect (kind : Grouping)
  | opening (kind : Grouping)
  | closing (kind : Grouping)
  /-- Start a definition, `: name body ;`. -/
  | define
  | dup
  | drop
  | swap
  | modify (kind : Modifier)
  /-- Multiply a gain into the value beneath. -/
  | gain
  | tempo
  | var (v : Variable)
  | operate (op : Operator)
deriving DecidableEq, Repr

/-- The builtin word of a text. -/
def Word.ofText? (s : String) : Option Word :=
  match s with
  | "seq" => some (.collect .sequence)
  | "cycle" => some (.collect .cycle)
  | "chord" => some (.collect .chord)
  | "[" => some (.opening .sequence)
  | "]" => some (.closing .sequence)
  | "<" => some (.opening .cycle)
  | ">" => some (.closing .cycle)
  | "(" => some (.opening .chord)
  | ")" => some (.closing .chord)
  | ":" => some .define
  | "dup" => some .dup
  | "drop" => some .drop
  | "swap" => some .swap
  | "vol" => some (.modify .volume)
  | "speed" => some (.modify .speed)
  | "gain" => some .gain
  | "bpm" => some .tempo
  | "t" => some (.var .frame)
  | "time" => some (.var .time)
  | "beat" => some (.var .beat)
  | "+" => some (.operate .add)
  | "-" => some (.operate .sub)
  | "*" => some (.operate .mul)
  | "/" => some (.operate .div)
  | "%" => some (.operate .rem)
  | "and" => some (.operate .and)
  | "or" => some (.operate .or)
  | "xor" => some (.operate .xor)
  | "rshift" => some (.operate .shiftRight)
  | "lshift" => some (.operate .shiftLeft)
  | "pow" => some (.operate .pow)
  | "sin" => some (.operate .sin)
  | "cos" => some (.operate .cos)
  | _ => (Waveform.ofWord? s).map .render

end PatternSynth
