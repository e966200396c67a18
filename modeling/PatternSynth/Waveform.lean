/-! Waveforms: how a sound turns the values of its leaves into a signal. -/

namespace PatternSynth

/-- How a sound turns resolved values into signal. -/
inductive Waveform where
  | sine
  | saw
  | square
  | triangle
  | noise
  /-- Values are added to the mix as they are. -/
  | raw
  /-- Values name sample buffers to play. -/
  | sample
deriving DecidableEq, Repr

namespace Waveform

/-- All waveforms. -/
def all : List Waveform :=
  [sine, saw, square, triangle, noise, raw, sample]

/-- The word that renders the stack with a waveform. -/
def word : Waveform → String
  | sine => "sine"
  | saw => "saw"
  | square => "sqr"
  | triangle => "tri"
  | noise => "noise"
  | raw => "raw"
  | sample => "play"

/-- The waveform a word stands for. -/
def ofWord? (s : String) : Option Waveform :=
  all.find? (·.word == s)

@[simp] theorem ofWord?_word (w : Waveform) : ofWord? w.word = some w := by
  cases w <;> rfl

end Waveform

end PatternSynth
