import PatternSynth.Engine

/-!
# The engine behind a sound device

The device asks for interleaved output. Before it is rendered, the commands that have queued up are
carried out in order; afterwards the engine's messages go to a queue for the host. Both queues are
bounded, and a message that finds its queue full is lost.
-/

namespace PatternSynth

/-- A bounded queue, oldest entry first. -/
structure Queue (α : Type) where
  capacity : Nat
  entries : Array α

namespace Queue

variable {α : Type}

/-- An empty queue. -/
def ofCapacity (capacity : Nat) : Queue α :=
  ⟨capacity, #[]⟩

/-- Add an entry at the end, unless the queue is full. -/
def push? (x : α) (q : Queue α) : Option (Queue α) :=
  if q.entries.size < q.capacity then some { q with entries := q.entries.push x } else none

/-- Add an entry at the end, or lose it if the queue is full. -/
def offer (q : Queue α) (x : α) : Queue α :=
  (q.push? x).getD q

/-- Take all entries. -/
def takeAll (q : Queue α) : List α × Queue α :=
  (q.entries.toList, { q with entries := #[] })

end Queue

/-- What a host asks of the device. -/
inductive Control where
  | message (m : Inbound)
  | volume (v : Float32)
  | stop

/-- The engine behind a sound device. -/
structure Host where
  engine : Engine
  controls : Queue Control
  outbound : Queue Outbound
  /-- The number of frames rendered so far. -/
  frame : UInt64
  volume : Float32
  /-- At least one channel. -/
  channels : Nat
  rate : UInt32

namespace Host

/-- A device that has not rendered anything yet. -/
def starting (engine : Engine) (channels : Nat) (rate : UInt32) (controls outbound : Nat) : Host :=
  ⟨engine, .ofCapacity controls, .ofCapacity outbound, 0, 1, max channels 1, rate⟩

/-- A volume between zero and one. NaN stays as it is. -/
def clampVolume (v : Float32) : Float32 :=
  if v < 0 then 0 else if v > 1 then 1 else v

/-- Carry out a command. -/
def obey (h : Host) (c : Control) : Host :=
  match c with
  | .message m => { h with engine := h.engine.handle m }
  | .volume v => { h with volume := clampVolume v }
  | .stop => { h with engine := h.engine.silence }

/-- Carry out the commands that have queued up. -/
def obeyAll (h : Host) : Host :=
  let (controls, queue) := h.controls.takeAll
  controls.foldl obey { h with controls := queue }

/-- Hand the engine's messages to the host. -/
def forward (h : Host) : Host :=
  let (messages, engine) := h.engine.drain
  { h with engine, outbound := messages.foldl Queue.offer h.outbound }

/-- Every frame on every channel. -/
def interleave (channels : Nat) (volume : Float32) (frames : Array Float32) : Array Float32 :=
  frames.flatMap fun x => Array.replicate channels (x * volume)

/-- Fill a buffer of interleaved output. What is less than a frame at its end is left alone. -/
def process (output : Array Float32) (h : Host) : Array Float32 × Host :=
  let h := h.obeyAll
  let count := output.size / h.channels
  let (frames, engine) :=
    h.engine.renderBlocks h.engine.config.blockSize.toNat h.rate count h.frame #[]
  let filled := interleave h.channels h.volume frames
  let h := { h with engine, frame := h.frame + count.toUInt64 }
  (filled ++ output.extract filled.size output.size, h.forward)

end Host

/-- Why a device could not be used. -/
inductive DeviceError where
  | noDevice
  | config (reason : String)
  | build (reason : String)
  | start (reason : String)
  | queueFull
deriving DecidableEq, Repr

/-- The error in words. -/
def DeviceError.message : DeviceError → String
  | noDevice => "no audio output device found"
  | config reason => "device config error: " ++ reason
  | build reason => "stream build error: " ++ reason
  | start reason => "stream play error: " ++ reason
  | queueFull => "audio command ring buffer is full"

end PatternSynth
