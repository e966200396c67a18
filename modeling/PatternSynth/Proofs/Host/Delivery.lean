import PatternSynth.Proofs.Host.Process
import PatternSynth.Proofs.Program.Replies

/-!
# Which messages reach the host

A device and its host take turns: the host queues commands and takes what is in the outbound queue,
and in between the device fills buffers. What arrives are the messages of all calls in order, except
that every call loses those that it finds no room for. Reports are not all that can be lost: a reply
or a request is lost as well when the queue is full of reports that the host has not taken yet. The
main result of this file says exactly when that happens.
-/

namespace PatternSynth

namespace Host

/-- What a call has for the host, and how much room there is for it. -/
structure Call where
  messages : List Outbound
  room : Nat

namespace Call

/-- The messages that there is room for. -/
def kept (c : Call) : List Outbound :=
  c.messages.take c.room

/-- The messages that there is no room for. -/
def lost (c : Call) : List Outbound :=
  c.messages.drop c.room

theorem kept_append_lost (c : Call) : c.kept ++ c.lost = c.messages :=
  List.take_append_drop ..

/-- Reports come after all other messages. -/
def ReportsLast (c : Call) : Prop :=
  ∃ (waiting : List Outbound) (reports : List (List Span)),
    c.messages = waiting ++ reports.map Outbound.highlight ∧ ∀ m ∈ waiting, m.isReport = false

/-- If reports come last, then they do not take the room of other messages of the same call. -/
theorem ReportsLast.lasting_lost_eq_nil_iff {c : Call} (h : c.ReportsLast) :
    Outbound.lasting c.lost = [] ↔ (Outbound.lasting c.messages).length ≤ c.room := by
  obtain ⟨waiting, reports, hmessages, hwaiting⟩ := h
  have hall : Outbound.lasting c.messages = waiting := by
    rw [hmessages, Outbound.lasting_append, Outbound.lasting_map_highlight, List.append_nil,
      Outbound.lasting_eq_self hwaiting]
  have hlost : Outbound.lasting c.lost = waiting.drop c.room := by
    rw [lost, hmessages, List.drop_append, ← List.map_drop, Outbound.lasting_append,
      Outbound.lasting_map_highlight, List.append_nil,
      Outbound.lasting_eq_self fun m hm => hwaiting m (List.mem_of_mem_drop hm)]
  rw [hlost, hall, List.drop_eq_nil_iff]

theorem flatMap_kept_sublist (calls : List Call) :
    (calls.flatMap kept).Sublist (calls.flatMap messages) := by
  induction calls with
  | nil => exact List.Sublist.slnil
  | cons c calls ih => exact (List.take_sublist c.room c.messages).append ih

/-- Calls keep everything but reports exactly if no call loses anything else. -/
theorem lasting_flatMap_kept_iff (calls : List Call) :
    Outbound.lasting (calls.flatMap kept) = Outbound.lasting (calls.flatMap messages) ↔
      ∀ c ∈ calls, Outbound.lasting c.lost = [] := by
  induction calls with
  | nil => simp
  | cons c calls ih =>
    have hkept := ((flatMap_kept_sublist calls).filter (!·.isReport)).length_le
    rw [List.flatMap_cons, List.flatMap_cons, Outbound.lasting_append, Outbound.lasting_append,
      ← kept_append_lost, Outbound.lasting_append, List.append_assoc, List.append_cancel_left_eq,
      List.forall_mem_cons, ← ih]
    constructor
    · intro h
      -- What the later calls keep is no more than they have, so there is nothing before it.
      have hlength := congrArg List.length h
      rw [List.length_append] at hlength
      have hlost : Outbound.lasting c.lost = [] := by
        apply List.eq_nil_of_length_eq_zero
        simp only [Outbound.lasting] at hlength ⊢
        omega
      rw [hlost, List.nil_append] at h
      exact ⟨hlost, h⟩
    · rintro ⟨hlost, h⟩
      rw [hlost, List.nil_append, h]

end Call

/-- A call with a buffer of this size. -/
def call (size : Nat) (h : Host) : Call :=
  ⟨(h.obeyAll.played size).2.outbox.toList, h.outbound.room⟩

/-- Of the messages of a call, those that are kept are added to the queue. -/
theorem outbound_process (output : Array Float32) (h : Host) :
    (h.process output).2.outbound.entries.toList =
      h.outbound.entries.toList ++ (h.call output.size).kept := by
  rw [process_eq]
  exact Queue.toList_offerAll ..

/-! ## What waits in the engine -/

/-- An engine in which no reports wait for the host. -/
def NothingToReport (e : Engine) : Prop :=
  ∀ m ∈ e.outbox, m.isReport = false

theorem NothingToReport.send {e : Engine} (h : NothingToReport e) {m : Outbound}
    (hm : m.isReport = false) : NothingToReport (e.send m) := by
  intro m' hm'
  rcases Array.mem_push.1 hm' with hm' | rfl
  · exact h m' hm'
  · exact hm

theorem NothingToReport.handle {e : Engine} (h : NothingToReport e) (i : Inbound) :
    NothingToReport (e.handle i) := by
  cases i with
  | source text =>
    simp only [Engine.handle, Engine.load]
    cases compile .commit e.tempo text with
    | error err => exact h
    | ok program =>
      simp only [Except.map, Engine.play]
      split
      next => exact h
      next => exact NothingToReport.send (e := { e with sounds := _, clock := _ }) h rfl
  | eval text => exact h.send rfl
  | sample name buffer => exact h

/-- Commands are carried out before anything sounds, so reports come last. -/
theorem NothingToReport.reportsLast_call {h : Host} (hengine : NothingToReport h.engine)
    (size : Nat) : (h.call size).ReportsLast := by
  obtain ⟨reports, hreports⟩ := exists_outbox_played h.obeyAll size
  have hobeyed : NothingToReport h.obeyAll.engine :=
    engine_obeyAll (fun _ m h => h.handle m) (fun _ h => h) hengine
  exact ⟨h.obeyAll.engine.outbox.toList, reports, hreports, fun m hm =>
    hobeyed m (Array.mem_toList_iff.1 hm)⟩

/-! ## Taking turns -/

/-- What happens between a device and its host. -/
inductive Event where
  /-- The host queues a command. -/
  | command (c : Control)
  | process (output : Array Float32)
  /-- The host takes what is in the outbound queue. -/
  | poll

/-- A device with what its host has received and the calls so far. -/
structure Exchange where
  device : Host
  received : List Outbound
  calls : List Call

namespace Exchange

/-- An exchange in which nothing has happened yet. -/
def ofDevice (h : Host) : Exchange :=
  ⟨h, [], []⟩

/-- The exchange after one more event. -/
def step (x : Exchange) : Event → Exchange
  | .command c =>
    { x with device := { x.device with controls := x.device.controls.offer c } }
  | .process output =>
    { x with
      device := (x.device.process output).2
      calls := x.calls ++ [x.device.call output.size] }
  | .poll =>
    let (messages, outbound) := x.device.outbound.takeAll
    { x with device := { x.device with outbound }, received := x.received ++ messages }

/-- What has reached the host or is in the queue for it. -/
def arrived (x : Exchange) : List Outbound :=
  x.received ++ x.device.outbound.entries.toList

/-- All messages of the calls so far. -/
def produced (x : Exchange) : List Outbound :=
  x.calls.flatMap Call.messages

/-- What arrives is what was there at first and what the calls have kept since. -/
def Accounted (queue : List Outbound) (x : Exchange) : Prop :=
  x.arrived = queue ++ x.calls.flatMap Call.kept

theorem Accounted.step {queue : List Outbound} {x : Exchange} (h : x.Accounted queue)
    (event : Event) : (x.step event).Accounted queue := by
  cases event with
  | command c => exact h
  | process output =>
    calc x.received ++ (x.device.process output).2.outbound.entries.toList
        = x.arrived ++ (x.device.call output.size).kept := by
          rw [outbound_process, ← List.append_assoc, arrived]
      _ = queue ++ (x.calls ++ [x.device.call output.size]).flatMap Call.kept := by
          rw [h, List.flatMap_append, List.flatMap_singleton, List.append_assoc]
  | poll =>
    calc x.received ++ x.device.outbound.entries.toList ++ []
        = x.arrived := List.append_nil _
      _ = queue ++ x.calls.flatMap Call.kept := h

theorem accounted_foldl (h : Host) (events : List Event) :
    (events.foldl step (ofDevice h)).Accounted h.outbound.entries.toList :=
  List.foldlRecOn events step (List.append_nil _).symm fun _ hx event _ => hx.step event

/-- In every call so far reports come last, and no reports wait in the engine. -/
structure Ordered (x : Exchange) : Prop where
  engine : NothingToReport x.device.engine
  calls : ∀ c ∈ x.calls, c.ReportsLast

theorem Ordered.step {x : Exchange} (h : x.Ordered) (event : Event) : (x.step event).Ordered := by
  cases event with
  | command c => exact ⟨h.engine, h.calls⟩
  | process output =>
    refine ⟨?_, ?_⟩
    · show NothingToReport (x.device.process output).2.engine
      rw [process_eq]
      simp [NothingToReport, Engine.drain]
    · intro c hc
      rcases List.mem_append.1 hc with hc | hc
      · exact h.calls c hc
      · rw [List.mem_singleton.1 hc]
        exact h.engine.reportsLast_call output.size
  | poll => exact ⟨h.engine, h.calls⟩

/-- What arrives is in order, and what is missing is what calls had no room for. So the host misses
nothing but reports exactly if no call loses anything else. Unless reports have been waiting in the
engine from the start, that is to say that each call finds room for all it has but reports: what it
has to report comes last, and only what earlier calls have left in the queue can be in the way. -/
theorem lasting_arrived_iff (h : Host) (events : List Event) :
    let x := events.foldl step (ofDevice h)
    let queue := h.outbound.entries.toList
    x.arrived = queue ++ x.calls.flatMap Call.kept ∧
      (Outbound.lasting x.arrived = Outbound.lasting (queue ++ x.produced) ↔
        ∀ c ∈ x.calls, Outbound.lasting c.lost = []) ∧
      (h.engine.outbox = #[] → ∀ c ∈ x.calls,
        (Outbound.lasting c.lost = [] ↔ (Outbound.lasting c.messages).length ≤ c.room)) := by
  intro x queue
  have haccounted : x.Accounted queue := accounted_foldl h events
  refine ⟨haccounted, ?_, ?_⟩
  · rw [haccounted, Outbound.lasting_append, Outbound.lasting_append, List.append_cancel_left_eq,
      produced, Call.lasting_flatMap_kept_iff]
  · intro hempty c hc
    have hordered : x.Ordered :=
      List.foldlRecOn events step ⟨by simp [ofDevice, NothingToReport, hempty], by simp [ofDevice]⟩
        fun _ h event _ => h.step event
    exact (hordered.calls c hc).lasting_lost_eq_nil_iff

/-- A device with one channel and room for one message. -/
def narrow : Host :=
  starting (Engine.ofConfig {}) 1 48000 16 1

/-- Something plays, and the host asks for a reply before it takes the report of what sounds. -/
def replyAfterReport : List Event :=
  [.command (.message (.source "1 raw")), .process #[1], .command (.message (.eval "bd")),
    .process #[1], .poll]

def constantProgram : Program :=
  ⟨[⟨.raw, .literal (.number 1) ⟨0, 1⟩⟩], [], 120, []⟩

theorem compile_constant : compile .commit 120 "1 raw" = .ok constantProgram := by
  have htokens : Token.tokenize "1 raw" = [⟨"1", ⟨0, 1⟩⟩, ⟨"raw", ⟨2, 5⟩⟩] := by cbv
  rw [compile_of_tokens htokens (by decide)]
  rfl

theorem evaluate_word (tempo : Float) : evaluate tempo "bd" = .ok "bd" := by
  have htokens : Token.tokenize "bd" = [⟨"bd", ⟨0, 2⟩⟩] := by cbv
  rw [evaluate, compile_of_tokens htokens (by decide)]
  rfl

theorem handle_constant :
    (Engine.ofConfig {}).handle (.source "1 raw") = (Engine.ofConfig {}).play constantProgram := by
  have hload : (Engine.ofConfig {}).load "1 raw" =
      .ok ((Engine.ofConfig {}).play constantProgram) :=
    congrArg (Except.map _) compile_constant
  simp only [Engine.handle, hload]

/-- The device when something is to be played. -/
def withSource : Host :=
  { narrow with controls := narrow.controls.offer (.message (.source "1 raw")) }

/-- The device when something is to be shown. -/
def withEval : Host :=
  let h := (withSource.process #[1]).2
  { h with controls := h.controls.offer (.message (.eval "bd")) }

theorem call_withSource : withSource.call 1 = ⟨[.highlight [⟨0, 1⟩]], 1⟩ := by
  have hengine : withSource.obeyAll.engine = (Engine.ofConfig {}).play constantProgram :=
    handle_constant
  have hplayed : withSource.obeyAll.played 1 =
      Engine.renderEach 48000 [1] 0 ((Engine.ofConfig {}).play constantProgram) := by
    rw [played, hengine, blocks]
    exact congrArg (Engine.renderEach 48000 · 0 _) (Engine.cut_one _)
  -- What the frame reports does not depend on any sample, so that it can be evaluated.
  rw [call, hplayed]
  refine congrArg (Call.mk · 1) ?_
  decide +kernel

theorem lasting_call_withEval : Outbound.lasting (withEval.call 1).messages = [.result "bd"] := by
  obtain ⟨reports, hreports⟩ := exists_outbox_played withEval.obeyAll 1
  have houtbox : withEval.obeyAll.engine.outbox.toList =
      [.result ((withSource.process #[1]).2.engine.evaluate "bd")] := rfl
  rw [Engine.evaluate, evaluate_word] at houtbox
  rw [call, hreports, houtbox, Outbound.lasting_append, Outbound.lasting_map_highlight]
  rfl

theorem room_call_withEval : (withEval.call 1).room = 0 := by
  have hqueue := congrArg List.length (outbound_process #[1] withSource)
  rw [show (#[1] : Array Float32).size = 1 from rfl, call_withSource] at hqueue
  have hsize : withEval.outbound.entries.size = 1 := hqueue
  have hcapacity : withEval.outbound.capacity = 1 := by
    show ((withSource.process #[1]).2).outbound.capacity = 1
    rw [process_eq]
    exact Queue.capacity_offerAll ..
  show withEval.outbound.capacity - withEval.outbound.entries.size = 0
  rw [hsize, hcapacity]

/-- A report is kept, and the reply that comes after it is lost. -/
theorem reply_lost :
    let x := replyAfterReport.foldl step (ofDevice narrow)
    x.arrived = [.highlight [⟨0, 1⟩]] ∧ Outbound.lasting x.produced = [.result "bd"] := by
  intro x
  have hcalls : x.calls = [withSource.call 1, withEval.call 1] := rfl
  have haccounted : x.Accounted [] := accounted_foldl narrow replyAfterReport
  constructor
  · rw [haccounted, hcalls]
    show (withSource.call 1).kept ++ ((withEval.call 1).kept ++ []) = _
    rw [Call.kept, Call.kept, room_call_withEval, call_withSource]
    rfl
  · rw [produced, hcalls]
    show Outbound.lasting ((withSource.call 1).messages ++ ((withEval.call 1).messages ++ [])) = _
    rw [Outbound.lasting_append, List.append_nil, lasting_call_withEval, call_withSource]
    rfl

end Exchange

end Host

end PatternSynth
