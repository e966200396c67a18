import PatternSynth.Proofs.Engine.Highlights
import PatternSynth.Proofs.Program.Core

/-!
# What is shown or does not compile is not heard

`Engine.transcript` carries out operations and keeps what each of them hands back and the engines
around it. Showing a source text and asking for one that does not compile leave the engine as it is,
apart from a reply among the messages for the host. The main result of this file is that these
operations can be left out: all others hand back the same and leave the same engine, apart from the
replies.
-/

namespace PatternSynth

/-- Whether a message replies to source text to be shown. -/
def Outbound.isReply : Outbound → Bool
  | result _ => true
  | _ => false

/-- What an operation hands back to the host. -/
inductive Response where
  | nothing
  | loaded (result : Except CompileError Unit)
  | drained (messages : List Outbound)
  | rendered (frames : Array Float32)

namespace Response

/-- The messages that are handed back. -/
def messages : Response → List Outbound
  | drained messages => messages
  | _ => []

/-- The same without replies. -/
def withoutReplies : Response → Response
  | drained messages => drained (messages.filter (!·.isReply))
  | response => response

end Response

namespace Operation

/-- What an operation hands back. -/
def response (e : Engine) : Operation → Response
  | handle _ => .nothing
  | load source => .loaded ((e.load source).map fun _ => ())
  | silence => .nothing
  | drain => .drained e.drain.1
  | render count frame rate => .rendered (e.render count frame rate).1

/-- Whether an operation is more than a request to show a source text, and asks for none that does
not compile. -/
def isHeard (e : Engine) : Operation → Bool
  | handle (.eval _) => false
  | handle (.source text) => (e.load text).isOk
  | load source => (e.load source).isOk
  | _ => true

/-- The reply that an operation asks for. -/
def reply? (e : Engine) : Operation → Option Outbound
  | handle (.eval text) => some (.result (e.evaluate text))
  | _ => none

end Operation

/-- An operation as it was carried out. -/
structure Record where
  before : Engine
  operation : Operation
  response : Response
  after : Engine

namespace Engine

/-- The engine without the replies that wait for the host. -/
def withoutReplies (e : Engine) : Engine :=
  { e with outbox := e.outbox.filter (!·.isReply) }

/-- The replies that wait for the host. -/
def replies (e : Engine) : List Outbound :=
  e.outbox.toList.filter Outbound.isReply

/-- Carry out operations one after another. -/
def transcript (e : Engine) : List Operation → List Record
  | [] => []
  | op :: operations =>
    ⟨e, op, op.response e, op.apply e⟩ :: transcript (op.apply e) operations

end Engine

namespace Record

/-- Whether the operation was heard. -/
def isHeard (r : Record) : Bool :=
  r.operation.isHeard r.before

/-- The reply that the operation asked for. -/
def reply? (r : Record) : Option Outbound :=
  r.operation.reply? r.before

/-- The same without replies. -/
def withoutReplies (r : Record) : Record :=
  ⟨r.before.withoutReplies, r.operation, r.response.withoutReplies, r.after.withoutReplies⟩

end Record

namespace Engine

/-! ## Nothing depends on the replies that wait -/

variable (e : Engine)

theorem withoutReplies_send {m : Outbound} (h : m.isReply = false) :
    (e.send m).withoutReplies = e.withoutReplies.send m := by
  simp [withoutReplies, send, h]

theorem withoutReplies_sendReply {m : Outbound} (h : m.isReply = true) :
    (e.send m).withoutReplies = e.withoutReplies := by
  simp [withoutReplies, send, h]

theorem play_withoutReplies (p : Program) :
    e.withoutReplies.play p = (e.play p).withoutReplies := by
  simp only [play]
  change (if (p.requests.filter (!e.bank.contains ·)).isEmpty then _ else _) = _
  split
  · rfl
  · rw [withoutReplies_send _ (by rfl)]
    rfl

theorem load_withoutReplies (source : String) :
    e.withoutReplies.load source = (e.load source).map withoutReplies := by
  have htempo : e.withoutReplies.tempo = e.tempo := rfl
  rw [load, load, htempo]
  cases compile .commit e.tempo source with
  | error err => rfl
  | ok p => exact congrArg Except.ok (e.play_withoutReplies p)

theorem renderFrames_withoutReplies (rate : UInt32) (n : Nat) (frame : UInt64)
    (rendered : Array Float32) :
    renderFrames rate n frame rendered e.withoutReplies =
      ((renderFrames rate n frame rendered e).1,
        (renderFrames rate n frame rendered e).2.withoutReplies) := by
  induction n generalizing e frame rendered with
  | zero => rfl
  | succ n ih => exact ih (e.renderFrame frame rate).2 (frame + 1) _

theorem render_withoutReplies (n : Nat) (frame : UInt64) (rate : UInt32) :
    e.withoutReplies.render n frame rate =
      ((e.render n frame rate).1, (e.render n frame rate).2.withoutReplies) := by
  cases n with
  | zero => rfl
  | succ n =>
    let first := (e.retime frame rate).renderFrame frame rate
    let last := renderFrames rate n (frame + 1) #[first.1] first.2
    have hlast : renderFrames rate n (frame + 1) #[first.1] first.2.withoutReplies =
        (last.1, last.2.withoutReplies) :=
      first.2.renderFrames_withoutReplies rate n (frame + 1) #[first.1]
    have hrender : e.render (n + 1) frame rate =
        (last.1, if first.2.activeSpans.isEmpty then last.2
          else last.2.send (.highlight first.2.activeSpans)) := rfl
    have hwithout : e.withoutReplies.render (n + 1) frame rate =
        let last := renderFrames rate n (frame + 1) #[first.1] first.2.withoutReplies
        (last.1, if first.2.activeSpans.isEmpty then last.2
          else last.2.send (.highlight first.2.activeSpans)) := rfl
    -- The report is of the first frame, which is the same, and a report is no reply.
    rw [hwithout, hrender, hlast]
    simp only
    split
    · rfl
    · rw [withoutReplies_send _ rfl]

/-! ## Replies -/

theorem replies_play (p : Program) : (e.play p).replies = e.replies := by
  simp only [play]
  split
  · rfl
  · simp [replies, send, Outbound.isReply]

theorem replies_load (source : String) :
    ((e.load source).toOption.getD e).replies = e.replies := by
  rw [load]
  cases compile .commit e.tempo source with
  | error err => rfl
  | ok p => exact e.replies_play p

theorem replies_render (n : Nat) (frame : UInt64) (rate : UInt32) :
    (e.render n frame rate).2.replies = e.replies := by
  obtain ⟨sounds, noise, reports, hrender⟩ := render_unchanged n frame rate e
  rw [hrender]
  simp [replies, report, retime, Outbound.isReply]

end Engine

namespace Operation

variable (e : Engine)

/-! ## One operation -/

theorem response_withoutReplies (op : Operation) :
    op.response e.withoutReplies = (op.response e).withoutReplies := by
  cases op with
  | handle m => rfl
  | load source =>
    rw [response, response, Engine.load_withoutReplies]
    cases e.load source <;> rfl
  | silence => rfl
  | drain => simp [response, Engine.drain, Engine.withoutReplies, Response.withoutReplies]
  | render count frame rate =>
    rw [response, Engine.render_withoutReplies]
    rfl

/-- An operation that is heard does the same without the replies. -/
theorem apply_withoutReplies {op : Operation} (h : op.isHeard e = true) :
    op.apply e.withoutReplies = (op.apply e).withoutReplies := by
  cases hsource : op.source? with
  | some source =>
    rw [(apply_of_source hsource _).1, (apply_of_source hsource _).1, Engine.load_withoutReplies]
    cases e.load source <;> rfl
  | none =>
    cases op with
    | handle m =>
      cases m with
      | source text => cases hsource
      | eval text => cases h
      | sample name buffer => rfl
    | load source => cases hsource
    | silence => rfl
    | drain => simp [apply, Engine.drain, Engine.withoutReplies]
    | render count frame rate => rw [apply, Engine.render_withoutReplies, apply]

theorem isHeard_of_source {op : Operation} {source : String} (h : op.source? = some source) :
    op.isHeard e = (e.load source).isOk := by
  cases op with
  | handle m =>
    cases m with
    | source text =>
      cases h
      rfl
    | eval => cases h
    | sample => cases h
  | load text =>
    cases h
    rfl
  | silence => cases h
  | drain => cases h
  | render => cases h

/-- An operation that is not heard changes nothing but the replies. -/
theorem withoutReplies_apply {op : Operation} (h : op.isHeard e = false) :
    (op.apply e).withoutReplies = e.withoutReplies := by
  cases hsource : op.source? with
  | some source =>
    rw [isHeard_of_source e hsource] at h
    rw [(apply_of_source hsource e).1]
    cases hload : e.load source with
    | error err => rfl
    | ok e' =>
      rw [hload] at h
      cases h
  | none =>
    cases op with
    | handle m =>
      cases m with
      | source text => cases hsource
      | eval text => exact Engine.withoutReplies_sendReply e rfl
      | sample name buffer => cases h
    | load source => cases hsource
    | silence => cases h
    | drain => cases h
    | render count frame rate => cases h

/-- The replies that an operation hands back, and those that wait after it, are those that waited
before and the one that it asks for, if any. -/
theorem replies_apply (op : Operation) :
    (op.response e).messages.filter Outbound.isReply ++ (op.apply e).replies =
      e.replies ++ (op.reply? e).toList := by
  cases op with
  | handle m =>
    cases m with
    | source text =>
      rw [(apply_of_source rfl e).1, Engine.replies_load]
      exact (List.append_nil _).symm
    | eval text => simp [response, Response.messages, apply, Engine.handle, reply?,
        Engine.replies, Engine.send, Outbound.isReply]
    | sample name buffer => exact (List.append_nil _).symm
  | load source =>
    rw [apply, Engine.replies_load]
    exact (List.append_nil _).symm
  | silence => exact (List.append_nil _).symm
  | drain => rfl
  | render count frame rate =>
    rw [apply, Engine.replies_render]
    exact (List.append_nil _).symm

end Operation

namespace Engine

/-! ## Transcripts -/

theorem map_operation_transcript (e : Engine) (operations : List Operation) :
    (e.transcript operations).map Record.operation = operations := by
  induction operations generalizing e with
  | nil => rfl
  | cons op operations ih => rw [transcript, List.map_cons, ih]

/-- The operations that are heard, carried out by themselves on an engine without replies. -/
theorem transcript_withoutReplies (e : Engine) (operations : List Operation) :
    let heard := (e.transcript operations).filter Record.isHeard
    e.withoutReplies.transcript (heard.map Record.operation) = heard.map Record.withoutReplies ∧
      (heard.map Record.operation).foldl Operation.apply e.withoutReplies =
        (operations.foldl Operation.apply e).withoutReplies := by
  induction operations generalizing e with
  | nil => exact ⟨rfl, rfl⟩
  | cons op operations ih =>
    obtain ⟨htranscript, hlast⟩ := ih (op.apply e)
    rw [transcript]
    cases hheard : op.isHeard e with
    | true =>
      rw [List.filter_cons_of_pos (by exact hheard)]
      simp only [List.map_cons, transcript, List.foldl_cons]
      rw [op.response_withoutReplies, Operation.apply_withoutReplies e hheard, htranscript, hlast]
      exact ⟨rfl, rfl⟩
    | false =>
      rw [List.filter_cons_of_neg (by simpa [Record.isHeard] using hheard),
        ← Operation.withoutReplies_apply e hheard]
      exact ⟨htranscript, hlast⟩

/-- The replies that are handed back, and those that wait in the end, are those that waited at the
start and one for each source text to be shown. -/
theorem replies_transcript (e : Engine) (operations : List Operation) :
    ((e.transcript operations).flatMap (·.response.messages)).filter Outbound.isReply ++
        (operations.foldl Operation.apply e).replies =
      e.replies ++ (e.transcript operations).filterMap Record.reply? := by
  induction operations generalizing e with
  | nil => simp [transcript]
  | cons op operations ih =>
    rw [transcript, List.flatMap_cons, List.filter_append, List.append_assoc, List.foldl_cons, ih,
      ← List.append_assoc, op.replies_apply, List.append_assoc]
    cases hreply : op.reply? e with
    | none => rw [List.filterMap_cons_none (by exact hreply)]; rfl
    | some reply => rw [List.filterMap_cons_some (by exact hreply)]; rfl

/-- Whether a source text can be loaded, and why not, has nothing to do with the engine. -/
theorem load_congr (e e' : Engine) (source : String) :
    (e.load source).map (fun _ => ()) = (e'.load source).map fun _ => () := by
  have hload (e : Engine) : (e.load source).map (fun _ => ()) =
      ((compile .commit e.tempo source).map fun p => (p.commands, p.stack)).map fun _ => () := by
    rw [load]
    cases compile .commit e.tempo source <;> rfl
  rw [hload, hload, compile_core .commit .commit e.tempo e'.tempo]

/-- Showing a source text, and asking for one that does not compile, cannot be heard. If the
operations that do so are left out, all others hand back the same and come with the same engines, up
to the replies, of which there is one for each source text to be shown. Whether a source text
compiles has nothing to do with the engine. -/
theorem transcript_heard (config : Config) (operations : List Operation) :
    let start := ofConfig config
    let full := start.transcript operations
    let heard := full.filter Record.isHeard
    full.map Record.operation = operations ∧
      start.transcript (heard.map Record.operation) = heard.map Record.withoutReplies ∧
      (heard.map Record.operation).foldl Operation.apply start =
        (operations.foldl Operation.apply start).withoutReplies ∧
      (full.flatMap (·.response.messages)).filter Outbound.isReply ++
        (operations.foldl Operation.apply start).replies = full.filterMap Record.reply? ∧
      ∀ (e e' : Engine) (source : String),
        (e.load source).map (fun _ => ()) = (e'.load source).map fun _ => () := by
  obtain ⟨htranscript, hlast⟩ := transcript_withoutReplies (ofConfig config) operations
  exact ⟨map_operation_transcript _ _, htranscript, hlast, replies_transcript _ _, load_congr⟩

end Engine

end PatternSynth
