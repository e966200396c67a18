import PatternSynth.Proofs.Engine.Blocks
import PatternSynth.Proofs.Span
import PatternSynth.Proofs.Step.Spans

/-!
# What the engine reports points into the live source

A `Session` is an engine in use, together with the source that it loaded last. Whatever a host does
with the engine, all sounds show only spans of tokens of that source (`Session.spanned_run`), so
every report of a block does. A source that does not compile leaves both the sounds and the live
source as they were.
-/

namespace PatternSynth

/-- The span is that of a token of the source. -/
def Token.Spans (source : String) (span : Span) : Prop :=
  ∃ token ∈ tokenize source, token.span = span

/-- A compile makes programs with spans of the source's tokens only, and it fails at one of them. -/
theorem spans_compile (mode : Mode) (tempo : Float) (source : String) :
    match compile mode tempo source with
    | .ok program => ∀ p ∈ program.patterns, p.Over (fun _ => True) (Token.Spans source)
    | .error e => Token.Spans source e.span := by
  have hover := over_compile (A := fun _ => True) (S := Token.Spans source) mode tempo source
    (fun _ _ _ _ => trivial) (fun token htoken => ⟨token, htoken, rfl⟩)
  cases hcompile : compile mode tempo source with
  | ok program =>
    rw [hcompile] at hover
    exact hover
  | error e =>
    rw [hcompile] at hover
    obtain ⟨token, htoken, hspan⟩ := hover
    exact ⟨token, htoken, hspan.symm⟩

namespace Outbound

/-- The spans of a report. -/
def highlight? : Outbound → Option (List Span)
  | highlight spans => some spans
  | _ => none

/-- The reports among some messages. -/
def reports (messages : List Outbound) : List (List Span) :=
  messages.filterMap highlight?

end Outbound

namespace Engine

variable {S : Span → Prop}

/-- All spans that the sounds show or can still show are in the set. -/
def Spanned (S : Span → Prop) (e : Engine) : Prop :=
  ∀ s ∈ e.sounds, s.Spanned S

/-! ## Playing a program -/

theorem spanned_carryVoices {fresh : List (Sound Float)} (h : ∀ s ∈ fresh, s.Spanned S)
    (old : List (Sound Float)) : ∀ s ∈ carryVoices old fresh, s.Spanned S := by
  induction fresh generalizing old with
  | nil => exact List.forall_mem_nil _
  | cons s rest ih =>
    obtain ⟨hs, hrest⟩ := List.forall_mem_cons.1 h
    rw [carryVoices]
    split
    · exact List.forall_mem_cons.2 ⟨hs, ih hrest old⟩
    · next voices old' _ =>
      exact List.forall_mem_cons.2 ⟨hs.setVoices voices, ih hrest old'⟩

/-- A program brings its own sounds, which take over voices if the settings say so. -/
theorem sounds_play (p : Program) (e : Engine) :
    (e.play p).sounds =
      if e.config.carryVoices then carryVoices e.sounds (p.commands.map Sound.ofCommand)
      else p.commands.map Sound.ofCommand := by
  simp only [play]
  split <;> rfl

theorem spanned_play {p : Program} (h : ∀ q ∈ p.patterns, q.Over (fun _ => True) S) (e : Engine) :
    (e.play p).Spanned S := by
  have hfresh : ∀ s ∈ p.commands.map Sound.ofCommand, (s : Sound Float).Spanned S := by
    intro s hs
    obtain ⟨c, hc, rfl⟩ := List.mem_map.1 hs
    exact Sound.spanned_ofCommand
      (h c.pattern (List.mem_append_left _ (List.mem_map_of_mem hc)))
  rw [Spanned, sounds_play]
  split
  · exact spanned_carryVoices hfresh e.sounds
  · exact hfresh

theorem spanned_load {source : String} {e e' : Engine} (h : e.load source = .ok e') :
    e'.Spanned (Token.Spans source) := by
  have hspans := spans_compile .commit e.tempo source
  rw [load] at h
  cases hcompile : compile .commit e.tempo source with
  | error err =>
    rw [hcompile] at h
    cases h
  | ok program =>
    rw [hcompile] at h hspans
    cases h
    exact spanned_play hspans e

/-- A report names some spans, in increasing order and each once. -/
structure IsReport (S : Span → Prop) (spans : List Span) : Prop where
  nonempty : spans ≠ []
  increasing : spans.Pairwise Span.Before
  spanned : ∀ s ∈ spans, S s

/-- Besides those that were waiting, the messages of the engine have at most so many reports, each
over spans of the set. -/
def Sends (S : Span → Prop) (waiting : List Outbound) (limit : Nat) (e : Engine) : Prop :=
  ∃ sent, e.outbox.toList = waiting ++ sent ∧ (Outbound.reports sent).length ≤ limit ∧
    ∀ spans ∈ Outbound.reports sent, IsReport S spans

theorem sends_nothing {waiting : List Outbound} {e : Engine} (h : e.outbox.toList = waiting)
    (limit : Nat) : e.Sends S waiting limit :=
  ⟨[], by rw [h, List.append_nil], Nat.zero_le limit, List.forall_mem_nil _⟩

theorem sends_other {e : Engine} {m : Outbound} (h : m.highlight? = none) (limit : Nat) :
    (e.send m).Sends S e.outbox.toList limit := by
  have hreports : Outbound.reports [m] = [] := by
    rw [Outbound.reports, List.filterMap_cons_none h, List.filterMap_nil]
  refine ⟨[m], Array.toList_push, ?_, ?_⟩
  · rw [hreports]
    exact Nat.zero_le limit
  · rw [hreports]
    exact List.forall_mem_nil _

theorem sends_play (p : Program) (e : Engine) : (e.play p).Sends S e.outbox.toList 0 := by
  simp only [play]
  split
  · exact sends_nothing rfl 0
  · exact sends_other rfl 0

theorem sends_load {source : String} {e e' : Engine} (h : e.load source = .ok e') :
    e'.Sends S e.outbox.toList 0 := by
  rw [load] at h
  cases hcompile : compile .commit e.tempo source with
  | error err =>
    rw [hcompile] at h
    cases h
  | ok program =>
    rw [hcompile] at h
    cases h
    exact sends_play program e

/-! ## Rendering -/

theorem spanned_mix {sounds : List (Sound Float)} (h : ∀ s ∈ sounds, s.Spanned S) (rig : Rig)
    (timing : ChordTiming Float) (env : Env) (signal : Float) (g : Noise) :
    ∀ s ∈ (mix rig timing env signal g sounds).2.1, s.Spanned S := by
  induction sounds generalizing signal g with
  | nil => exact List.forall_mem_nil _
  | cons s rest ih =>
    obtain ⟨hs, hrest⟩ := List.forall_mem_cons.1 h
    refine List.forall_mem_cons.2 ⟨?_, ih hrest _ _⟩
    exact (hs.advance timing env env.beat _).render rig env g

theorem Spanned.renderFrame {e : Engine} (h : e.Spanned S) (frame : UInt64) (rate : UInt32) :
    (e.renderFrame frame rate).2.Spanned S :=
  spanned_mix h _ _ _ _ _

theorem Spanned.renderFrames {e : Engine} (h : e.Spanned S) (rate : UInt32) (n : Nat)
    (frame : UInt64) (rendered : Array Float32) :
    (Engine.renderFrames rate n frame rendered e).2.Spanned S := by
  induction n generalizing e frame rendered with
  | zero => exact h
  | succ n ih => exact ih (h.renderFrame frame rate) (frame + 1) _

theorem Spanned.activeSpans {e : Engine} (h : e.Spanned S) : ∀ s ∈ e.activeSpans, S s := by
  intro span hspan
  obtain ⟨s, hs, hspan⟩ := List.mem_flatMap.1 (Span.mem_distinct.1 hspan)
  exact (h s hs).current span hspan

/-- A block keeps what the sounds show, and sends at most one report, of what its first frame
shows. -/
theorem Spanned.render {e : Engine} (h : e.Spanned S) (n : Nat) (frame : UInt64) (rate : UInt32) :
    (e.render n frame rate).2.Spanned S ∧
      (e.render n frame rate).2.Sends S e.outbox.toList 1 := by
  cases n with
  | zero => exact ⟨h, sends_nothing rfl 1⟩
  | succ n =>
    let first := ((e.retime frame rate).renderFrame frame rate)
    let last := Engine.renderFrames rate n (frame + 1) #[first.1] first.2
    have hfirst : first.2.Spanned S := Spanned.renderFrame (e := e.retime frame rate) h frame rate
    have hlast : last.2.Spanned S := hfirst.renderFrames rate n (frame + 1) #[first.1]
    have houtbox : last.2.outbox = e.outbox := by
      obtain ⟨sounds, noise, hframes⟩ :=
        renderFrames_unchanged rate (frame + 1) #[first.1] first.2 n
      have hunchanged : last.2.outbox = first.2.outbox := (congrArg Engine.outbox hframes :)
      rw [hunchanged]
      rfl
    have hrender : (e.render (n + 1) frame rate).2 =
        if first.2.activeSpans.isEmpty then last.2
        else last.2.send (.highlight first.2.activeSpans) := rfl
    rw [hrender, ← houtbox]
    split
    · exact ⟨hlast, sends_nothing rfl 1⟩
    · next hspans =>
      have hne : first.2.activeSpans ≠ [] := by simpa using hspans
      have hreport : IsReport S first.2.activeSpans :=
        ⟨hne, Span.pairwise_distinct _, hfirst.activeSpans⟩
      exact ⟨hlast, [.highlight first.2.activeSpans], Array.toList_push, Nat.le_refl 1,
        List.forall_mem_singleton.2 hreport⟩

end Engine

/-! ## Sessions -/

/-- What a host does with an engine. -/
inductive Operation where
  | handle (m : Inbound)
  | load (source : String)
  | silence
  | drain
  | render (count : Nat) (frame : UInt64) (rate : UInt32)

namespace Operation

/-- How many reports an operation may send: one for a block, and else none. -/
def reportLimit : Operation → Nat
  | render .. => 1
  | _ => 0

/-- The engine after an operation. -/
def apply (e : Engine) : Operation → Engine
  | handle m => e.handle m
  | load source => (e.load source).toOption.getD e
  | silence => e.silence
  | drain => e.drain.2
  | render count frame rate => (e.render count frame rate).2

/-- The messages that wait for the host before an operation and still wait after it. -/
def waiting (e : Engine) : Operation → List Outbound
  | drain => []
  | _ => e.outbox.toList

/-- The source that an operation asks the engine to play. -/
def source? : Operation → Option String
  | handle (.source text) => some text
  | load source => some source
  | _ => none

/-- The source that an operation loads: the one that it asks for, if that compiles. -/
def loaded? (e : Engine) (op : Operation) : Option String :=
  op.source?.filter fun source => (e.load source).toOption.isSome

/-- An operation that asks for a source plays it or, if it does not compile, does nothing. -/
theorem apply_of_source {op : Operation} {source : String} (h : op.source? = some source)
    (e : Engine) : op.apply e = (e.load source).toOption.getD e ∧
      op.waiting e = e.outbox.toList ∧ op.reportLimit = 0 := by
  cases op with
  | handle m =>
    cases m with
    | source text =>
      cases h
      refine ⟨?_, rfl, rfl⟩
      simp only [apply, Engine.handle]
      split <;> next hload => rw [hload]; rfl
    | eval => cases h
    | sample => cases h
  | load text =>
    cases h
    exact ⟨rfl, rfl, rfl⟩
  | silence => cases h
  | drain => cases h
  | render => cases h

end Operation

/-- An engine in use, and the source that it loaded last. -/
structure Session where
  engine : Engine
  live : Option String

namespace Session

/-- A session at its start. -/
def ofConfig (config : Config) : Session :=
  ⟨.ofConfig config, none⟩

/-- The session after an operation. -/
def step (s : Session) (op : Operation) : Session :=
  ⟨op.apply s.engine, (op.loaded? s.engine).or s.live⟩

/-- The session after some operations. -/
def run (config : Config) (operations : List Operation) : Session :=
  operations.foldl step (ofConfig config)

/-- The span is that of a token of the live source. -/
def Shows (s : Session) (span : Span) : Prop :=
  ∃ source ∈ s.live, Token.Spans source span

theorem shows_of_live {s s' : Session} (h : s'.live = s.live) : s'.Shows = s.Shows := by
  funext span
  rw [Shows, Shows, h]

theorem shows_of_live_some {s : Session} {source : String} (h : s.live = some source) :
    s.Shows = Token.Spans source := by
  funext span
  simp [Shows, h]

/-- An operation that asks for no source keeps what the sounds show, and sends at most its report
of that. -/
theorem spanned_apply {e : Engine} {S : Span → Prop} (h : e.Spanned S) {op : Operation}
    (hsource : op.source? = none) :
    (op.apply e).Spanned S ∧ (op.apply e).Sends S (op.waiting e) op.reportLimit := by
  cases op with
  | handle m =>
    cases m with
    | source text => cases hsource
    | eval text => exact ⟨h, Engine.sends_other rfl 0⟩
    | sample name buffer => exact ⟨h, Engine.sends_nothing rfl 0⟩
  | load source => cases hsource
  | silence => exact ⟨List.forall_mem_nil _, Engine.sends_nothing rfl 0⟩
  | drain => exact ⟨h, Engine.sends_nothing rfl 0⟩
  | render count frame rate => exact h.render count frame rate

/-- One operation: the sounds go on to show spans of the live source only, and so do the reports
that the operation sends. -/
theorem spanned_step {s : Session} (h : s.engine.Spanned s.Shows) (op : Operation) :
    (s.step op).engine.Spanned (s.step op).Shows ∧
      (s.step op).engine.Sends s.Shows (op.waiting s.engine) op.reportLimit := by
  cases hsource : op.source? with
  | none =>
    have hlive : (s.step op).live = s.live := by
      simp [step, Operation.loaded?, hsource]
    rw [shows_of_live hlive]
    exact spanned_apply h hsource
  | some source =>
    obtain ⟨happly, hwaiting, hlimit⟩ := Operation.apply_of_source hsource s.engine
    rw [hwaiting, hlimit]
    cases hload : s.engine.load source with
    | error err =>
      have hlive : (s.step op).live = s.live := by
        rw [step, Operation.loaded?, hsource, Option.filter_some, hload]
        rfl
      have hengine : (s.step op).engine = s.engine := by
        rw [step, happly, hload]
        rfl
      rw [shows_of_live hlive, hengine]
      exact ⟨h, Engine.sends_nothing rfl 0⟩
    | ok e =>
      have hlive : (s.step op).live = some source := by
        rw [step, Operation.loaded?, hsource, Option.filter_some, hload]
        rfl
      have hengine : (s.step op).engine = e := by
        rw [step, happly, hload]
        rfl
      rw [shows_of_live_some hlive, hengine]
      exact ⟨Engine.spanned_load hload, Engine.sends_load hload⟩

theorem spanned_foldl_step {s : Session} (h : s.engine.Spanned s.Shows)
    (operations : List Operation) :
    (operations.foldl step s).engine.Spanned (operations.foldl step s).Shows := by
  induction operations generalizing s with
  | nil => exact h
  | cons op operations ih => exact ih (spanned_step h op).1

theorem spanned_run (config : Config) (operations : List Operation) :
    (run config operations).engine.Spanned (run config operations).Shows := by
  have hstart : (ofConfig config).engine.Spanned (ofConfig config).Shows :=
    List.forall_mem_nil _
  exact spanned_foldl_step hstart operations

/-- After any operations on an engine, the next one keeps the messages that wait, apart from
draining, and sends a report only if it renders a block, at most one: a nonempty list of spans in
increasing order, each that of a token of the source that was loaded last. All spans of a compiled
program, and the span of an error, are spans of tokens of the compiled source. -/
theorem reports_point_into_live :
    (∀ (config : Config) (operations : List Operation) (op : Operation),
      let session := run config operations
      ∃ sent, (session.step op).engine.outbox.toList = op.waiting session.engine ++ sent ∧
        (Outbound.reports sent).length ≤ op.reportLimit ∧
        ∀ spans ∈ Outbound.reports sent, spans ≠ [] ∧ spans.Pairwise Span.Before ∧
          ∀ span ∈ spans, ∃ source ∈ session.live, Token.Spans source span) ∧
    ∀ (mode : Mode) (tempo : Float) (source : String),
      match compile mode tempo source with
      | .ok program => ∀ p ∈ program.patterns, p.Over (fun _ => True) (Token.Spans source)
      | .error e => Token.Spans source e.span := by
  refine ⟨fun config operations op => ?_, spans_compile⟩
  obtain ⟨sent, houtbox, hlimit, hreports⟩ := (spanned_step (spanned_run config operations) op).2
  refine ⟨sent, houtbox, hlimit, fun spans hspans => ?_⟩
  obtain ⟨hne, hincreasing, hspanned⟩ := hreports spans hspans
  exact ⟨hne, hincreasing, hspanned⟩

end Session

end PatternSynth
