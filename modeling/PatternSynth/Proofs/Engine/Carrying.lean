import PatternSynth.Proofs.Engine.Samples
import PatternSynth.Proofs.Program.Core

/-!
# Voices go to equal sounds, in their order

A program that is played may take over the voices of the sounds that it replaces. Each of its sounds
looks for the first old sound with its signature that has not been claimed. This comes to matching
the sounds of each signature in their order (`Engine.withSignature_carryVoices`), however the two
programs are arranged otherwise. The main result of this file says which voices each sound of a
loaded source starts with, and that loading the live source again leaves all voices in their places.
-/

namespace PatternSynth

namespace Sound

/-! ## Sounds with one signature -/

/-- The sounds with a signature, in their order. -/
def withSignature (signature : String) (sounds : List (Sound Float)) : List (Sound Float) :=
  sounds.filter (·.signature == signature)

theorem withSignature_cons_eq {signature : String} {s : Sound Float} (h : s.signature = signature)
    (sounds : List (Sound Float)) :
    withSignature signature (s :: sounds) = s :: withSignature signature sounds :=
  List.filter_cons_of_pos (beq_iff_eq.2 h)

theorem withSignature_cons_ne {signature : String} {s : Sound Float} (h : s.signature ≠ signature)
    (sounds : List (Sound Float)) :
    withSignature signature (s :: sounds) = withSignature signature sounds :=
  List.filter_cons_of_neg fun hs => h (beq_iff_eq.1 hs)

theorem length_withSignature (signature : String) (sounds : List (Sound Float)) :
    (withSignature signature sounds).length = (sounds.map Sound.signature).count signature := by
  rw [withSignature, ← List.countP_eq_length_filter, List.count, List.countP_map]
  rfl

/-- The sound at place `i` is the `k`-th one with the signature, counted from zero. -/
structure IsNth (sounds : List (Sound Float)) (signature : String) (k i : Nat) : Prop where
  signature_eq : (sounds.map Sound.signature)[i]? = some signature
  count_eq : ((sounds.map Sound.signature).take i).count signature = k

variable {sounds sounds' : List (Sound Float)} {signature signature' : String} {k k' i i' : Nat}

theorem isNth_of_getElem? {s : Sound Float} (h : sounds[i]? = some s) :
    IsNth sounds s.signature (((sounds.map Sound.signature).take i).count s.signature) i :=
  ⟨by rw [List.getElem?_map, h, Option.map_some], rfl⟩

/-- Which sound is the how manieth is a matter of the signatures alone. -/
theorem IsNth.congr (h : IsNth sounds signature k i)
    (hsignatures : sounds.map Sound.signature = sounds'.map Sound.signature) :
    IsNth sounds' signature k i :=
  ⟨hsignatures ▸ h.signature_eq, hsignatures ▸ h.count_eq⟩

theorem IsNth.unique (h : IsNth sounds signature k i) (h' : IsNth sounds signature' k' i) :
    signature = signature' ∧ k = k' := by
  obtain rfl : signature = signature' := Option.some.inj (h.signature_eq.symm.trans h'.signature_eq)
  exact ⟨rfl, h.count_eq.symm.trans h'.count_eq⟩

theorem IsNth.getElem?_eq (h : IsNth sounds signature k i) :
    (withSignature signature sounds)[k]? = sounds[i]? := by
  obtain ⟨hsignature, rfl⟩ := h
  induction sounds generalizing i with
  | nil => cases hsignature
  | cons s sounds ih =>
    cases i with
    | zero =>
      rw [withSignature_cons_eq (Option.some.inj hsignature)]
      rfl
    | succ i =>
      rw [List.getElem?_cons_succ, ← ih hsignature, List.map_cons, List.take_succ_cons]
      by_cases hs : s.signature = signature
      · rw [withSignature_cons_eq hs, hs, List.count_cons_self, List.getElem?_cons_succ]
      · rw [withSignature_cons_ne hs, List.count_cons_of_ne hs]

theorem IsNth.exists_getElem? (h : IsNth sounds signature k i) : ∃ s, sounds[i]? = some s := by
  obtain ⟨s, hs, -⟩ := Option.map_eq_some_iff.1 (List.getElem?_map ▸ h.signature_eq)
  exact ⟨s, hs⟩

theorem IsNth.signature_of_getElem? {s : Sound Float} (h : IsNth sounds signature k i)
    (hs : sounds[i]? = some s) : s.signature = signature := by
  have hsignature := h.signature_eq
  rw [List.getElem?_map, hs] at hsignature
  exact Option.some.inj hsignature

theorem exists_isNth {s : Sound Float} (h : (withSignature signature sounds)[k]? = some s) :
    ∃ i, sounds[i]? = some s ∧ IsNth sounds signature k i := by
  induction sounds generalizing k with
  | nil => cases h
  | cons first sounds ih =>
    by_cases hfirst : first.signature = signature
    · rw [withSignature_cons_eq hfirst] at h
      cases k with
      | zero => exact ⟨0, h, congrArg some hfirst, rfl⟩
      | succ k =>
        obtain ⟨i, hi, hsignature, hcount⟩ := ih h
        refine ⟨i + 1, hi, hsignature, ?_⟩
        rw [List.map_cons, List.take_succ_cons, hfirst, List.count_cons_self, hcount]
    · rw [withSignature_cons_ne hfirst] at h
      obtain ⟨i, hi, hsignature, hcount⟩ := ih h
      refine ⟨i + 1, hi, hsignature, ?_⟩
      rw [List.map_cons, List.take_succ_cons, List.count_cons_of_ne hfirst, hcount]

/-- Where the signature is no rarer, there is a `k`-th sound with it as well. -/
theorem IsNth.exists_of_count_le (h : IsNth sounds signature k i)
    (hcount : (sounds.map Sound.signature).count signature ≤
      (sounds'.map Sound.signature).count signature) : ∃ i', IsNth sounds' signature k i' := by
  obtain ⟨s, hs⟩ := h.exists_getElem?
  obtain ⟨hk, -⟩ := List.getElem?_eq_some_iff.1 (h.getElem?_eq.trans hs)
  rw [length_withSignature] at hk
  have hk' : k < (withSignature signature sounds').length := by
    rw [length_withSignature]
    omega
  obtain ⟨i', -, hi'⟩ := exists_isNth (List.getElem?_eq_getElem hk')
  exact ⟨i', hi'⟩

/-- A sound before another one with the same signature comes before it among those too. -/
theorem IsNth.lt (h : IsNth sounds signature k i) (h' : IsNth sounds signature k' i')
    (hlt : i < i') : k < k' := by
  have hsome : ((sounds.map Sound.signature).take i')[i]? = some signature := by
    rw [List.getElem?_take_of_lt hlt, h.signature_eq]
  have htake : (sounds.map Sound.signature).take i =
      ((sounds.map Sound.signature).take i').take i := by
    rw [List.take_take, Nat.min_eq_left hlt.le]
  obtain ⟨hi, hget⟩ := List.getElem?_eq_some_iff.1 hsome
  rw [← h.count_eq, ← h'.count_eq, htake]
  conv_rhs => rw [← List.take_append_drop i (List.take i' _), List.count_append,
    List.drop_eq_getElem_cons hi, hget, List.count_cons_self]
  omega

theorem IsNth.place_unique (h : IsNth sounds signature k i) (h' : IsNth sounds signature k i') :
    i = i' := by
  rcases Nat.lt_trichotomy i i' with hlt | heq | hlt
  · exact absurd (h.lt h' hlt) (Nat.lt_irrefl k)
  · exact heq
  · exact absurd (h'.lt h hlt) (Nat.lt_irrefl k)

/-- The sound at place `i` takes the place of the old sound at place `j`: for some `k`, they are the
`k`-th ones with the same signature. -/
def Replaces (old new : List (Sound Float)) (j i : Nat) : Prop :=
  ∃ signature k, IsNth old signature k j ∧ IsNth new signature k i

end Sound

/-- The signatures of the sounds that a program brings. -/
def Program.signatures (p : Program) : List String :=
  p.commands.map fun c => (Sound.ofCommand c : Sound Float).signature

namespace Engine

open Sound

/-! ## Taking voices over -/

section Carry

variable {signature : String} {sounds left : List (Sound Float)} {voices : List Voice}

theorem withSignature_of_takeVoices_none (h : takeVoices signature sounds = none) :
    withSignature signature sounds = [] := by
  induction sounds with
  | nil => rfl
  | cons s rest ih =>
    rw [takeVoices] at h
    split at h
    · cases h
    · next hs =>
      rw [withSignature_cons_ne fun heq => hs (beq_iff_eq.2 heq)]
      exact ih (Option.map_eq_none_iff.1 h)

/-- The voices are those of the first sound with the signature, and all others are left. -/
theorem withSignature_of_takeVoices_some (h : takeVoices signature sounds = some (voices, left)) :
    (∃ s, s.voices = voices ∧
      withSignature signature sounds = s :: withSignature signature left) ∧
      ∀ other, other ≠ signature → withSignature other left = withSignature other sounds := by
  induction sounds generalizing left with
  | nil => cases h
  | cons s rest ih =>
    rw [takeVoices] at h
    split at h
    · next hs =>
      obtain ⟨rfl, rfl⟩ := Prod.mk.inj (Option.some.inj h)
      have hsignature := beq_iff_eq.1 hs
      refine ⟨⟨s, rfl, withSignature_cons_eq hsignature rest⟩, fun other hother => ?_⟩
      exact (withSignature_cons_ne (fun heq => hother (heq.symm.trans hsignature)) rest).symm
    · next hs =>
      obtain ⟨⟨voices', left'⟩, htake, hpair⟩ := Option.map_eq_some_iff.1 h
      obtain ⟨rfl, rfl⟩ := Prod.mk.inj hpair
      obtain ⟨⟨first, hvoices, hfirst⟩, hothers⟩ := ih htake
      have hne : s.signature ≠ signature := fun heq => hs (beq_iff_eq.2 heq)
      refine ⟨⟨first, hvoices, ?_⟩, fun other hother => ?_⟩
      · rw [withSignature_cons_ne hne, withSignature_cons_ne hne, hfirst]
      · by_cases hsame : s.signature = other
        · rw [withSignature_cons_eq hsame, withSignature_cons_eq hsame, hothers other hother]
        · rw [withSignature_cons_ne hsame, withSignature_cons_ne hsame, hothers other hother]

end Carry

/-- A sound with the voices of the one that it replaces, if there is one. -/
def inherit (s : Sound Float) : Option (Sound Float) → Sound Float
  | none => s
  | some old => { s with voices := old.voices }

theorem signatures_carryVoices (old new : List (Sound Float)) :
    (carryVoices old new).map Sound.signature = new.map Sound.signature := by
  induction new generalizing old with
  | nil => rfl
  | cons s rest ih =>
    rw [carryVoices]
    split
    · rw [List.map_cons, List.map_cons, ih]
    · rw [List.map_cons, List.map_cons, ih]

/-- Among the sounds with one signature, each new one takes over from the old one in the same
place. -/
theorem withSignature_carryVoices (signature : String) (old new : List (Sound Float)) (k : Nat) :
    (withSignature signature (carryVoices old new))[k]? =
      (withSignature signature new)[k]?.map (inherit · (withSignature signature old)[k]?) := by
  induction new generalizing old k with
  | nil => rfl
  | cons s rest ih =>
    rw [carryVoices]
    by_cases hs : s.signature = signature
    · subst hs
      cases htake : takeVoices s.signature old with
      | none =>
        have hold := withSignature_of_takeVoices_none htake
        simp only [withSignature_cons_eq rfl]
        cases k with
        | zero =>
          rw [hold]
          rfl
        | succ k =>
          simp only [List.getElem?_cons_succ, ih]
          rw [hold]
          rfl
      | some taken =>
        obtain ⟨voices, left⟩ := taken
        obtain ⟨⟨first, rfl, hold⟩, -⟩ := withSignature_of_takeVoices_some htake
        have hnew : ({ s with voices := first.voices } : Sound Float).signature = s.signature := rfl
        simp only [withSignature_cons_eq rfl, withSignature_cons_eq hnew, hold]
        cases k with
        | zero => rfl
        | succ k => exact ih left k
    · rw [withSignature_cons_ne hs]
      cases htake : takeVoices s.signature old with
      | none =>
        simp only [withSignature_cons_ne hs]
        exact ih old k
      | some taken =>
        obtain ⟨voices, left⟩ := taken
        obtain ⟨-, hothers⟩ := withSignature_of_takeVoices_some htake
        have hne : ({ s with voices } : Sound Float).signature ≠ signature := hs
        simp only [withSignature_cons_ne hne]
        rw [ih left k, hothers signature (Ne.symm hs)]

/-! ## Playing a program -/

theorem config_play (p : Program) (e : Engine) : (e.play p).config = e.config := by
  simp only [play]
  split <;> rfl

theorem signatures_play (p : Program) (e : Engine) :
    (e.play p).sounds.map Sound.signature = p.signatures := by
  rw [sounds_play]
  split
  · rw [signatures_carryVoices, List.map_map]
    rfl
  · rw [List.map_map]
    rfl

theorem load_of_compile {source : String} {e : Engine} {p : Program}
    (h : compile .commit e.tempo source = .ok p) : e.load source = .ok (e.play p) :=
  congrArg (Except.map _) h

section Voices

variable {p : Program} {e : Engine} {signature : String} {k i j : Nat} {s o : Sound Float}

/-- The `k`-th sound with a signature starts with the voices of the `k`-th old one, and with none if
there is no such sound. -/
theorem voices_play (hcarry : e.config.carryVoices = true)
    (hs : (withSignature signature (e.play p).sounds)[k]? = some s) :
    s.voices = (withSignature signature e.sounds)[k]?.elim [] Sound.voices := by
  rw [sounds_play, if_pos hcarry, withSignature_carryVoices] at hs
  obtain ⟨fresh, hfresh, rfl⟩ := Option.map_eq_some_iff.1 hs
  obtain ⟨c, -, rfl⟩ := List.mem_map.1 (List.mem_of_mem_filter (List.mem_of_getElem? hfresh))
  cases (withSignature signature e.sounds)[k]? <;> rfl

theorem voices_eq_of_isNth (hcarry : e.config.carryVoices = true)
    (hnew : IsNth (e.play p).sounds signature k i) (hs : (e.play p).sounds[i]? = some s)
    (hold : IsNth e.sounds signature k j) (ho : e.sounds[j]? = some o) : s.voices = o.voices := by
  rw [voices_play hcarry (hnew.getElem?_eq.trans hs), hold.getElem?_eq, ho]
  rfl

theorem voices_eq_nil_of_isNth (hcarry : e.config.carryVoices = true)
    (hnew : IsNth (e.play p).sounds signature k i) (hs : (e.play p).sounds[i]? = some s)
    (hold : ∀ j, ¬ IsNth e.sounds signature k j) : s.voices = [] := by
  rw [voices_play hcarry (hnew.getElem?_eq.trans hs)]
  cases ho : (withSignature signature e.sounds)[k]? with
  | none => rfl
  | some o =>
    obtain ⟨j, -, hj⟩ := exists_isNth ho
    exact absurd hj (hold j)

end Voices

/-! ## Operations -/

theorem signatures_renderFrames (rate : UInt32) (n : Nat) (frame : UInt64)
    (rendered : Array Float32) (e : Engine) :
    (renderFrames rate n frame rendered e).2.sounds.map Sound.signature =
      e.sounds.map Sound.signature := by
  induction n generalizing frame rendered e with
  | zero => rfl
  | succ n ih =>
    rw [renderFrames, ih, sounds_renderFrame, List.map_map]
    exact List.map_congr_left fun s _ => s.signature_frame ..

/-- An operation plays the program of the source that it loads. If it loads none, it keeps the
settings, and it stops all sounds or leaves them with their signatures. -/
theorem apply_cases (op : Operation) (e : Engine) :
    (∃ source program, op.loaded? e = some source ∧
      compile .commit e.tempo source = .ok program ∧ op.apply e = e.play program) ∨
    (op.loaded? e = none ∧ (op.apply e).config = e.config ∧
      ((op.apply e).sounds = [] ∨
        (op.apply e).sounds.map Sound.signature = e.sounds.map Sound.signature)) := by
  cases hloaded : op.loaded? e with
  | some source =>
    obtain ⟨program, hcompile, happly⟩ := exists_program_of_loaded hloaded
    exact .inl ⟨source, program, rfl, hcompile, happly⟩
  | none =>
    refine .inr ⟨rfl, ?_⟩
    cases hsource : op.source? with
    | some source =>
      rw [apply_of_not_loaded hsource hloaded]
      exact ⟨rfl, .inr rfl⟩
    | none =>
      cases op with
      | handle m =>
        cases m with
        | source text => cases hsource
        | eval text => exact ⟨rfl, .inr rfl⟩
        | sample name buffer => exact ⟨rfl, .inr rfl⟩
      | load source => cases hsource
      | silence => exact ⟨rfl, .inl rfl⟩
      | drain => exact ⟨rfl, .inr rfl⟩
      | render count frame rate =>
        obtain ⟨reports, hrender⟩ := render_eq count frame rate e
        obtain ⟨sounds, noise, hframes⟩ :=
          renderFrames_unchanged rate frame #[] (e.retime frame rate) count
        have hsignatures :=
          signatures_renderFrames rate count frame #[] (e.retime frame rate)
        rw [Operation.apply, hrender]
        rw [hframes] at hsignatures ⊢
        exact ⟨rfl, .inr hsignatures⟩

end Engine

namespace Session

open Engine Sound

/-- The sounds that play are those of the live source, unless they have been stopped. -/
structure PlaysLive (config : Config) (s : Session) : Prop where
  config_eq : s.engine.config = config
  signatures : ∀ source ∈ s.live, s.engine.sounds = [] ∨
    ∃ tempo program, compile .commit tempo source = .ok program ∧
      s.engine.sounds.map Sound.signature = program.signatures

theorem PlaysLive.step {config : Config} {s : Session} (h : s.PlaysLive config) (op : Operation) :
    (s.step op).PlaysLive config := by
  rcases apply_cases op s.engine with ⟨source, program, hloaded, hcompile, happly⟩ | hkept
  · refine ⟨?_, fun live hlive => .inr ⟨s.engine.tempo, program, ?_, ?_⟩⟩
    · rw [Session.step, happly, config_play, h.config_eq]
    · rw [Session.step, hloaded, Option.some_or] at hlive
      rw [← Option.some.inj hlive, hcompile]
    · rw [Session.step, happly, signatures_play]
  · obtain ⟨hloaded, hconfig, hsounds⟩ := hkept
    refine ⟨hconfig.trans h.config_eq, fun live hlive => ?_⟩
    rw [Session.step, hloaded, Option.none_or] at hlive
    rcases hsounds with hsounds | hsounds
    · exact .inl hsounds
    · rcases h.signatures live hlive with hempty | ⟨tempo, program, hcompile, hsignatures⟩
      · rw [hempty, List.map_nil, List.map_eq_nil_iff] at hsounds
        exact .inl hsounds
      · exact .inr ⟨tempo, program, hcompile, hsounds.trans hsignatures⟩

theorem playsLive_run (config : Config) (operations : List Operation) :
    (run config operations).PlaysLive config := by
  have hstart : (ofConfig config).PlaysLive config := ⟨rfl, fun _ hlive => by cases hlive⟩
  suffices ∀ s : Session, s.PlaysLive config → (operations.foldl step s).PlaysLive config from
    this _ hstart
  induction operations with
  | nil => exact fun _ h => h
  | cons op operations ih => exact fun s h => ih _ (h.step op)

theorem exists_compile_of_compile {tempo : Float} (tempo' : Float) {source : String} {p : Program}
    (h : compile .commit tempo source = .ok p) : ∃ p', compile .commit tempo' source = .ok p' := by
  have hcore := compile_core .commit .commit tempo tempo' source
  rw [h] at hcore
  cases h' : compile .commit tempo' source with
  | ok p' => exact ⟨p', rfl⟩
  | error err =>
    rw [h'] at hcore
    cases hcore

/-- What a source comes to does not depend on the tempo, so that its sounds have the same
signatures whenever it is loaded. -/
theorem signatures_eq_of_compile {tempo tempo' : Float} {source : String} {p p' : Program}
    (h : compile .commit tempo source = .ok p) (h' : compile .commit tempo' source = .ok p') :
    p.signatures = p'.signatures := by
  have hcore := compile_core .commit .commit tempo tempo' source
  rw [h, h'] at hcore
  have hcommands : p.commands = p'.commands := congrArg Prod.fst (Except.ok.inj hcore)
  rw [Program.signatures, hcommands, Program.signatures]

/-- If voices are carried over, then whatever was done with the engine before, a source that compiles
is loaded, and its `k`-th sound with a signature starts with the voices of the `k`-th old sound with
that signature, and with none if there is no such sound. So the voices of an old sound go to one new
sound at most, and they do go to one if the signature is no rarer than it was. If the source is the
live one, every sound keeps its voices in its place. -/
theorem voices_carried_in_order (config : Config) (hcarry : config.carryVoices = true)
    (operations : List Operation) (source : String) (program : Program)
    (hcompile : compile .commit (run config operations).engine.tempo source = .ok program) :
    let session := run config operations
    let old := session.engine.sounds
    ∃ e : Engine, session.engine.load source = .ok e ∧
    (∀ (signature : String) (k i : Nat) (s : Sound Float),
      IsNth e.sounds signature k i → e.sounds[i]? = some s →
        (∀ (j : Nat) (o : Sound Float), IsNth old signature k j → old[j]? = some o →
          s.voices = o.voices) ∧
        ((∀ j, ¬ IsNth old signature k j) → s.voices = [])) ∧
    (∀ j i i', Replaces old e.sounds j i → Replaces old e.sounds j i' → i = i') ∧
    (∀ (j : Nat) (o : Sound Float), old[j]? = some o →
      (old.map Sound.signature).count o.signature ≤
        (e.sounds.map Sound.signature).count o.signature →
        ∃ i s, Replaces old e.sounds j i ∧ e.sounds[i]? = some s ∧ s.voices = o.voices) ∧
    (session.live = some source → ∀ (i : Nat) (o : Sound Float), old[i]? = some o →
      ∃ s, e.sounds[i]? = some s ∧ s.signature = o.signature ∧ s.voices = o.voices) := by
  intro session old
  have hlive := playsLive_run config operations
  have hsettings : session.engine.config.carryVoices = true := hlive.config_eq ▸ hcarry
  refine ⟨_, load_of_compile hcompile, ?_, ?_, ?_, ?_⟩
  · intro signature k i s hnew hs
    exact ⟨fun j o hold ho => voices_eq_of_isNth hsettings hnew hs hold ho,
      fun hold => voices_eq_nil_of_isNth hsettings hnew hs hold⟩
  · rintro j i i' ⟨signature, k, hold, hnew⟩ ⟨signature', k', hold', hnew'⟩
    obtain ⟨rfl, rfl⟩ := hold.unique hold'
    exact hnew.place_unique hnew'
  · intro j o ho hcount
    have hold := isNth_of_getElem? ho
    obtain ⟨i, hnew⟩ := hold.exists_of_count_le hcount
    obtain ⟨s, hs⟩ := hnew.exists_getElem?
    exact ⟨i, s, ⟨_, _, hold, hnew⟩, hs, voices_eq_of_isNth hsettings hnew hs hold ho⟩
  · intro hsource i o ho
    have hsignatures : old.map Sound.signature =
        (session.engine.play program).sounds.map Sound.signature := by
      rcases hlive.signatures source hsource with hempty | ⟨tempo, p, hp, hsignatures⟩
      · have hnone : old[i]? = none := by rw [show old = [] from hempty, List.getElem?_nil]
        rw [hnone] at ho
        cases ho
      · rw [signatures_play, signatures_eq_of_compile hcompile hp]
        exact hsignatures
    have hold := isNth_of_getElem? ho
    have hnew := hold.congr hsignatures
    obtain ⟨s, hs⟩ := hnew.exists_getElem?
    refine ⟨s, hs, hnew.signature_of_getElem? hs, voices_eq_of_isNth hsettings hnew hs hold ho⟩

/-- The settings under which voices are carried over. -/
def carrying : Config :=
  { carryVoices := true }

theorem voices_carried_chord :
    let session := run carrying chordOperations
    ∃ e, session.engine.load chordSource = .ok e ∧ session.live = some chordSource ∧
      ∃ o, session.engine.sounds[0]? = some o ∧ o.voices.length = 2 ∧
        ∃ s, e.sounds[0]? = some s ∧ s.signature = o.signature ∧ s.voices = o.voices := by
  have hplayed : (Engine.ofConfig carrying).load chordSource =
      .ok ((Engine.ofConfig carrying).play chordProgram) :=
    load_of_compile compile_chordSource
  obtain ⟨reports, hrender⟩ :=
    Engine.render_eq 1 0 48000 ((Engine.ofConfig carrying).play chordProgram)
  have hlive : (run carrying chordOperations).live = some chordSource := by
    simp only [run, chordOperations, List.foldl_cons, List.foldl_nil, step, Operation.loaded?,
      Operation.source?, ofConfig, Option.filter_some, Option.filter_none, hplayed]
    rfl
  have hsounds : (run carrying chordOperations).engine.sounds =
      (Engine.renderFrames 48000 1 0 #[]
        (((Engine.ofConfig carrying).play chordProgram).retime 0 48000)).2.sounds := by
    simp only [run, chordOperations, List.foldl_cons, List.foldl_nil, step, Operation.apply,
      ofConfig, hplayed, Except.toOption, Option.getD_some, hrender]
    rfl
  have hvoices : (run carrying chordOperations).engine.sounds.map (·.voices.length) = [2] := by
    rw [hsounds]
    decide +kernel
  obtain ⟨o, others, hcons, ho, -⟩ := List.map_eq_cons_iff.1 hvoices
  have hfirst : (run carrying chordOperations).engine.sounds[0]? = some o := by
    rw [hcons]
    rfl
  obtain ⟨program, hcompile⟩ := exists_compile_of_compile
    (run carrying chordOperations).engine.tempo compile_chordSource
  obtain ⟨e, hload, -, -, -, hkept⟩ :=
    voices_carried_in_order carrying rfl chordOperations chordSource program hcompile
  exact ⟨e, hload, hlive, o, hfirst, ho, hkept hlive 0 o hfirst⟩

end Session

end PatternSynth
