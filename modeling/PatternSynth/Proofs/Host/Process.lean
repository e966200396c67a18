import PatternSynth.Host
import PatternSynth.Proofs.Engine.Blocks

/-!
# One call of the device

A call carries out the commands that have queued up, plays in blocks that end where its buffer does,
and hands on what the engine has to say. `Host.process_eq` is the equation for a whole call, and
`Host.obeyAll_offerAll` says in which order commands are carried out. What a call hands on is what
was waiting in the engine, followed by reports of what sounds, and as much of it is kept as there is
room for in the queue.
-/

namespace PatternSynth

/-- A report of what sounds. -/
def Outbound.isReport : Outbound → Bool
  | highlight _ => true
  | _ => false

/-- The messages that are more than reports. -/
def Outbound.lasting (messages : List Outbound) : List Outbound :=
  messages.filter (!·.isReport)

theorem Outbound.lasting_append (xs ys : List Outbound) :
    lasting (xs ++ ys) = lasting xs ++ lasting ys :=
  List.filter_append ..

theorem Outbound.lasting_eq_self {messages : List Outbound}
    (h : ∀ m ∈ messages, m.isReport = false) : lasting messages = messages :=
  List.filter_eq_self.2 fun m hm => congrArg not (h m hm)

theorem Outbound.lasting_map_highlight (reports : List (List Span)) :
    lasting (reports.map highlight) = [] := by
  simp [lasting, isReport]

namespace Queue

variable {α : Type}

/-- How many more entries there is room for. -/
def room (q : Queue α) : Nat :=
  q.capacity - q.entries.size

/-- Offer entries one after another. -/
def offerAll (q : Queue α) (xs : List α) : Queue α :=
  xs.foldl offer q

theorem capacity_offer (q : Queue α) (x : α) : (q.offer x).capacity = q.capacity := by
  simp only [offer, push?]
  split <;> rfl

theorem toList_offer (q : Queue α) (x : α) :
    (q.offer x).entries.toList = q.entries.toList ++ [x].take q.room := by
  simp only [offer, push?]
  split
  next hlt =>
    have hroom : [x].take q.room = [x] := List.take_of_length_le (Nat.sub_pos_of_lt hlt)
    rw [hroom]
    exact Array.toList_push
  next hle =>
    rw [room, Nat.sub_eq_zero_of_le (Nat.le_of_not_lt hle)]
    exact (List.append_nil _).symm

theorem room_offer (q : Queue α) (x : α) : (q.offer x).room = q.room - 1 := by
  have hlength := congrArg List.length (toList_offer q x)
  rw [List.length_append, List.length_take, Array.length_toList, Array.length_toList] at hlength
  simp only [room, capacity_offer, List.length_singleton] at hlength ⊢
  omega

theorem capacity_offerAll (q : Queue α) (xs : List α) :
    (q.offerAll xs).capacity = q.capacity := by
  induction xs generalizing q with
  | nil => rfl
  | cons x xs ih => exact (ih (q.offer x)).trans (capacity_offer q x)

/-- What there is room for is kept in order, and the rest is lost. -/
theorem toList_offerAll (q : Queue α) (xs : List α) :
    (q.offerAll xs).entries.toList = q.entries.toList ++ xs.take q.room := by
  induction xs generalizing q with
  | nil => simp [offerAll]
  | cons x xs ih =>
    calc ((q.offer x).offerAll xs).entries.toList
        = q.entries.toList ++ [x].take q.room ++ xs.take (q.room - 1) := by
          rw [ih, toList_offer, room_offer]
      _ = q.entries.toList ++ ([x] ++ xs).take q.room := by
          rw [List.append_assoc, List.take_append, List.length_singleton]

theorem offerAll_append (q : Queue α) (xs ys : List α) :
    q.offerAll (xs ++ ys) = (q.offerAll xs).offerAll ys :=
  List.foldl_append

end Queue

/-- One frame is one block. -/
theorem Engine.cut_one (block : Nat) : cut block 1 = [1] := by
  have hmin : min (max block 1) 1 = 1 := Nat.min_eq_right (Nat.le_max_right block 1)
  rw [cut, if_neg Nat.one_ne_zero]
  simp only [hmin]
  rw [cut, if_pos (Nat.sub_self 1)]

namespace Host

/-! ## Commands -/

/-- A command changes nothing but the engine and the volume. -/
theorem obey_unchanged (h : Host) (c : Control) :
    ∃ engine volume, h.obey c = { h with engine, volume } := by
  cases c with
  | message m => exact ⟨h.engine.handle m, h.volume, rfl⟩
  | volume v => exact ⟨h.engine, clampVolume v, rfl⟩
  | stop => exact ⟨h.engine.silence, h.volume, rfl⟩

theorem foldl_obey_unchanged (cs : List Control) (h : Host) :
    ∃ engine volume, cs.foldl obey h = { h with engine, volume } := by
  induction cs generalizing h with
  | nil => exact ⟨h.engine, h.volume, rfl⟩
  | cons c cs ih =>
    obtain ⟨engine, volume, hc⟩ := obey_unchanged h c
    rw [List.foldl_cons, hc]
    exact ih { h with engine, volume }

/-- All that commands change is the engine and the volume, and none of them stay in the queue. -/
theorem obeyAll_unchanged (h : Host) :
    ∃ engine volume,
      h.obeyAll = { h with engine, volume, controls := { h.controls with entries := #[] } } :=
  foldl_obey_unchanged h.controls.entries.toList
    { h with controls := { h.controls with entries := #[] } }

/-- Commands are carried out in the order in which they queue up, as far as there is room. -/
theorem obeyAll_offerAll (h : Host) (cs : List Control) :
    { h with controls := h.controls.offerAll cs }.obeyAll =
      (cs.take h.controls.room).foldl obey h.obeyAll := by
  have hcapacity := Queue.capacity_offerAll h.controls cs
  simp only [obeyAll, Queue.takeAll, Queue.toList_offerAll, hcapacity, List.foldl_append]

theorem channels_obeyAll (h : Host) : h.obeyAll.channels = h.channels := by
  obtain ⟨engine, volume, hobey⟩ := obeyAll_unchanged h
  rw [hobey]

/-- What holds of the engine, and goes on to hold when it acts on a message or falls silent, holds
after the commands. -/
theorem engine_obeyAll {P : Engine → Prop} (hhandle : ∀ e m, P e → P (e.handle m))
    (hsilence : ∀ e, P e → P e.silence) {h : Host} (hengine : P h.engine) :
    P h.obeyAll.engine := by
  refine List.foldlRecOn (motive := fun h => P h.engine) h.controls.entries.toList obey
    (b := { h with controls := { h.controls with entries := #[] } }) hengine ?_
  intro h hengine c _
  cases c with
  | message m => exact hhandle h.engine m hengine
  | volume v => exact hengine
  | stop => exact hsilence h.engine hengine

theorem obeyAll_of_controls_eq_empty {h : Host} (hcontrols : h.controls.entries = #[]) :
    h.obeyAll = h := by
  obtain ⟨engine, ⟨capacity, entries⟩, outbound, frame, volume, channels, rate⟩ := h
  subst hcontrols
  rfl

/-! ## A whole call -/

/-- The lengths of the blocks that a call with a buffer of this size plays. -/
def blocks (h : Host) (size : Nat) : List Nat :=
  Engine.cut h.engine.config.blockSize.toNat (size / h.channels)

/-- The frames that a call with a buffer of this size plays, and the engine after it. -/
def played (h : Host) (size : Nat) : Array Float32 × Engine :=
  Engine.renderEach h.rate (h.blocks size) h.frame h.engine

/-- A call starts with what has queued up and goes on with the engine from there. -/
theorem process_eq (output : Array Float32) (h : Host) :
    h.process output =
      let h' := h.obeyAll
      let frames := h'.played output.size
      let filled := interleave h.channels h'.volume frames.1
      (filled ++ output.extract filled.size output.size,
        { h' with
          engine := frames.2.drain.2
          frame := h.frame + (output.size / h.channels).toUInt64
          outbound := h.outbound.offerAll frames.2.outbox.toList }) := by
  obtain ⟨engine, volume, hobey⟩ := obeyAll_unchanged h
  simp only [process, forward, Engine.drain, played, blocks, hobey,
    Engine.renderBlocks_eq_renderEach, Array.empty_append]
  rfl

/-- What a call hands on is what was waiting and then reports. -/
theorem exists_outbox_played (h : Host) (size : Nat) :
    ∃ reports : List (List Span),
      (h.played size).2.outbox.toList =
        h.engine.outbox.toList ++ reports.map Outbound.highlight := by
  obtain ⟨sounds, noise, clock, reports, heach⟩ :=
    Engine.renderEach_unchanged h.rate (h.blocks size) h.frame h.engine
  refine ⟨reports, ?_⟩
  rw [played, heach]
  exact Array.toList_append

end Host

end PatternSynth
