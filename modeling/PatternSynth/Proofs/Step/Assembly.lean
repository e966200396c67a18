import PatternSynth.Proofs.Step.Product

/-!
# What a step is put together from

At each pull some activations of a performance hold a step (`Activation.held?`). A sequence passes
on the step of the one child that is not over, a cycle that of its branch and a modifier that of its
inside, while a chord hands out what its tracks hold together. In each case a node with children
puts its step together from what its parts hold, and adds its own spans
(`Activation.Assembles`).
-/

namespace PatternSynth

theorem Stutters.getLast?_eq {α : Type} {xs ys : List α} (h : Stutters xs ys) :
    xs.getLast? = ys.getLast? := by
  obtain ⟨counts, hlength, hpos, rfl⟩ := h
  induction counts generalizing ys with
  | nil =>
    obtain rfl := List.eq_nil_of_length_eq_zero hlength.symm
    rfl
  | cons n counts ih =>
    obtain ⟨y, ys, rfl⟩ := List.exists_cons_of_length_eq_add_one hlength.symm
    have hothers := ih (Nat.succ.inj hlength) fun m hm => hpos m (List.mem_cons_of_mem n hm)
    have hn : n ≠ 0 := Nat.ne_of_gt (hpos n List.mem_cons_self)
    rw [List.zipWith_cons_cons, List.flatten_cons, List.getLast?_append, hothers,
      List.getLast?_replicate, if_neg hn, List.getLast?_cons]
    cases ys.getLast? <;> rfl

variable {β : Type} [Beats β] (timing : ChordTiming β)

/-! ## Where an activation has got to -/

/-- What a visit makes of the last of these pulls, unless it is over before. -/
def Visit.final : Progress β × Cursors → List Pull → Progress β × Cursors
  | (some (_, v), _), pull :: pulls => final (v.next timing pull.env pull.cursors) pulls
  | result, _ => result

namespace Activation

/-- What an activation makes of its last pull, unless it is over before. -/
def last (a : Activation β) : Progress β × Cursors :=
  Visit.final timing (a.first timing) a.later

/-- The step that an activation holds after its last pull, unless it is over. -/
def held? (a : Activation β) : Option (Step β) :=
  (a.last timing).1.map Prod.fst

end Activation

namespace Visit

variable {timing} {result : Progress β × Cursors} {pulls : List Pull}

theorem final_nil : final timing result [] = result := by
  rcases result with ⟨_ | ⟨step, v⟩, cursors⟩ <;> rfl

theorem getLast?_replies :
    (result :: replies timing result.1 pulls).getLast? = some (final timing result pulls) := by
  induction pulls generalizing result with
  | nil => rw [replies_nil, final_nil, List.getLast?_singleton]
  | cons pull pulls ih =>
    obtain ⟨_ | ⟨step, v⟩, cursors⟩ := result
    · rfl
    · rw [replies, List.getLast?_cons_cons]
      exact ih

/-- A visit that is not over has answered each pull. -/
theorem length_replies_of_final {step : Step β} {v : Visit β} {cursors : Cursors}
    (h : final timing result pulls = (some (step, v), cursors)) :
    (replies timing result.1 pulls).length = pulls.length := by
  induction pulls generalizing result with
  | nil => rw [replies_nil, List.length_nil, List.length_nil]
  | cons pull pulls ih =>
    obtain ⟨_ | ⟨held, v'⟩, before⟩ := result
    · cases h
    · exact congrArg Nat.succ (ih h)

theorem final_concat {step : Step β} {v : Visit β} {cursors : Cursors} (pull : Pull)
    (h : final timing result pulls = (some (step, v), cursors)) :
    final timing result (pulls ++ [pull]) = v.next timing pull.env pull.cursors := by
  induction pulls generalizing result with
  | nil =>
    rw [final_nil] at h
    rw [h, List.nil_append, final, final_nil]
  | cons first pulls ih =>
    obtain ⟨_ | ⟨held, v'⟩, before⟩ := result
    · cases h
    · exact ih h

theorem final_surround (spans : List Span) :
    final timing (surround spans result.1, result.2) pulls =
      (surround spans (final timing result pulls).1, (final timing result pulls).2) := by
  induction pulls generalizing result with
  | nil => rw [final_nil, final_nil]
  | cons pull pulls ih =>
    obtain ⟨_ | ⟨step, v⟩, cursors⟩ := result
    · rfl
    · exact ih

omit [Beats β] in
theorem map_fst_surround (spans : List Span) (p : Progress β) :
    (surround spans p).map Prod.fst = (p.map Prod.fst).map (Step.under spans) := by
  rcases p with _ | ⟨step, v⟩ <;> rfl

variable (timing) in
/-- A sequence goes on with its present child until that is over, and then with the next ones. -/
theorem final_proceed (env : Env) (duration : β) (gain : Float) (spans : List Span)
    (rest : List Tree) (result : Progress β × Cursors) (pulls : List Pull) :
    match (handOver timing result env pulls).2 with
    | none => ∃ held v cursors,
      final timing result (handOver timing result env pulls).1 = (some (held, v), cursors) ∧
      final timing (proceed timing env duration gain spans rest result.1 result.2) pulls =
        (some (held.under spans, sequence spans gain duration rest v), cursors)
    | some (entry, left) =>
      (final timing result (handOver timing result env pulls).1).1 = none ∧
      final timing (proceed timing env duration gain spans rest result.1 result.2) pulls =
        final timing (startFirst timing entry.env spans duration gain entry.cursors rest) left := by
  induction pulls generalizing result env with
  | nil =>
    obtain ⟨_ | ⟨step, v⟩, cursors⟩ := result
    · exact ⟨rfl, rfl⟩
    · exact ⟨step, v, cursors, rfl, rfl⟩
  | cons pull pulls ih =>
    obtain ⟨_ | ⟨step, v⟩, cursors⟩ := result
    · exact ⟨rfl, rfl⟩
    · have hrest := ih pull.env (v.next timing pull.env pull.cursors)
      rw [← next_sequence] at hrest
      exact hrest

theorem spans_of_merge {spans : List Span} {tracks : List (Track β)} {step : Step β} {v : Visit β}
    (h : merge timing spans tracks = some (step, v)) :
    step.spans = spans ++ (tracks.filterMap Track.held?).flatMap Step.spans := by
  simp only [merge] at h
  split at h
  · cases h
  · obtain ⟨rfl, -⟩ := Prod.mk.inj (Option.some.inj h)
    rfl

/-- A chord in which no track holds a step is over. -/
theorem exists_held_of_merge {spans : List Span} {tracks : List (Track β)} {step : Step β}
    {v : Visit β} (h : merge timing spans tracks = some (step, v)) :
    ∃ held, held ∈ tracks.filterMap Track.held? := by
  have hsome : ¬ merge timing spans tracks = none := fun hnone => nomatch hnone.symm.trans h
  rw [merge_eq_none] at hsome
  obtain ⟨r, hr⟩ := Classical.not_forall.1 hsome
  obtain ⟨hr, -⟩ := Classical.not_imp.1 hr
  obtain ⟨track, htrack, hremaining⟩ := List.mem_filterMap.1 hr
  cases track with
  | finished => cases hremaining
  | sounding held remaining visit => exact ⟨held, List.mem_filterMap.2 ⟨_, htrack, rfl⟩⟩

end Visit

namespace Activation

open Visit

variable {timing} {a b : Activation β} {step held : Step β}

theorem getLast?_replies : (a.replies timing).getLast? = some (a.last timing) :=
  Visit.getLast?_replies

theorem getLast?_map_replies :
    ((a.replies timing).map fun reply => reply.1.map Prod.fst).getLast? =
      some (a.held? timing) := by
  rw [List.getLast?_map, getLast?_replies]
  rfl

theorem exists_last (h : (a.held? timing).isSome) :
    ∃ step v left, a.held? timing = some step ∧ a.last timing = (some (step, v), left) := by
  rw [held?] at h ⊢
  rcases hlast : a.last timing with ⟨_ | ⟨step, v⟩, left⟩
  · rw [hlast] at h
    cases h
  · exact ⟨step, v, left, rfl, rfl⟩

/-- An activation that is not over has answered each of its pulls. -/
theorem length_replies {v : Visit β} {left : Cursors}
    (h : a.last timing = (some (step, v), left)) :
    (a.replies timing).length = a.later.length + 1 :=
  congrArg Nat.succ (length_replies_of_final h)

theorem getElem?_replies {v : Visit β} {left : Cursors}
    (h : a.last timing = (some (step, v), left)) :
    (a.replies timing)[a.later.length]? = some (some (step, v), left) := by
  rw [← h, ← getLast?_replies, List.getLast?_eq_getElem?, length_replies h, Nat.add_sub_cancel]

/-! ## Steps put together from parts -/

variable (timing) in
/-- Some part of the activation holds the step. -/
def PartHolds (a : Activation β) (held : Step β) : Prop :=
  ∃ b, Part timing a b ∧ b.held? timing = some held

variable (timing) in
/-- The step has the notes and the spans of what the parts of the activation hold, with the spans
of the activation's own node, and at least one part holds a step. -/
structure Assembles (a : Activation β) (step : Step β) : Prop where
  notes : ∀ note, note ∈ step.notes ↔ ∃ held, a.PartHolds timing held ∧ note ∈ held.notes
  spans : ∀ span, span ∈ step.spans ↔
    span ∈ a.tree.tag.spans ∨ ∃ held, a.PartHolds timing held ∧ span ∈ held.spans
  part : ∃ held, a.PartHolds timing held

/-- Outside chords a single part holds a step. -/
theorem assembles_under (hpart : Part timing a b) (hheld : b.held? timing = some held)
    (honly : ∀ c, Part timing a c → (c.held? timing).isSome → c = b) :
    a.Assembles timing (held.under a.tree.tag.spans) := by
  have hparts : ∀ held', a.PartHolds timing held' ↔ held' = held := by
    refine fun held' => ⟨?_, ?_⟩
    · rintro ⟨c, hc, hheld'⟩
      obtain rfl := honly c hc (hheld' ▸ rfl)
      exact Option.some.inj (hheld'.symm.trans hheld)
    · rintro rfl
      exact ⟨b, hpart, hheld⟩
  refine ⟨fun note => ?_, fun span => ?_, held, (hparts held).2 rfl⟩
  · simp only [hparts, exists_eq_left, Step.under]
  · simp only [hparts, exists_eq_left, Step.under, List.mem_append, or_comm]

/-- A cycle and a modifier pass on to a single part all the pulls that they get. -/
theorem assembles_surround (hpart : Part timing a b) (honly : ∀ c, Part timing a c → c = b)
    (hlater : a.later = b.later)
    (hfirst : a.first timing = (surround a.tree.tag.spans (b.first timing).1, (b.first timing).2))
    (hheld : a.held? timing = some step) : a.Assembles timing step := by
  rw [held?, last, hfirst, hlater, final_surround, map_fst_surround] at hheld
  obtain ⟨held, hb, rfl⟩ := Option.map_eq_some_iff.1 hheld
  exact assembles_under hpart hb fun c hc _ => honly c hc

/-- Of the children of a sequence, one holds the step, and the others are over. -/
theorem exists_element {spans : List Span} {duration : β} {gain : Float} {ts : List Tree}
    {entry : Pull} {pulls : List Pull}
    (h : (final timing (startFirst timing entry.env spans duration gain entry.cursors ts)
      pulls).1.map Prod.fst = some step) :
    ∃ b ∈ elements timing duration gain ts entry pulls, ∃ held,
      b.held? timing = some held ∧ step = held.under spans ∧
      ∀ c ∈ elements timing duration gain ts entry pulls, (c.held? timing).isSome → c = b := by
  induction ts generalizing entry pulls with
  | nil =>
    rw [startFirst] at h
    cases pulls <;> cases h
  | cons t ts ih =>
    have hproceed := final_proceed timing entry.env duration gain spans ts
      (start timing entry.env duration gain entry.cursors t) pulls
    rw [startFirst_cons] at h
    rw [elements]
    rcases hleft : handOver timing (start timing entry.env duration gain entry.cursors t) entry.env
      pulls with ⟨own, _ | ⟨entry', left⟩⟩
    · rw [hleft] at hproceed
      obtain ⟨held, v, cursors, hown, hfinal⟩ := hproceed
      rw [hfinal] at h
      obtain rfl := Option.some.inj h
      refine ⟨_, List.mem_cons_self, held, congrArg (fun r => r.1.map Prod.fst) hown, rfl, ?_⟩
      exact fun c hc _ => List.mem_singleton.1 hc
    · rw [hleft] at hproceed
      obtain ⟨hown, hfinal⟩ := hproceed
      rw [hfinal] at h
      obtain ⟨b, hb, held, hheld, hstep, honly⟩ := ih h
      refine ⟨b, List.mem_cons_of_mem _ hb, held, hheld, hstep, fun c hc hsome => ?_⟩
      rcases List.mem_cons.1 hc with rfl | hc
      · -- The child that has handed the pull over is over.
        simp only [held?, last, first, hown, Option.map_none, Option.isSome_none,
          Bool.false_eq_true] at hsome
      · exact honly c hc hsome

/-- The parts of a chord hold what its tracks hold in the last round. -/
theorem partHolds_chord_iff {id : Nat} {ts : List Tree} {tag : Tag} {round : Round β}
    (h : a.Undisturbed timing) (ha : a.tree = .group id .chord ts tag)
    (hround : (a.rounds timing).getLast? = some round) (held : Step β) :
    a.PartHolds timing held ↔ ∃ place, round.heldAt place = some held := by
  have htrack : ∀ {place : Nat} {t : Tree}, ts[place]? = some t → ∃ own,
      (Tree.entries timing a.entry.env a.duration (tag.innerGain a.gain) a.entry.cursors
        ts)[place]? = some own ∧
      (a.onTrack timing place t tag own).held? timing = round.heldAt place := by
    intro place t ht
    obtain ⟨own, hentry, -, -, hstutters⟩ := onTrack_undisturbed h ha ht
    have hlast := hstutters.getLast?_eq
    rw [getLast?_map_replies, List.getLast?_map, hround, Option.map_some] at hlast
    exact ⟨_, hentry, (Option.some.inj hlast).symm⟩
  obtain ⟨tree, duration, gain, entry, later⟩ := a
  obtain rfl : tree = .group id .chord ts tag := ha
  constructor
  · rintro ⟨b, hpart, hheld⟩
    cases hpart with
    | @track _ _ _ _ _ _ _ place t own ht hown =>
      obtain ⟨own', hentry, hplace⟩ := htrack ht
      obtain rfl := Option.some.inj (hown.symm.trans hentry)
      exact ⟨place, hplace.symm.trans hheld⟩
  · rintro ⟨place, hplace⟩
    have hlength := length_tracks_of_mem_rounds rfl (List.mem_of_getLast? hround)
    obtain ⟨track, hmem, -⟩ := Option.bind_eq_some_iff.1 hplace
    obtain ⟨hlt, -⟩ := List.getElem?_eq_some_iff.1 hmem
    rw [hlength] at hlt
    obtain ⟨own, hentry, hheld⟩ := htrack (List.getElem?_eq_getElem hlt)
    exact ⟨_, .track (List.getElem?_eq_getElem hlt) hentry, hheld.trans hplace⟩

omit [Beats β] in
theorem mem_held_iff (round : Round β) :
    held ∈ round.tracks.filterMap Track.held? ↔ ∃ place, round.heldAt place = some held := by
  rw [List.mem_filterMap]
  constructor
  · rintro ⟨track, hmem, hheld⟩
    obtain ⟨place, hplace⟩ := List.mem_iff_getElem?.1 hmem
    exact ⟨place, Option.bind_eq_some_iff.2 ⟨track, hplace, hheld⟩⟩
  · rintro ⟨place, hplace⟩
    obtain ⟨track, htrack, hheld⟩ := Option.bind_eq_some_iff.1 hplace
    exact ⟨track, List.mem_of_getElem? htrack, hheld⟩

theorem assembles_chord {id : Nat} {ts : List Tree} {tag : Tag} (h : a.Undisturbed timing)
    (ha : a.tree = .group id .chord ts tag) (hts : ts ≠ []) (hheld : a.held? timing = some step) :
    a.Assembles timing step := by
  obtain ⟨⟨step, v⟩, hreply, rfl⟩ := Option.map_eq_some_iff.1 hheld
  have hlast : ((a.replies timing).map Prod.fst).getLast? = some (some (step, v)) := by
    rw [List.getLast?_map, getLast?_replies, Option.map_some, hreply]
  rw [map_replies_chord timing ha hts, List.getLast?_map] at hlast
  obtain ⟨round, hround, hmerge⟩ := Option.map_eq_some_iff.1 hlast
  have hparts : ∀ held, held ∈ round.tracks.filterMap Track.held? ↔ a.PartHolds timing held :=
    fun held => (mem_held_iff round).trans (partHolds_chord_iff h ha hround held).symm
  refine ⟨fun note => ?_, fun span => ?_, ?_⟩
  · simp only [notes_of_merge hmerge, List.mem_flatMap, hparts]
  · simp only [spans_of_merge hmerge, List.mem_append, List.mem_flatMap, hparts, ha, Tree.tag]
  · obtain ⟨held, hmem⟩ := exists_held_of_merge hmerge
    exact ⟨held, (hparts held).1 hmem⟩

/-- Whatever kind of node it is of, an activation that is not disturbed puts its step together from
its parts. -/
theorem Undisturbed.assembles (h : a.Undisturbed timing) (ha : a.tree.children ≠ [])
    (hheld : a.held? timing = some step) : a.Assembles timing step := by
  obtain ⟨tree, duration, gain, entry, later⟩ := a
  match tree with
  | .leaf _ _ => exact absurd rfl ha
  | .group _ _ [] _ => exact absurd rfl ha
  | .group id .sequence (t :: ts) tag =>
    obtain ⟨b, hmem, held, hb, rfl, honly⟩ := exists_element hheld
    refine assembles_under (.element hmem) hb fun c hc hsome => ?_
    cases hc with
    | element hmem => exact honly c hmem hsome
  | .group id .cycle (t :: ts) tag =>
    have hlt : (entry.cursors.turn id (t :: ts).length).1 < (t :: ts).length :=
      Nat.mod_lt _ (Nat.succ_pos _)
    have hbranch := List.getElem?_eq_getElem hlt
    refine assembles_surround (.branch hbranch) (fun c hc => ?_) rfl ?_ hheld
    · cases hc with
      | branch hbranch' =>
        obtain rfl := Option.some.inj (hbranch'.symm.trans hbranch)
        rfl
    · simp only [first, start_cycle, startNth_eq, hbranch, Tree.tag]
  | .group id .chord (t :: ts) tag => exact assembles_chord h rfl (List.cons_ne_nil t ts) hheld
  | .modified id kind amount inner tag =>
    refine assembles_surround .inside (fun c hc => ?_) rfl (start_modified ..) hheld
    cases hc with
    | inside => rfl

end Activation

end PatternSynth
