import PatternSynth.Proofs.Step.Activation

/-!
# Chords do not mix up their children

The tracks of a chord take turns on the same cursors. Since no two nodes share a number, each track
finds the cursors of its child as it left them, so that the children of a chord do not disturb one
another (`Activation.onTrack_undisturbed`). The other kinds of nodes have one child at a time. From
the root down, no activation of a performance is disturbed (`Player.Activates.undisturbed`).
-/

namespace PatternSynth

/-! ## Stuttering -/

/-- The first list repeats each entry of the second one at least once, in order. -/
def Stutters {α : Type} (xs ys : List α) : Prop :=
  ∃ counts : List Nat, counts.length = ys.length ∧ (∀ n ∈ counts, 0 < n) ∧
    xs = (List.zipWith List.replicate counts ys).flatten

namespace Stutters

variable {α : Type} {x : α} {xs ys : List α}

theorem nil : Stutters ([] : List α) [] :=
  ⟨[], rfl, fun _ h => (List.not_mem_nil h).elim, rfl⟩

theorem cons (x : α) (h : Stutters xs ys) : Stutters (x :: xs) (x :: ys) := by
  obtain ⟨counts, hlength, hpos, rfl⟩ := h
  refine ⟨1 :: counts, by rw [List.length_cons, hlength, List.length_cons], ?_, rfl⟩
  intro n hn
  rcases List.mem_cons.1 hn with rfl | hn
  · exact Nat.one_pos
  · exact hpos n hn

/-- An entry that is repeated may be repeated once more. -/
theorem again (h : Stutters (x :: xs) (x :: ys)) : Stutters (x :: x :: xs) (x :: ys) := by
  obtain ⟨_ | ⟨n, counts⟩, hlength, hpos, hxs⟩ := h
  · cases hlength
  · refine ⟨(n + 1) :: counts, hlength, ?_, ?_⟩
    · intro m hm
      rcases List.mem_cons.1 hm with rfl | hm
      · exact Nat.succ_pos n
      · exact hpos m (List.mem_cons_of_mem n hm)
    · rw [List.zipWith_cons_cons, List.flatten_cons, List.replicate_succ, List.cons_append, hxs,
        List.zipWith_cons_cons, List.flatten_cons]

end Stutters

/-! ## One track among the others -/

namespace Visit

open Cursors

variable {β : Type}

theorem Inside.length_eq : ∀ {tracks : List (Track β)} {ts : List Tree},
    Inside tracks ts → tracks.length = ts.length
  | [], [], _ => rfl
  | _ :: _, _ :: _, ⟨_, hothers⟩ => congrArg Nat.succ hothers.length_eq

variable [Beats β] (timing : ChordTiming β) (env : Env)

theorem inside_advanceAll (elapsed : β) : ∀ (cursors : Cursors) {tracks : List (Track β)}
    {ts : List Tree}, Inside tracks ts → Inside (advanceAll timing env elapsed cursors tracks).1 ts
  | _, [], [], _ => trivial
  | cursors, track :: tracks, t :: ts, hinside => by
    rw [Track.advanceAll_cons]
    exact ⟨List.Subset.trans (ids_advance timing env elapsed cursors track) hinside.1,
      inside_advanceAll elapsed _ hinside.2⟩

/-- Entering the children of a chord enters each of them as if it were the only one. -/
theorem startAll_at (duration : β) (gain : Float) (cursors : Cursors) {ts : List Tree}
    {place : Nat} {t : Tree} (hnodup : (Tree.idsAll ts).Nodup) (ht : ts[place]? = some t) :
    ∃ own, (Tree.entries timing env duration gain cursors ts)[place]? = some ⟨env, own⟩ ∧
      (startAll timing env duration gain cursors ts).1[place]? =
        some (.ofProgress (start timing env duration gain own t).1) ∧
      AgreeOn t.ids cursors own ∧
      AgreeOn t.ids (start timing env duration gain own t).2
        (startAll timing env duration gain cursors ts).2 := by
  induction ts generalizing cursors place with
  | nil => cases ht
  | cons u us ih =>
    obtain ⟨-, husnodup, hdisjoint⟩ := List.nodup_append.1 hnodup
    cases place with
    | zero =>
      obtain rfl := Option.some.inj ht
      refine ⟨cursors, rfl, rfl, AgreeOn.refl _ _, ?_⟩
      -- The children after this one leave its cursors alone.
      refine AgreeOn.symm ((local_startAll timing env duration gain us).agreeOn_of_disjoint ?_ _)
      exact fun i hi hi' => hdisjoint i hi i hi' rfl
    | succ place =>
      obtain ⟨own, hentry, htrack, hbefore, hafter⟩ :=
        ih (start timing env duration gain cursors u).2 husnodup ht
      refine ⟨own, hentry, htrack, AgreeOn.trans ?_ hbefore, hafter⟩
      refine AgreeOn.symm ((local_start timing env duration gain u).agreeOn_of_disjoint ?_ _)
      have hsub : t.ids ⊆ Tree.idsAll us :=
        Tree.ids_subset_idsAll (List.mem_of_getElem? (i := place) ht)
      exact fun i hi hi' => hdisjoint i hi' i (hsub hi) rfl

/-- Letting time pass on the tracks of a chord treats each of them as if it were the only one. -/
theorem advanceAll_at (elapsed : β) (cursors : Cursors) {tracks : List (Track β)} {ts : List Tree}
    {place : Nat} {t : Tree} {track : Track β} (hinside : Inside tracks ts)
    (hnodup : (Tree.idsAll ts).Nodup) (ht : ts[place]? = some t)
    (htrack : tracks[place]? = some track) :
    ∃ own, (Track.pulls timing env elapsed cursors tracks)[place]? =
        some (if track.isDue timing elapsed then some ⟨env, own⟩ else none) ∧
      (advanceAll timing env elapsed cursors tracks).1[place]? =
        some (track.advance timing env elapsed own).1 ∧
      AgreeOn t.ids cursors own ∧
      AgreeOn t.ids (track.advance timing env elapsed own).2
        (advanceAll timing env elapsed cursors tracks).2 := by
  induction ts generalizing tracks cursors place with
  | nil => cases ht
  | cons u us ih =>
    obtain ⟨-, husnodup, hdisjoint⟩ := List.nodup_append.1 hnodup
    obtain _ | ⟨first, others⟩ := tracks
    · exact hinside.elim
    rw [Track.advanceAll_cons]
    cases place with
    | zero =>
      obtain rfl := Option.some.inj ht
      obtain rfl := Option.some.inj htrack
      refine ⟨cursors, rfl, rfl, AgreeOn.refl _ _, ?_⟩
      refine AgreeOn.symm ((local_advanceAll timing env elapsed others).agreeOn_of_disjoint ?_ _)
      exact fun i hi hi' => hdisjoint i hi i (hinside.2.idsAll_subset hi') rfl
    | succ place =>
      obtain ⟨own, hpull, hmoved, hbefore, hafter⟩ :=
        ih (first.advance timing env elapsed cursors).2 hinside.2 husnodup ht htrack
      refine ⟨own, hpull, hmoved, AgreeOn.trans ?_ hbefore, hafter⟩
      refine AgreeOn.symm ((local_advance timing env elapsed first).agreeOn_of_disjoint ?_ _)
      have hsub : t.ids ⊆ Tree.idsAll us :=
        Tree.ids_subset_idsAll (List.mem_of_getElem? (i := place) ht)
      exact fun i hi hi' => hdisjoint i (hinside.1 hi') i (hsub hi) rfl

end Visit

/-! ## The rounds of a chord -/

namespace Track

variable {β : Type}

/-- The progress behind the step that a track holds. -/
def progress : Track β → Progress β
  | finished => none
  | sounding held _ visit => some (held, visit)

theorem progress_ofProgress (p : Progress β) : (ofProgress p).progress = p := by
  rcases p with _ | ⟨step, v⟩ <;> rfl

theorem held?_eq_progress (t : Track β) : t.held? = t.progress.map Prod.fst := by
  cases t <;> rfl

variable [Beats β] {timing : ChordTiming β} {elapsed : β} (env : Env)

/-- A track whose step is not over goes on with it. -/
theorem advance_of_not_due {t : Track β} (h : t.isDue timing elapsed = false) (cursors : Cursors) :
    (t.advance timing env elapsed cursors).1.progress = t.progress ∧
      (t.advance timing env elapsed cursors).2 = cursors := by
  cases t with
  | finished => exact ⟨rfl, rfl⟩
  | sounding held remaining visit =>
    have hnot : ¬ Beats.le (remaining - elapsed) timing.epsilon = true := by
      rw [isDue] at h
      exact Bool.eq_false_iff.1 h
    rw [advance, if_neg hnot]
    exact ⟨rfl, rfl⟩

/-- A track whose step is over goes on with its visit. -/
theorem advance_of_due {t : Track β} (h : t.isDue timing elapsed = true) :
    ∃ held visit, t.progress = some (held, visit) ∧ ∀ cursors,
      t.advance timing env elapsed cursors =
        (ofProgress (visit.next timing env cursors).1, (visit.next timing env cursors).2) := by
  cases t with
  | finished => cases h
  | sounding held remaining visit =>
    refine ⟨held, visit, rfl, fun cursors => ?_⟩
    simp only [advance, if_pos (show Beats.le (remaining - elapsed) timing.epsilon = true from h)]

end Track

namespace Visit

open Cursors

variable {β : Type} [Beats β] {timing : ChordTiming β}

theorem replies_nil (p : Progress β) : replies timing p [] = [] := by
  rcases p with _ | ⟨step, v⟩ <;> rfl

theorem merge_eq_some {spans : List Span} {tracks : List (Track β)} {step : Step β} {v : Visit β}
    (h : merge timing spans tracks = some (step, v)) : v = chord spans step.duration tracks := by
  simp only [merge] at h
  split at h
  · cases h
  · obtain ⟨rfl, rfl⟩ := Prod.mk.inj (Option.some.inj h)
    rfl

/-- In the rounds of a chord, a track gets pulls that do not disturb it, and it holds each step that
it gets until it gets the next one. -/
theorem rounds_at {ids : List Nat} {spans : List Span} {tracks : List (Track β)} {ts : List Tree}
    {place : Nat} {t : Tree} {track : Track β} {cursors own : Cursors} {pulls : List Pull}
    (hinside : Inside tracks ts) (hnodup : (Tree.idsAll ts).Nodup) (hids : t.ids ⊆ ids)
    (ht : ts[place]? = some t) (htrack : tracks[place]? = some track)
    (hown : AgreeOn t.ids own cursors)
    (h : Undisturbed timing ids (merge timing spans tracks, cursors) pulls) :
    let later := rounds timing spans tracks pulls
    Undisturbed timing t.ids (track.progress, own) (later.filterMap (Round.pullAt place)) ∧
      Stutters (track.held? :: later.map (Round.heldAt place))
        (track.held? :: (replies timing track.progress (later.filterMap (Round.pullAt place))).map
          fun reply => reply.1.map Prod.fst) := by
  induction pulls generalizing tracks track cursors own with
  | nil =>
    simp only [rounds, List.filterMap_nil, replies_nil]
    exact ⟨trivial, Stutters.nil.cons _⟩
  | cons pull pulls ih =>
    rcases hmerge : merge timing spans tracks with _ | ⟨step, v⟩
    · rw [hmerge] at h
      exact h.elim
    · rw [hmerge] at h
      obtain ⟨hagree, hrest⟩ := h
      rw [merge_eq_some hmerge, next_chord] at hrest
      obtain ⟨between, hpull, hmoved, hbefore, hafter⟩ :=
        advanceAll_at timing pull.env step.duration pull.cursors hinside hnodup ht htrack
      have hown' : AgreeOn t.ids own between := (hown.trans (hagree.mono hids)).trans hbefore
      have hinside' := inside_advanceAll timing pull.env step.duration pull.cursors hinside
      simp only [rounds, hmerge, List.map_cons, List.filterMap_cons, Round.pullAt, Round.heldAt,
        hpull, hmoved, Option.bind_some, Option.join_some]
      cases hdue : track.isDue timing step.duration with
      | false =>
        -- The track goes on with its step, so the round repeats it.
        obtain ⟨hprogress, hcursors⟩ := Track.advance_of_not_due pull.env hdue between
        rw [hcursors] at hafter
        obtain ⟨hpulls, hheld⟩ := ih hinside' hmoved (hown'.trans hafter) hrest
        rw [Track.held?_eq_progress, hprogress, ← Track.held?_eq_progress] at hheld
        rw [hprogress] at hpulls
        rw [Track.held?_eq_progress (track.advance timing pull.env step.duration between).1,
          hprogress, ← Track.held?_eq_progress]
        exact ⟨hpulls, hheld.again⟩
      | true =>
        obtain ⟨held, visit, hprogress, hadvance⟩ := Track.advance_of_due pull.env hdue
        rw [hadvance] at hafter hmoved
        obtain ⟨hpulls, hheld⟩ := ih hinside' hmoved hafter hrest
        rw [Track.progress_ofProgress] at hpulls hheld
        rw [Track.held?_eq_progress, Track.progress_ofProgress] at hheld
        rw [hprogress, hadvance, Track.held?_eq_progress (Track.ofProgress _),
          Track.progress_ofProgress]
        exact ⟨⟨hown', hpulls⟩, hheld.cons _⟩

end Visit

/-! ## The activations of a performance -/

namespace Activation

open Cursors Visit

variable {β : Type} [Beats β] {timing : ChordTiming β}

theorem nodup_of_mem {t : Tree} {ts : List Tree} (h : (Tree.idsAll ts).Nodup) (ht : t ∈ ts) :
    t.ids.Nodup := by
  obtain ⟨before, after, rfl⟩ := List.append_of_mem ht
  rw [Tree.idsAll_append, Tree.idsAll] at h
  exact (List.nodup_append.1 (List.nodup_append.1 h).2.1).1

/-- In a chord that is not disturbed, neither are the activations of its children, and each track
holds the steps of its child one after another. -/
theorem onTrack_undisturbed {a : Activation β} {id place : Nat} {ts : List Tree} {tag : Tag}
    {t : Tree} (h : a.Undisturbed timing) (ha : a.tree = .group id .chord ts tag)
    (ht : ts[place]? = some t) :
    ∃ own, (Tree.entries timing a.entry.env a.duration (tag.innerGain a.gain) a.entry.cursors
        ts)[place]? = some ⟨a.entry.env, own⟩ ∧
      AgreeOn t.ids a.entry.cursors own ∧
      (a.onTrack timing place t tag ⟨a.entry.env, own⟩).Undisturbed timing ∧
      Stutters ((a.rounds timing).map (Round.heldAt place))
        (((a.onTrack timing place t tag ⟨a.entry.env, own⟩).replies timing).map
          fun reply => reply.1.map Prod.fst) := by
  obtain ⟨tree, duration, gain, entry, later⟩ := a
  obtain rfl : tree = .group id .chord ts tag := ha
  obtain ⟨hnodup, hpulls⟩ := h
  have hmem := List.mem_of_getElem? ht
  obtain ⟨u, us, rfl⟩ := List.exists_cons_of_ne_nil (List.ne_nil_of_mem hmem)
  have hall := (List.nodup_append.1 hnodup).1
  have hsub := List.subset_append_of_subset_left [id] (Tree.ids_subset_idsAll hmem)
  rw [first, start_chord] at hpulls
  obtain ⟨own, hentry, htrack, hbefore, hafter⟩ :=
    startAll_at timing entry.env duration (tag.innerGain gain) entry.cursors hall ht
  have hinside := inside_startAll timing entry.env duration (tag.innerGain gain) entry.cursors
    (u :: us)
  obtain ⟨hown, hheld⟩ := rounds_at hinside hall hsub ht htrack hafter hpulls
  rw [Track.progress_ofProgress] at hown hheld
  refine ⟨own, hentry, hbefore, ⟨nodup_of_mem hall hmem, hown⟩, ?_⟩
  rw [Track.held?_eq_progress, Track.progress_ofProgress] at hheld
  simp only [rounds, List.map_cons, Round.heldAt, htrack, Option.bind_some]
  rw [Track.held?_eq_progress, Track.progress_ofProgress]
  exact hheld

/-- What an activation that is not disturbed is made up of is not disturbed either. -/
theorem Part.undisturbed {a b : Activation β} (hpart : Part timing a b)
    (h : a.Undisturbed timing) : b.Undisturbed timing := by
  obtain ⟨hnodup, hpulls⟩ := h
  cases hpart with
  | inside =>
    rw [first, start_modified] at hpulls
    exact ⟨(List.nodup_append.1 hnodup).1, hpulls.of_surround.mono (List.subset_append_left _ _)⟩
  | branch hbranch =>
    have hmem := List.mem_of_getElem? hbranch
    simp only [first, start_cycle, startNth_eq, hbranch] at hpulls
    refine ⟨nodup_of_mem (List.nodup_append.1 hnodup).1 hmem, hpulls.of_surround.mono ?_⟩
    exact List.subset_append_of_subset_left _ (Tree.ids_subset_idsAll hmem)
  | element hmem =>
    rw [first, start_sequence] at hpulls
    obtain ⟨hmem, hpulls⟩ := undisturbed_elements hpulls hmem
    refine ⟨nodup_of_mem (List.nodup_append.1 hnodup).1 hmem, hpulls.mono ?_⟩
    exact List.subset_append_of_subset_left _ (Tree.ids_subset_idsAll hmem)
  | track ht hown =>
    obtain ⟨own, hentry, -, hundisturbed, -⟩ := onTrack_undisturbed ⟨hnodup, hpulls⟩ rfl ht
    obtain rfl := Option.some.inj (hown.symm.trans hentry)
    exact hundisturbed

end Activation

namespace Player

open Cursors Visit

variable {β : Type} [Beats β] {timing : ChordTiming β} {envs : Nat → Env} {p : Player β}

theorem tree_after (n : Nat) : (p.after timing envs n).score.tree = p.score.tree := by
  induction n with
  | zero => rfl
  | succ n ih => exact (tree_next timing _ _).trans ih

/-- When the root is entered and gives a step, the player hands it out. -/
theorem next_of_enters {n : Nat} {cursors after : Cursors} {step : Step β} {v : Visit β}
    (henters : p.Enters timing envs n cursors)
    (hstart : start timing (envs n) (Beats.ofNat 1) 1 cursors p.score.tree =
      (some (step, v), after)) :
    (p.after timing envs n).next timing (envs n) = (step, ⟨⟨p.score.tree, after⟩, some v⟩) := by
  have htree : (p.after timing envs n).score.tree = p.score.tree := tree_after n
  rcases henters with ⟨hvisit, rfl⟩ | ⟨q, hattempt, rfl⟩
  · rw [← htree] at hstart ⊢
    exact next_of_start timing hvisit hstart
  · rw [← htree, ← tree_of_attempt timing hattempt] at hstart ⊢
    exact next_of_attempt_none timing hattempt hstart

/-- After `n` pulls, the player is where some progress of the root has left it. -/
def IsAfter (timing : ChordTiming β) (envs : Nat → Env) (p : Player β) (n : Nat)
    (result : Progress β × Cursors) : Prop :=
  ∀ step v, result.1 = some (step, v) →
    p.after timing envs n = ⟨⟨p.score.tree, result.2⟩, some v⟩

theorem isAfter_of_enters {n : Nat} {cursors : Cursors} (henters : p.Enters timing envs n cursors) :
    p.IsAfter timing envs (n + 1)
      (start timing (envs n) (Beats.ofNat 1) 1 cursors p.score.tree) := by
  intro step v hstart
  rw [Player.after, next_of_enters henters (Prod.ext hstart rfl)]

/-- As long as the visit of the root goes on, the player hands out its steps. -/
theorem IsAfter.next_eq {n : Nat} {held step : Step β} {v v' : Visit β} {cursors cursors' : Cursors}
    (h : p.IsAfter timing envs n (some (held, v), cursors))
    (hnext : v.next timing (envs n) cursors = (some (step, v'), cursors')) :
    (p.after timing envs n).next timing (envs n) = (step, ⟨⟨p.score.tree, cursors'⟩, some v'⟩) := by
  rw [h held v rfl]
  exact next_of_next timing rfl hnext

theorem IsAfter.succ {n : Nat} {held : Step β} {v : Visit β} {cursors : Cursors}
    (h : p.IsAfter timing envs n (some (held, v), cursors)) :
    p.IsAfter timing envs (n + 1) (v.next timing (envs n) cursors) := by
  intro step v' hnext
  rw [Player.after, h.next_eq (Prod.ext hnext rfl)]

/-- The activation of the root gets its pulls on the cursors that it has left. -/
theorem IsAfter.undisturbed (ids : List Nat) {count n : Nat} {result : Progress β × Cursors}
    (h : p.IsAfter timing envs n result)
    (hgoing : (replies timing result.1 ((List.range' n count).map fun k =>
      ⟨envs k, (p.after timing envs k).score.cursors⟩)).length = count) :
    Visit.Undisturbed timing ids result ((List.range' n count).map fun k =>
      ⟨envs k, (p.after timing envs k).score.cursors⟩) := by
  induction count generalizing n result with
  | zero => trivial
  | succ count ih =>
    rw [List.range'_succ, List.map_cons] at hgoing ⊢
    obtain ⟨_ | ⟨step, v⟩, cursors⟩ := result
    · cases hgoing
    · rw [h step v rfl] at hgoing ⊢
      exact ⟨AgreeOn.refl _ _, ih h.succ (Nat.succ.inj hgoing)⟩

theorem IsAfter.next_eq_of_replies {count n k : Nat} {result : Progress β × Cursors}
    {step : Step β} {v : Visit β} {cursors : Cursors} (h : p.IsAfter timing envs n result)
    (hreply : (replies timing result.1 ((List.range' n count).map fun k =>
      ⟨envs k, (p.after timing envs k).score.cursors⟩))[k]? = some (some (step, v), cursors)) :
    (p.after timing envs (n + k)).next timing (envs (n + k)) =
      (step, ⟨⟨p.score.tree, cursors⟩, some v⟩) := by
  induction count generalizing n k result with
  | zero =>
    rw [List.range'_zero, List.map_nil, replies_nil] at hreply
    cases hreply
  | succ count ih =>
    rw [List.range'_succ, List.map_cons] at hreply
    obtain ⟨_ | ⟨held, v'⟩, cursors'⟩ := result
    · cases hreply
    · rw [h held v' rfl] at hreply
      cases k with
      | zero => exact h.next_eq (Option.some.inj hreply)
      | succ k =>
        rw [Nat.add_comm k 1, ← Nat.add_assoc]
        exact ih h.succ hreply

/-- What an activation of the root replies is what the player hands out. -/
theorem next_eq_of_rootActivation {n count k : Nat} {cursors after : Cursors} {step : Step β}
    {v : Visit β} (henters : p.Enters timing envs n cursors)
    (hreply : ((p.rootActivation timing envs n count cursors).replies timing)[k]? =
      some (some (step, v), after)) :
    (p.after timing envs (n + k)).next timing (envs (n + k)) =
      (step, ⟨⟨p.score.tree, after⟩, some v⟩) := by
  cases k with
  | zero => exact next_of_enters henters (Option.some.inj hreply)
  | succ k =>
    rw [Nat.add_comm k 1, ← Nat.add_assoc]
    exact (isAfter_of_enters henters).next_eq_of_replies hreply

/-- In a performance of a score, no activation is disturbed. -/
theorem Activates.undisturbed {a : Activation β} (hnodup : p.score.tree.ids.Nodup)
    (h : p.Activates timing envs a) : a.Undisturbed timing := by
  induction h with
  | root henters hgoing =>
    exact ⟨hnodup, (isAfter_of_enters henters).undisturbed _ (Nat.succ.inj hgoing)⟩
  | part _ hpart ih => exact hpart.undisturbed ih

end Player

end PatternSynth
