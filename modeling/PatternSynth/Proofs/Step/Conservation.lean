import Mathlib.Algebra.Order.Group.MinMax
import PatternSynth.Proofs.Step.Product
import PatternSynth.Proofs.Step.Time

/-!
# Time is neither lost nor gained

Durations are exact numbers here, and chords neither stall nor cut a step short. Entering a node,
and going on with what is left of it, hands out a positive part of the time that is left and keeps
the rest (`Visit.accounts_start`, `Visit.accounts_next`). Each pull also lowers a bound on the number
of steps to come: a chord moves at least the track on whose step was the shortest. So every
activation comes to an end, and its steps add up to the time of its node (`Score.conserves_time`),
however chords nest and however their tracks interleave.
-/

namespace PatternSynth

open Cursors

namespace Beats

theorem foldl_closer_eq_some {found : Option Rat} {xs : List Rat} {x : Rat}
    (h : xs.foldl closer found = some x) :
    x ∈ found.toList ++ xs ∧ ∀ y ∈ found.toList ++ xs, x ≤ y := by
  induction xs generalizing found with
  | nil =>
    obtain rfl : found = some x := h
    simp
  | cons y ys ih =>
    obtain ⟨hmem, hle⟩ := ih h
    rcases found with _ | z
    · exact ⟨hmem, hle⟩
    · have hcloser : closer (some z) y = some (min z y) := by
        by_cases hlt : y < z
        · simp [closer, Beats.lt, hlt, min_eq_right hlt.le]
        · simp [closer, Beats.lt, hlt, min_eq_left (not_lt.1 hlt)]
      simp only [hcloser, Option.toList_some, List.singleton_append, List.mem_cons,
        forall_eq_or_imp, le_min_iff] at hmem hle ⊢
      refine ⟨?_, hle.1.1, hle.1.2, hle.2⟩
      rcases hmem with rfl | hmem
      · rcases min_choice z y with hmin | hmin
        · exact .inl hmin
        · exact .inr (.inl hmin)
      · exact .inr (.inr hmem)

/-- The smallest of some exact numbers is one of them, and no larger than the others. -/
theorem least_eq_some {xs : List Rat} {x : Rat} (h : least xs = some x) :
    x ∈ xs ∧ ∀ y ∈ xs, x ≤ y :=
  @foldl_closer_eq_some none xs x h

end Beats

namespace Track

theorem AllInTime.pos : ∀ {tracks : List (Track Rat)}, AllInTime tracks →
    ∀ remaining ∈ tracks.filterMap remaining?, 0 < remaining
  | [], _, _, hmem => (List.not_mem_nil hmem).elim
  | .finished :: _, ⟨_, _, hts⟩, remaining, hmem => hts.pos remaining hmem
  | .sounding .. :: _, ⟨⟨hfirst, _⟩, _, hts⟩, remaining, hmem => by
    rcases List.mem_cons.1 hmem with rfl | hmem
    · exact hfirst
    · exact hts.pos remaining hmem

theorem longest_of_finished (env : Env) (cursors : Cursors) :
    ∀ {tracks : List (Track Rat)}, tracks.filterMap remaining? = [] →
      longest env cursors tracks = 0
  | [], _ => rfl
  | .finished :: ts, h => by
    have hlongest : longest env cursors ts = 0 := longest_of_finished env cursors h
    rw [longest, hlongest, left, max_self]
  | .sounding .. :: _, h => by cases h

end Track

namespace Visit

/-- Some progress accounts for a time: the step and what is left after it add up to it, and fewer
steps than `bound` are left. No step accounts for no time. -/
def Accounts (env : Env) (total : Rat) (bound : Nat) : Progress Rat × Cursors → Prop
  | (none, _) => total = 0
  | (some (s, v), cursors) =>
    0 < s.duration ∧ s.duration + v.left env cursors = total ∧ v.weight < bound ∧ v.InTime

section Rules

variable {env : Env} {total : Rat} {bound : Nat} {result : Progress Rat × Cursors}

theorem Accounts.mono (h : Accounts env total bound result) {bound' : Nat} (hle : bound ≤ bound') :
    Accounts env total bound' result := by
  obtain ⟨_ | ⟨s, v⟩, cursors⟩ := result
  · exact h
  · obtain ⟨hpos, htotal, hweight, hv⟩ := h
    exact ⟨hpos, htotal, hweight.trans_le hle, hv⟩

theorem Accounts.surround (h : Accounts env total bound result) (spans : List Span) :
    Accounts env total bound (surround spans result.1, result.2) := by
  obtain ⟨_ | ⟨s, v⟩, cursors⟩ := result <;> exact h

variable {timing : ChordTiming Rat}

/-- A sequence accounts for what is left of its present child and for the children still to come. -/
theorem Accounts.proceed (h : Accounts env total bound result) {duration : Rat} {gain : Float}
    {spans : List Span} {rest : List Tree} (hduration : 0 < duration)
    (hnodup : (Tree.idsAll rest).Nodup)
    (hdisjoint : List.Disjoint (idsAfter result.1) (Tree.idsAll rest))
    (hrest : Accounts env (Tree.timeAll env result.2 duration rest) (Tree.idsAll rest).length
      (startFirst timing env spans duration gain result.2 rest)) :
    Accounts env (total + Tree.timeAll env result.2 duration rest)
      (bound + (Tree.idsAll rest).length)
      (proceed timing env duration gain spans rest result.1 result.2) := by
  obtain ⟨_ | ⟨s, v⟩, cursors⟩ := result
  · obtain rfl : total = 0 := h
    rw [zero_add]
    exact hrest.mono (Nat.le_add_left _ _)
  · obtain ⟨hpos, htotal, hweight, hv⟩ := h
    refine ⟨hpos, ?_, Nat.add_lt_add_right hweight _, hduration, hnodup, hdisjoint, hv⟩
    rw [← htotal, add_assoc]
    rfl

/-- A chord accounts for the time of its longest track. -/
theorem accounts_merge (hstall : timing.stall = 0) (spans : List Span) (cursors : Cursors)
    {tracks : List (Track Rat)} (h : Track.AllInTime tracks)
    (hbound : Track.weightAll tracks < bound) :
    Accounts env (Track.longest env cursors tracks) bound (merge timing spans tracks, cursors) := by
  rw [merge]
  split
  · rename_i hleast
    have hnone := (Beats.least_eq_none _).1 hleast
    refine Track.longest_of_finished env cursors (List.eq_nil_iff_forall_not_mem.2 ?_)
    intro remaining hmem
    cases hnone remaining hmem
  · rename_i shortest hleast
    obtain ⟨hmem, hle⟩ := Beats.least_eq_some hleast
    have hpos : 0 < shortest := h.pos shortest hmem
    have hsize : Beats.le timing.stall shortest = true := by
      rw [hstall]
      exact decide_eq_true hpos.le
    simp only [hsize, if_true]
    exact ⟨hpos, add_sub_cancel _ _, hbound, hmem, hle, h⟩

/-- A chord puts what a child has made of its activation on a track. -/
theorem Accounts.onTrack (h : Accounts env total bound result) :
    (Track.ofProgress result.1).InTime ∧ (Track.ofProgress result.1).left env result.2 = total ∧
      (Track.ofProgress result.1).weight ≤ bound := by
  obtain ⟨_ | ⟨s, v⟩, cursors⟩ := result
  · exact ⟨trivial, h.symm, Nat.zero_le _⟩
  · obtain ⟨hpos, htotal, hweight, hv⟩ := h
    exact ⟨⟨hpos, hv⟩, htotal, hweight⟩

end Rules

section Start

variable {timing : ChordTiming Rat} (env : Env)

mutual

/-- An activation accounts for the time of its node. -/
theorem accounts_start (hstall : timing.stall = 0) (gain : Float) (cursors : Cursors)
    {duration : Rat} (hduration : 0 < duration) : ∀ t : Tree, t.ids.Nodup →
      Accounts env (t.time env cursors duration) t.ids.length
        (start timing env duration gain cursors t)
  | .leaf .., _ => ⟨hduration, add_zero _, Nat.one_pos, trivial⟩
  | .group _ _ [] _, _ => ⟨hduration, add_zero _, Nat.one_pos, trivial⟩
  | .group _ .sequence (t :: ts) tag, hnodup => by
    have hshare : 0 < duration / ((t :: ts).length : Rat) :=
      div_pos hduration (Nat.cast_pos.2 (Nat.succ_pos _))
    have hfirst := accounts_startFirst hstall tag.spans (tag.innerGain gain) cursors hshare
      (t :: ts) (List.nodup_append.1 hnodup).1
    exact hfirst.mono ((List.sublist_append_left _ _).length_le)
  | .group id .cycle (t :: ts) tag, hnodup => by
    obtain ⟨hchildren, -, hapart⟩ := List.nodup_append'.1 hnodup
    have hbranch := accounts_startNth hstall (tag.innerGain gain)
      (cursors.turn id (t :: ts).length).2 hduration (t :: ts)
      (cursors.turn id (t :: ts).length).1 hchildren
    have hagree := (local_turn id (t :: ts).length).agreeOn_of_disjoint hapart cursors
    rw [Tree.timeNth_congr env duration (t :: ts) _ hagree] at hbranch
    exact (hbranch.surround tag.spans).mono ((List.sublist_append_left _ _).length_le)
  | .group id .chord (t :: ts) tag, hnodup => by
    obtain ⟨htracks, hlongest, hweight⟩ := inTime_startAll hstall (tag.innerGain gain) cursors
      hduration (t :: ts) (List.nodup_append.1 hnodup).1
    rw [Tree.time, ← hlongest, start_chord]
    refine accounts_merge hstall tag.spans _ htracks (Nat.lt_of_le_of_lt hweight ?_)
    rw [Tree.ids, List.length_append]
    exact Nat.lt_succ_self _
  | .modified _ kind amount inner tag, hnodup => by
    rw [start_modified]
    have hinner := accounts_start hstall
      (kind.innerGain (amount.resolve env).toNumber (tag.innerGain gain)) cursors
      (kind.innerDuration_pos (amount.resolve env).toNumber hduration) inner
      (List.nodup_append.1 hnodup).1
    exact (hinner.surround tag.spans).mono ((List.sublist_append_left _ _).length_le)

theorem accounts_startFirst (hstall : timing.stall = 0) (spans : List Span) (gain : Float)
    (cursors : Cursors) {duration : Rat} (hduration : 0 < duration) :
    ∀ ts : List Tree, (Tree.idsAll ts).Nodup →
      Accounts env (Tree.timeAll env cursors duration ts) (Tree.idsAll ts).length
        (startFirst timing env spans duration gain cursors ts)
  | [], _ => rfl
  | t :: ts, hnodup => by
    obtain ⟨hfirst, hothers, hapart⟩ := List.nodup_append'.1 hnodup
    have hagree := (local_start timing env duration gain t).agreeOn_of_disjoint
      (fun i hi hmem => hapart hmem hi) cursors
    have hids := ids_start timing env duration gain cursors t
    have haccounts := (accounts_start hstall gain cursors hduration t hfirst).proceed hduration
      hothers (List.disjoint_of_subset_left hids hapart)
      (accounts_startFirst hstall spans gain _ hduration ts hothers)
    rw [Tree.timeAll_congr env duration ts hagree, ← startFirst_cons] at haccounts
    rwa [Tree.timeAll, Tree.idsAll, List.length_append]

theorem accounts_startNth (hstall : timing.stall = 0) (gain : Float) (cursors : Cursors)
    {duration : Rat} (hduration : 0 < duration) :
    ∀ (ts : List Tree) (index : Nat), (Tree.idsAll ts).Nodup →
      Accounts env (Tree.timeNth env cursors duration ts index) (Tree.idsAll ts).length
        (startNth timing env duration gain cursors ts index)
  | [], _, _ => rfl
  | t :: _, 0, hnodup =>
    (accounts_start hstall gain cursors hduration t (List.nodup_append.1 hnodup).1).mono
      ((List.sublist_append_left _ _).length_le)
  | _ :: ts, index + 1, hnodup =>
    (accounts_startNth hstall gain cursors hduration ts index (List.nodup_append.1 hnodup).2.1).mono
      ((List.sublist_append_right _ _).length_le)

theorem inTime_startAll (hstall : timing.stall = 0) (gain : Float) (cursors : Cursors)
    {duration : Rat} (hduration : 0 < duration) : ∀ ts : List Tree, (Tree.idsAll ts).Nodup →
      Track.AllInTime (startAll timing env duration gain cursors ts).1 ∧
        Track.longest env (startAll timing env duration gain cursors ts).2
            (startAll timing env duration gain cursors ts).1 =
          Tree.longest env cursors duration ts ∧
        Track.weightAll (startAll timing env duration gain cursors ts).1 ≤
          (Tree.idsAll ts).length
  | [], _ => ⟨trivial, rfl, le_rfl⟩
  | t :: ts, hnodup => by
    obtain ⟨hfirst, hothers, hapart⟩ := List.nodup_append'.1 hnodup
    obtain ⟨htrack, hleft, hweight⟩ :=
      (accounts_start hstall gain cursors hduration t hfirst).onTrack
    obtain ⟨htracks, hlongest, hweights⟩ := inTime_startAll hstall gain
      (start timing env duration gain cursors t).2 hduration ts hothers
    have hids : (Track.ofProgress (start timing env duration gain cursors t).1).ids ⊆ t.ids := by
      rw [Track.ids_ofProgress]
      exact ids_start timing env duration gain cursors t
    have hinside := (inside_startAll timing env duration gain
      (start timing env duration gain cursors t).2 ts).idsAll_subset
    -- Entering the other children leaves the first track as it is, and the other way round.
    have hkept := (local_startAll timing env duration gain ts).agreeOn_of_disjoint
      (fun i hi => hapart (hids hi)) (start timing env duration gain cursors t).2
    have hagree := (local_start timing env duration gain t).agreeOn_of_disjoint
      (fun i hi hmem => hapart hmem hi) cursors
    rw [startAll_cons]
    have hdisjoint : List.Disjoint _ (Track.idsAll _) :=
      List.disjoint_of_subset_left hids (List.disjoint_of_subset_right hinside hapart)
    refine ⟨⟨htrack, hdisjoint, htracks⟩, ?_, ?_⟩
    · rw [Track.longest, Track.left_congr env _ hkept, hleft, hlongest, Tree.longest,
        Tree.longest_congr env duration ts hagree]
    · rw [Track.weightAll, Tree.idsAll, List.length_append]
      exact Nat.add_le_add hweight hweights

end

end Start

section Next

variable {timing : ChordTiming Rat} (env : Env)

mutual

/-- What is left of an activation accounts for the time that is left. -/
theorem accounts_next (hstall : timing.stall = 0) (hepsilon : timing.epsilon = 0)
    (cursors : Cursors) : ∀ v : Visit Rat, v.InTime →
      Accounts env (v.left env cursors) v.weight (next timing env cursors v)
  | done, _ => rfl
  | within spans inner, h => (accounts_next hstall hepsilon cursors inner h).surround spans
  | sequence spans gain duration rest current, ⟨hduration, hnodup, hapart, hcurrent⟩ => by
    have hagree := (local_next timing env current).agreeOn_of_disjoint
      (fun i hi hmem => hapart hmem hi) cursors
    have hids := ids_next timing env cursors current
    have haccounts := (accounts_next hstall hepsilon cursors current hcurrent).proceed hduration
      hnodup (List.disjoint_of_subset_left hids hapart)
      (accounts_startFirst env hstall spans gain _ hduration rest hnodup)
    rwa [Tree.timeAll_congr env duration rest hagree, ← next_sequence] at haccounts
  | chord spans elapsed tracks, ⟨hmem, hle, htracks⟩ => by
    obtain ⟨hafter, hlongest, -, hweight⟩ := inTime_advanceAll hstall hepsilon cursors tracks
      htracks (htracks.pos elapsed hmem).le hle
    have hbound := Track.le_longest env cursors tracks htracks elapsed hmem
    rw [max_eq_right (sub_nonneg.2 hbound)] at hlongest
    rw [next_chord, left, ← hlongest]
    exact accounts_merge hstall spans _ hafter (hweight hmem)

/-- When time passes on a track, so much less is left on it, and never less than nothing. -/
theorem inTime_advance (hstall : timing.stall = 0) (hepsilon : timing.epsilon = 0)
    (cursors : Cursors) {elapsed : Rat} : ∀ t : Track Rat, t.InTime → 0 ≤ elapsed →
      (∀ remaining, t.remaining? = some remaining → elapsed ≤ remaining) →
      (t.advance timing env elapsed cursors).1.InTime ∧
        (t.advance timing env elapsed cursors).1.left env
            (t.advance timing env elapsed cursors).2 = max 0 (t.left env cursors - elapsed) ∧
        (t.advance timing env elapsed cursors).1.weight ≤ t.weight ∧
        (t.remaining? = some elapsed →
          (t.advance timing env elapsed cursors).1.weight < t.weight)
  | .finished, _, helapsed, _ => by
    refine ⟨trivial, ?_, le_rfl, fun h => by cases h⟩
    rw [Track.left, max_eq_left (sub_nonpos.2 helapsed)]
    rfl
  | .sounding held remaining visit, ⟨hpos, hvisit⟩, helapsed, hle => by
    have hleft := left_nonneg env cursors visit hvisit
    have hremaining := hle remaining rfl
    have hdue : Beats.le (remaining - elapsed) timing.epsilon = decide (remaining ≤ elapsed) := by
      rw [hepsilon]
      exact decide_eq_decide.2 sub_nonpos
    by_cases hover : remaining ≤ elapsed
    · obtain rfl := le_antisymm hover hremaining
      obtain ⟨htrack, htotal, hweight⟩ :=
        (accounts_next hstall hepsilon cursors visit hvisit).onTrack
      simp only [Track.advance, hdue, le_refl, decide_true, if_true]
      refine ⟨htrack, ?_, hweight.trans (Nat.le_succ _), fun _ => Nat.lt_succ_of_le hweight⟩
      rw [htotal, Track.left, add_sub_cancel_left, max_eq_right hleft]
    · simp only [Track.advance, hdue, hover, decide_false, Bool.false_eq_true, if_false]
      have hrest : 0 < remaining - elapsed := sub_pos.2 (not_le.1 hover)
      refine ⟨⟨hrest, hvisit⟩, ?_, le_rfl, fun h => (hover (Option.some.inj h).le).elim⟩
      rw [Track.left, Track.left, add_sub_right_comm,
        max_eq_right (add_nonneg hrest.le hleft)]

/-- When time passes on all tracks, so much less is left on the longest one. A track whose step is
over moves on. -/
theorem inTime_advanceAll (hstall : timing.stall = 0) (hepsilon : timing.epsilon = 0)
    (cursors : Cursors) {elapsed : Rat} : ∀ ts : List (Track Rat), Track.AllInTime ts →
      0 ≤ elapsed → (∀ remaining ∈ ts.filterMap Track.remaining?, elapsed ≤ remaining) →
      Track.AllInTime (advanceAll timing env elapsed cursors ts).1 ∧
        Track.longest env (advanceAll timing env elapsed cursors ts).2
            (advanceAll timing env elapsed cursors ts).1 =
          max 0 (Track.longest env cursors ts - elapsed) ∧
        Track.weightAll (advanceAll timing env elapsed cursors ts).1 ≤ Track.weightAll ts ∧
        (elapsed ∈ ts.filterMap Track.remaining? →
          Track.weightAll (advanceAll timing env elapsed cursors ts).1 < Track.weightAll ts)
  | [], _, helapsed, _ => by
    refine ⟨trivial, ?_, le_rfl, fun h => (List.not_mem_nil h).elim⟩
    rw [Track.longest, max_eq_left (sub_nonpos.2 helapsed)]
    rfl
  | t :: ts, ⟨ht, hapart, hts⟩, helapsed, hle => by
    have hmem : ∀ {remaining}, remaining ∈ (t :: ts).filterMap Track.remaining? ↔
        t.remaining? = some remaining ∨ remaining ∈ ts.filterMap Track.remaining? := by
      simp [List.mem_filterMap]
    obtain ⟨htrack, hleft, hweight, hlighter⟩ := inTime_advance hstall hepsilon cursors t ht
      helapsed fun remaining h => hle remaining (hmem.2 (.inl h))
    obtain ⟨htracks, hlongest, hweights, hlighters⟩ := inTime_advanceAll hstall hepsilon
      (t.advance timing env elapsed cursors).2 ts hts helapsed
      fun remaining h => hle remaining (hmem.2 (.inr h))
    have hids := ids_advance timing env elapsed cursors t
    have hidss := ids_advanceAll timing env elapsed (t.advance timing env elapsed cursors).2 ts
    have hkept := (local_advanceAll timing env elapsed ts).agreeOn_of_disjoint
      (fun i hi => hapart (hids hi)) (t.advance timing env elapsed cursors).2
    have hagree := (local_advance timing env elapsed t).agreeOn_of_disjoint
      (fun i hi hmem => hapart hmem hi) cursors
    have hdisjoint : List.Disjoint _ (Track.idsAll _) :=
      List.disjoint_of_subset_left hids (List.disjoint_of_subset_right hidss hapart)
    rw [Track.advanceAll_cons]
    refine ⟨⟨htrack, hdisjoint, htracks⟩, ?_, Nat.add_le_add hweight hweights, fun h => ?_⟩
    · rw [Track.longest, Track.left_congr env _ hkept, hleft, hlongest, Track.longest,
        Track.longest_congr env ts hagree, max_max_max_comm, max_self, max_sub_sub_right]
    · rcases hmem.1 h with h | h
      · exact Nat.add_lt_add_of_lt_of_le (hlighter h) hweights
      · exact Nat.add_lt_add_of_le_of_lt hweight (hlighters h)

end

end Next

section Run

variable {timing : ChordTiming Rat} {env : Env}

/-- An activation comes to an end, and its steps add up to the time that it accounts for. -/
theorem Accounts.exists_yields (hstall : timing.stall = 0) (hepsilon : timing.epsilon = 0)
    {total : Rat} {bound : Nat} {result : Progress Rat × Cursors}
    (h : Accounts env total bound result) :
    ∃ steps after, Yields timing env result steps after ∧ (∀ s ∈ steps, 0 < s.duration) ∧
      (steps.map Step.duration).sum = total := by
  induction bound using Nat.strong_induction_on generalizing total result with
  | _ bound ih =>
    obtain ⟨_ | ⟨s, v⟩, cursors⟩ := result
    · exact ⟨[], cursors, .ended cursors, by simp, h.symm⟩
    · obtain ⟨hpos, htotal, hweight, hv⟩ := h
      obtain ⟨steps, after, hyields, hsteps, hsum⟩ :=
        ih v.weight hweight (accounts_next env hstall hepsilon cursors v hv)
      refine ⟨s :: steps, after, .step hyields, List.forall_mem_cons.2 ⟨hpos, hsteps⟩, ?_⟩
      rw [List.map_cons, List.sum_cons, hsum, htotal]

end Run

end Visit

namespace Score

open Visit

variable {timing : ChordTiming Rat}

/-- One pass after another, each with its steps. -/
theorem exists_passes (hstall : timing.stall = 0) (hepsilon : timing.epsilon = 0) (env : Env)
    (score : Score) (hnodup : score.tree.ids.Nodup) :
    ∃ cursors pass, Passes timing env score cursors pass ∧
      ∀ k, ((pass k).map Step.duration).sum = score.tree.time env (cursors k) 1 := by
  have hpass (c : Cursors) := (accounts_start env hstall 1 c zero_lt_one score.tree
    hnodup).exists_yields hstall hepsilon
  choose steps after hyields _ hsum using hpass
  refine ⟨fun k => after^[k] score.cursors, fun k => steps (after^[k] score.cursors), ⟨rfl, ?_, ?_⟩,
    fun k => hsum _⟩
  · intro k
    rw [Function.iterate_succ_apply']
    exact hyields _
  · intro k hnil
    have htime := hsum (after^[k] score.cursors)
    rw [hnil] at htime
    exact (Tree.time_pos env _ zero_lt_one score.tree).ne htime

/-- The steps of an activation of a node are positive and add up to the time of the node. The steps
of a player are those of its passes, and without modifiers of the speed every pass takes one
beat. -/
theorem conserves_time (p : Pattern) (hstall : timing.stall = 0) (hepsilon : timing.epsilon = 0)
    (env : Env) :
    (∀ t ∈ (ofPattern p).tree.nodes, ∀ (cursors : Cursors) (gain : Float) (duration : Rat),
      0 < duration → ∃ steps after,
        Yields timing env (start timing env duration gain cursors t) steps after ∧
        (∀ s ∈ steps, 0 < s.duration) ∧
        (steps.map Step.duration).sum = t.time env cursors duration) ∧
    ∃ cursors pass, Passes timing env (ofPattern p) cursors pass ∧
      (∀ n count, n ≤ count → Player.steps timing env n (.ofPattern p) =
        ((List.range count).flatMap pass).take n) ∧
      ∀ k, ((pass k).map Step.duration).sum = (ofPattern p).tree.time env (cursors k) 1 ∧
        ((∀ node ∈ (ofPattern p).tree.nodes, node.isSpeed = false) →
          ((pass k).map Step.duration).sum = 1) := by
  have hnodup := Tree.nodup_ids_ofPattern p
  constructor
  · intro t ht cursors gain duration hduration
    have hids : t.ids.Nodup := hnodup.sublist (Tree.ids_sublist ht)
    exact (accounts_start env hstall gain cursors hduration t hids).exists_yields hstall hepsilon
  · obtain ⟨cursors, pass, hpasses, hpass⟩ := exists_passes hstall hepsilon env (ofPattern p) hnodup
    refine ⟨cursors, pass, hpasses, hpasses.steps_eq_take, fun k => ⟨hpass k, fun hspeed => ?_⟩⟩
    rw [hpass k, Tree.time_eq_duration env (cursors k) zero_lt_one _ hspeed]

/-- The pattern `( [ 1 2 3 ] [ 4 5 ] )`, three steps against two. -/
def threeAgainstTwo : Pattern :=
  .collect .chord
    [.collect .sequence [.literal (.number 1) ⟨4, 5⟩, .literal (.number 2) ⟨6, 7⟩,
        .literal (.number 3) ⟨8, 9⟩],
      .collect .sequence [.literal (.number 4) ⟨14, 15⟩, .literal (.number 5) ⟨16, 17⟩]]

/-- Chords that neither stall nor cut a step short. -/
def exactTiming : ChordTiming Rat :=
  ⟨1, 0, 0⟩

theorem conserves_time_threeAgainstTwo :
    exactTiming.stall = 0 ∧ exactTiming.epsilon = 0 ∧
      (∃ steps after, Yields exactTiming .zero
          (start exactTiming .zero 2 1 (ofPattern threeAgainstTwo).cursors
            (ofPattern threeAgainstTwo).tree) steps after ∧
        (∀ s ∈ steps, 0 < s.duration) ∧ (steps.map Step.duration).sum = 2) ∧
      ∃ cursors pass, Passes exactTiming .zero (ofPattern threeAgainstTwo) cursors pass ∧
        Player.steps exactTiming .zero 5 (.ofPattern threeAgainstTwo) =
          ((List.range 5).flatMap pass).take 5 ∧
        ∀ k, ((pass k).map Step.duration).sum = 1 := by
  obtain ⟨hnodes, cursors, pass, hpasses, hsteps, hpass⟩ :=
    @conserves_time exactTiming threeAgainstTwo rfl rfl .zero
  have hroot := hnodes (ofPattern threeAgainstTwo).tree
    (List.mem_append_right _ (List.mem_singleton.2 rfl)) (ofPattern threeAgainstTwo).cursors 1 2
    (by decide)
  have htime : (ofPattern threeAgainstTwo).tree.time .zero (ofPattern threeAgainstTwo).cursors 2 =
      2 := by decide +kernel
  rw [htime] at hroot
  exact ⟨rfl, rfl, hroot, cursors, pass, hpasses, hsteps 5 5 le_rfl,
    fun k => (hpass k).2 (by decide)⟩

example : (Player.steps exactTiming .zero 5 (.ofPattern threeAgainstTwo)).map Step.duration =
    [1 / 3, 1 / 6, 1 / 6, 1 / 3, 1 / 3] := by
  decide +kernel

end Score

end PatternSynth
