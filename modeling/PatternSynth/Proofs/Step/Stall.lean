import PatternSynth.Proofs.Step.Active
import PatternSynth.Proofs.Step.Walk

/-!
# Why a player rests

A node that is entered gives a step at once, with one exception: a chord gives none if no track has
a bounded time left (`Activation.Stalls`). A sequence passes this on from its first child, a cycle
from its branch and a modifier from its inside, so an activation without a first step has a stalled
chord in the course of it (`Activation.exists_stalls`). A player makes two attempts, and the second
one enters the root. Hence its silent beat always has a stalled chord for a reason.
-/

namespace PatternSynth

variable {β : Type} [Beats β]

/-! ## Stalled chords -/

omit [Beats β] in
theorem Visit.surround_eq_none {spans : List Span} {p : Progress β} :
    surround spans p = none ↔ p = none := by
  cases p with
  | none => exact Iff.rfl
  | some => exact iff_of_false (Option.some_ne_none _) (Option.some_ne_none _)

namespace Activation

open Visit Relation

/-- A chord with children of which, when it is asked for the last time, every track is finished or
has no bounded time left. -/
def Stalls (timing : ChordTiming β) (a : Activation β) : Prop :=
  ∃ id t ts tag round, a.tree = .group id .chord (t :: ts) tag ∧
    (a.rounds timing).getLast? = some round ∧
    ∀ track ∈ round.tracks, ∀ r ∈ track.remaining?, Beats.isBounded r = false

variable {timing : ChordTiming β}

/-- A chord that gives no first step has stalled. -/
theorem stalls_of_chord {id : Nat} {t : Tree} {ts : List Tree} {tag : Tag} {duration : β}
    {gain : Float} {entry : Pull} {later : List Pull}
    (h : (first timing ⟨.group id .chord (t :: ts) tag, duration, gain, entry, later⟩).1 = none) :
    Stalls timing ⟨.group id .chord (t :: ts) tag, duration, gain, entry, later⟩ := by
  obtain ⟨tracks, htracks⟩ : ∃ tracks, tracks = (startAll timing entry.env duration
    (tag.innerGain gain) entry.cursors (t :: ts)).1 := ⟨_, rfl⟩
  rw [first, start_chord, ← htracks] at h
  have hmerge : merge timing tag.spans tracks = none := h
  -- The first round is the last one, since the chord is over with it.
  have hover : Visit.rounds timing tag.spans tracks later = [] := by
    cases later with
    | nil => rfl
    | cons pull pulls => rw [Visit.rounds, hmerge]
  obtain ⟨round, hlast, rfl⟩ : ∃ round, (rounds timing ⟨.group id .chord (t :: ts) tag, duration,
      gain, entry, later⟩).getLast? = some round ∧ round.tracks = tracks := by
    simp only [rounds, ← htracks, hover]
    exact ⟨_, rfl, rfl⟩
  refine ⟨id, t, ts, tag, round, rfl, hlast, fun track htrack r hr => ?_⟩
  exact (merge_eq_none _).1 hmerge r (List.mem_filterMap.2 ⟨track, htrack, hr⟩)

/-- A node that gives no first step is a stalled chord, or a child that it enters gives none. -/
theorem stalls_or_part (a : Activation β) (h : (a.first timing).1 = none) :
    a.Stalls timing ∨
      ∃ b, Part timing a b ∧ b.tree ∈ a.tree.children ∧ (b.first timing).1 = none := by
  obtain ⟨tree, duration, gain, entry, later⟩ := a
  match tree with
  | .leaf .. => cases h
  | .group _ _ [] _ => cases h
  | .group id .sequence (t :: ts) tag =>
    refine .inr ⟨_, .element List.mem_cons_self, List.mem_cons_self, ?_⟩
    rw [first, start_sequence, startFirst_cons] at h
    rw [first]
    -- A step of the first child would be passed on.
    rcases hstart : (start timing entry.env (duration / Beats.ofNat (t :: ts).length)
      (tag.innerGain gain) entry.cursors t).1 with _ | ⟨step, v⟩
    · rfl
    · rw [hstart] at h
      cases h
  | .group id .cycle (t :: ts) tag =>
    have hturn : (entry.cursors.turn id (t :: ts).length).1 < (t :: ts).length :=
      Nat.mod_lt _ (Nat.succ_pos _)
    have hbranch := List.getElem?_eq_getElem hturn
    refine .inr ⟨_, .branch hbranch, List.getElem_mem hturn, ?_⟩
    rw [first, start_cycle] at h
    simpa only [first, startNth_eq, hbranch] using surround_eq_none.1 h
  | .group id .chord (t :: ts) tag => exact .inl (stalls_of_chord h)
  | .modified id kind amount inner tag =>
    refine .inr ⟨_, .inside, List.mem_singleton.2 rfl, ?_⟩
    rw [first, start_modified] at h
    exact surround_eq_none.1 h

/-- An activation that gives no first step has a stalled chord in the course of it. -/
theorem exists_stalls (a : Activation β) (h : (a.first timing).1 = none) :
    ∃ b, ReflTransGen (Part timing) a b ∧ b.Stalls timing := by
  rcases a.stalls_or_part h with hstalls | ⟨b, hpart, hchild, hb⟩
  · exact ⟨a, .refl, hstalls⟩
  · have := Tree.sizeOf_lt_of_mem_children hchild
    obtain ⟨c, hc, hstalls⟩ := exists_stalls b hb
    exact ⟨c, .head hpart hc, hstalls⟩
termination_by sizeOf a.tree

end Activation

/-! ## Trees without chords -/

namespace Tree

theorem isChordFree_of_mem_children {t u : Tree} (h : t ∈ u.children)
    (hu : u.isChordFree = true) : t.isChordFree = true := by
  have hall : ∀ {ts : List Tree}, areChordFree ts = true → t ∈ ts → t.isChordFree = true := by
    intro ts hts hmem
    induction ts with
    | nil => cases hmem
    | cons u ts ih =>
      obtain ⟨hu, hts⟩ := areChordFree_cons.1 hts
      rcases List.mem_cons.1 hmem with rfl | hmem
      · exact hu
      · exact ih hts hmem
  cases u with
  | leaf => cases h
  | group id kind children tag =>
    rw [isChordFree, Bool.and_eq_true] at hu
    exact hall hu.2 h
  | modified id kind amount inner tag =>
    obtain rfl := List.mem_singleton.1 h
    exact hu

theorem isChordFree_of_mem_nodes {t u : Tree} (h : t ∈ u.nodes) (hu : u.isChordFree = true) :
    t.isChordFree = true := by
  rcases eq_or_mem_child h with rfl | ⟨c, hc, ht⟩
  · exact hu
  · have := sizeOf_lt_of_mem_children hc
    exact isChordFree_of_mem_nodes ht (isChordFree_of_mem_children hc hu)
termination_by sizeOf u

end Tree

theorem Visit.isSome_start {timing : ChordTiming β} {env : Env} {duration : β} {gain : Float}
    {cursors : Cursors} {t : Tree} (ht : t.isChordFree = true) :
    (start timing env duration gain cursors t).1.isSome = true := by
  obtain ⟨step, v, after, hstart, -⟩ := start_proceeds timing env duration gain cursors t ht
  rw [hstart]
  rfl

/-! ## The attempts of a player -/

namespace Player

open Visit Relation

variable (timing : ChordTiming β) (env : Env) (p : Player β)

/-- The activation of the root that is entered on the present cursors, for one step only. -/
def root : Activation β :=
  ⟨p.score.tree, Beats.ofNat 1, 1, ⟨env, p.score.cursors⟩, []⟩

/-- The activations of the root that are entered for one step, in their order. An attempt enters the
root if no activation is going on, and a second attempt follows one that gives no step. -/
def entered : List (Activation β) :=
  match p.visit, p.attempt timing env with
  | none, (some _, _) => [p.root env]
  | none, (none, q) => [p.root env, q.root env]
  | some _, (some _, _) => []
  | some _, (none, q) => [q.root env]

/-- The steps to choose from: what is left of the present activation gives one or none, and so does
each activation of the root that is entered. -/
def offers : List (Step β) :=
  (p.visit.bind fun v => (v.next timing env p.score.cursors).1.map Prod.fst).toList ++
    (p.entered timing env).flatMap fun a => ((a.first timing).1.map Prod.fst).toList

theorem fst_attempt :
    (p.attempt timing env).1 = match p.visit with
      | none => ((p.root env).first timing).1.map Prod.fst
      | some v => (v.next timing env p.score.cursors).1.map Prod.fst := by
  rw [attempt_eq, reply]
  cases p.visit <;> rfl

variable {timing env p}

/-- The offers are those of the first attempt and, if it gives no step, of the second. -/
theorem offers_eq :
    p.offers timing env = (p.attempt timing env).1.toList ++
      if (p.attempt timing env).1 = none then
        ((p.attempt timing env).2.attempt timing env).1.toList else [] := by
  have hfirst := fst_attempt timing env p
  rcases hattempt : p.attempt timing env with ⟨_ | step, q⟩ <;> rw [hattempt] at hfirst
  · have hsecond := fst_attempt timing env q
    rw [visit_of_attempt_none timing hattempt] at hsecond
    cases hvisit : p.visit <;> rw [hvisit] at hfirst <;>
      simp [offers, entered, hvisit, hattempt, ← hfirst, hsecond]
  · cases hvisit : p.visit <;> rw [hvisit] at hfirst <;>
      simp [offers, entered, hvisit, hattempt, ← hfirst]

theorem next_eq_offers :
    (p.next timing env).1 = (p.offers timing env).head?.getD (.rest (Beats.ofNat 1) []) := by
  rw [offers_eq, next]
  split
  · next step q hattempt => simp [hattempt]
  · next q hattempt =>
    split
    · next step r hsecond => simp [hattempt, hsecond]
    · next r hsecond => simp [hattempt, hsecond]

theorem rests_iff_offers : p.Rests timing env ↔ p.offers timing env = [] := by
  rw [Rests, offers_eq]
  cases (p.attempt timing env).1 with
  | none => simp
  | some step => simp

theorem length_entered_le : (p.entered timing env).length ≤ 2 := by
  unfold entered
  split <;> simp

theorem tree_of_mem_entered {a : Activation β} (ha : a ∈ p.entered timing env) :
    a.tree = p.score.tree := by
  unfold entered at ha
  split at ha
  · obtain rfl := List.mem_singleton.1 ha
    rfl
  · next hattempt =>
    rcases List.mem_cons.1 ha with rfl | ha
    · rfl
    · obtain rfl := List.mem_singleton.1 ha
      exact tree_of_attempt timing hattempt
  · cases ha
  · next hattempt =>
    obtain rfl := List.mem_singleton.1 ha
    exact tree_of_attempt timing hattempt

/-- A player that rests has entered the root, and no activation that it entered gives a step. -/
theorem Rests.first_eq_none (h : p.Rests timing env) :
    p.entered timing env ≠ [] ∧ ∀ a ∈ p.entered timing env, (a.first timing).1 = none := by
  obtain ⟨-, hentered⟩ := List.append_eq_nil_iff.1 (rests_iff_offers.1 h)
  refine ⟨?_, fun a ha => ?_⟩
  · obtain ⟨q, hattempt⟩ : ∃ q, p.attempt timing env = (none, q) := ⟨_, Prod.ext h.1 rfl⟩
    rw [entered, hattempt]
    cases p.visit <;> exact List.cons_ne_nil _ _
  · simpa using List.flatMap_eq_nil_iff.1 hentered a ha

/-- For one step a player enters its root twice at most, and it takes the step of the first
activation that gives one, the present one before those that are entered. It rests for want of such
a step, and then every activation of the root that is entered has a stalled chord in the course of
it. If no chord has children, it never rests, and every node that is entered gives a step. -/
theorem rests_only_stalled (timing : ChordTiming β) (env : Env) (p : Player β) :
    (p.entered timing env).length ≤ 2 ∧
      (p.next timing env).1 = (p.offers timing env).head?.getD (.rest (Beats.ofNat 1) []) ∧
      (p.Rests timing env ↔ p.offers timing env = []) ∧
      (p.Rests timing env → p.entered timing env ≠ [] ∧ ∀ a ∈ p.entered timing env,
        ∃ b, ReflTransGen (Activation.Part timing) a b ∧ b.Stalls timing) ∧
      (p.score.tree.isChordFree = true → ¬ p.Rests timing env ∧
        ∀ t ∈ p.score.tree.nodes, ∀ duration gain cursors,
          (Visit.start timing env duration gain cursors t).1.isSome = true) := by
  refine ⟨length_entered_le, next_eq_offers, rests_iff_offers, fun hrests => ?_,
    fun hfree => ⟨fun hrests => ?_, fun t ht duration gain cursors => ?_⟩⟩
  · obtain ⟨hne, hfirst⟩ := hrests.first_eq_none
    exact ⟨hne, fun a ha => a.exists_stalls (hfirst a ha)⟩
  · obtain ⟨hne, hfirst⟩ := hrests.first_eq_none
    obtain ⟨a, ha⟩ := List.exists_mem_of_ne_nil _ hne
    have hsome : (a.first timing).1.isSome = true :=
      isSome_start (tree_of_mem_entered ha ▸ hfree)
    rw [hfirst a ha] at hsome
    cases hsome
  · exact isSome_start (Tree.isChordFree_of_mem_nodes ht hfree)

-- A chord that lasts for ever gives no step.
example : ((ofPattern (.modify .speed
    (.literal (.number (Binary.finite false 1 (-1074)).toFloat) ⟨6, 13⟩)
    (.collect .chord [.literal (.number 1) ⟨2, 3⟩]) ⟨14, 19⟩) : Player Float).offers .usual
      .zero).isEmpty = true := by
  decide

end Player

end PatternSynth
