import Mathlib.Algebra.Order.Ring.Rat
import Mathlib.Tactic.NormNum
import Mathlib.Tactic.Positivity
import PatternSynth.Proofs.Step.Footprint
import PatternSynth.Proofs.Step.Pass

/-!
# How long playing takes

Here durations are exact numbers. `Tree.time` says how long an activation of a node takes: what its
children take one after another in a sequence, what the branch takes whose turn it is in a cycle,
and what the longest child takes in a chord. Without modifiers of the speed that is the time for
which the node is entered (`Tree.time_eq_duration`).

`Visit.left` says the same of a visit once it has handed out a step. A chord hands out the shortest
of the times that remain on its tracks, and only the next pull takes that time off them. So what is
left of a chord is what is left on its longest track, less the time that is still to be taken off.
-/

namespace PatternSynth

open Cursors

/-! ## Amounts of speed -/

theorem Binary.toRat_pos {m : Nat} (hm : 0 < m) (e : Int) :
    0 < (Binary.finite false m e).toRat := by
  change 0 < mkRat ((m <<< e.toNat : Nat) : Int) (1 <<< (-e).toNat)
  rw [Rat.mkRat_eq_div, Nat.shiftLeft_eq, Nat.shiftLeft_eq]
  positivity

theorem unpack_zero : (0 : Float).toModel.unpack = .zero .positive := rfl

theorem ofFloat_speedFactor_pos (amount : Float) :
    (0 : Rat) < Beats.ofFloat (speedFactor amount) := by
  change 0 < (Binary.ofFloat (speedFactor amount)).toRat
  rw [speedFactor]
  split
  · rename_i h
    obtain ⟨hfinite, hpositive⟩ := Bool.and_eq_true_iff.1 h
    change amount.toModel.unpack.isFinite = true at hfinite
    have hpos : amount > 0 := of_decide_eq_true hpositive
    have hlt : (0 : Float).toModel.unpack.lt amount.toModel.unpack = true :=
      of_decide_eq_true hpos
    rw [unpack_zero] at hlt
    rw [Binary.ofFloat]
    cases hamount : amount.toModel.unpack with
    | finite s m e hm =>
      rw [hamount] at hlt
      cases s with
      | positive => exact Binary.toRat_pos hm e
      | negative => cases hlt
    | zero s =>
      rw [hamount] at hlt
      cases hlt
    | infinity s =>
      rw [hamount] at hfinite
      cases hfinite
    | notANumber =>
      rw [hamount] at hfinite
      cases hfinite
  · decide +kernel

theorem Modifier.innerDuration_pos (kind : Modifier) (amount : Float) {duration : Rat}
    (h : 0 < duration) : 0 < kind.innerDuration amount duration := by
  cases kind with
  | speed => exact div_pos h (ofFloat_speedFactor_pos amount)
  | volume => exact h

/-! ## How long an activation takes -/

namespace Tree

mutual

/-- How long an activation takes that is entered for a duration on these cursors. -/
def time (env : Env) (cursors : Cursors) (duration : Rat) : Tree → Rat
  | leaf .. => duration
  | group _ _ [] _ => duration
  | group _ .sequence (t :: ts) _ => timeAll env cursors (duration / (t :: ts).length) (t :: ts)
  | group id .cycle (t :: ts) _ =>
    timeNth env cursors duration (t :: ts) (cursors.turn id (t :: ts).length).1
  | group _ .chord (t :: ts) _ => longest env cursors duration (t :: ts)
  | modified _ kind amount inner _ =>
    time env cursors (kind.innerDuration (amount.resolve env).toNumber duration) inner

/-- How long activations of these nodes take one after another. -/
def timeAll (env : Env) (cursors : Cursors) (duration : Rat) : List Tree → Rat
  | [] => 0
  | t :: ts => time env cursors duration t + timeAll env cursors duration ts

/-- How long an activation of the node at an index takes. -/
def timeNth (env : Env) (cursors : Cursors) (duration : Rat) : List Tree → Nat → Rat
  | [], _ => 0
  | t :: _, 0 => time env cursors duration t
  | _ :: ts, index + 1 => timeNth env cursors duration ts index

/-- How long the longest activation of these nodes takes. -/
def longest (env : Env) (cursors : Cursors) (duration : Rat) : List Tree → Rat
  | [] => 0
  | t :: ts => max (time env cursors duration t) (longest env cursors duration ts)

end

variable (env : Env)

/-! ### The cursors of its own nodes are all that matters to the time of a tree -/

mutual

theorem time_congr {c d : Cursors} (duration : Rat) :
    ∀ t : Tree, AgreeOn t.ids c d → time env c duration t = time env d duration t
  | leaf .., _ => rfl
  | group _ _ [] _, _ => rfl
  | group _ .sequence (t :: ts) _, h =>
    timeAll_congr _ (t :: ts) (h.mono (List.subset_append_left _ _))
  | group id .cycle (t :: ts) _, h => by
    have hindex := fst_turn_eq_of_agreeOn h (List.mem_append_right _ (List.mem_singleton.2 rfl))
      (t :: ts).length
    rw [time, time, hindex]
    exact timeNth_congr duration (t :: ts) _ (h.mono (List.subset_append_left _ _))
  | group _ .chord (t :: ts) _, h =>
    longest_congr duration (t :: ts) (h.mono (List.subset_append_left _ _))
  | modified _ kind amount inner _, h =>
    time_congr _ inner (h.mono (List.subset_append_left _ _))

theorem timeAll_congr {c d : Cursors} (duration : Rat) :
    ∀ ts : List Tree, AgreeOn (idsAll ts) c d →
      timeAll env c duration ts = timeAll env d duration ts
  | [], _ => rfl
  | t :: ts, h => by
    rw [timeAll, timeAll, time_congr duration t (h.mono (List.subset_append_left _ _)),
      timeAll_congr duration ts (h.mono (List.subset_append_right _ _))]

theorem timeNth_congr {c d : Cursors} (duration : Rat) :
    ∀ (ts : List Tree) (index : Nat), AgreeOn (idsAll ts) c d →
      timeNth env c duration ts index = timeNth env d duration ts index
  | [], _, _ => rfl
  | t :: _, 0, h => time_congr duration t (h.mono (List.subset_append_left _ _))
  | _ :: ts, index + 1, h => timeNth_congr duration ts index (h.mono (List.subset_append_right _ _))

theorem longest_congr {c d : Cursors} (duration : Rat) :
    ∀ ts : List Tree, AgreeOn (idsAll ts) c d →
      longest env c duration ts = longest env d duration ts
  | [], _ => rfl
  | t :: ts, h => by
    rw [longest, longest, time_congr duration t (h.mono (List.subset_append_left _ _)),
      longest_congr duration ts (h.mono (List.subset_append_right _ _))]

end

mutual

theorem time_pos (cursors : Cursors) {duration : Rat} (h : 0 < duration) :
    ∀ t : Tree, 0 < time env cursors duration t
  | leaf .. => h
  | group _ _ [] _ => h
  | group _ .sequence (t :: ts) _ =>
    have hshare := div_pos h (Nat.cast_pos.2 (Nat.succ_pos ts.length))
    add_pos_of_pos_of_nonneg (time_pos cursors hshare t) (timeAll_nonneg cursors hshare ts)
  | group _ .cycle (t :: ts) _ =>
    timeNth_pos cursors h (t :: ts) _ (Nat.mod_lt _ (Nat.succ_pos _))
  | group _ .chord (t :: _) _ => lt_max_of_lt_left (time_pos cursors h t)
  | modified _ kind _ inner _ => time_pos cursors (kind.innerDuration_pos _ h) inner

theorem timeAll_nonneg (cursors : Cursors) {duration : Rat} (h : 0 < duration) :
    ∀ ts : List Tree, 0 ≤ timeAll env cursors duration ts
  | [] => le_rfl
  | t :: ts => add_nonneg (time_pos cursors h t).le (timeAll_nonneg cursors h ts)

theorem timeNth_pos (cursors : Cursors) {duration : Rat} (h : 0 < duration) :
    ∀ (ts : List Tree) (index : Nat), index < ts.length → 0 < timeNth env cursors duration ts index
  | t :: _, 0, _ => time_pos cursors h t
  | _ :: ts, index + 1, hindex => timeNth_pos cursors h ts index (Nat.lt_of_succ_lt_succ hindex)

end

/-! ### Without modifiers of the speed, every activation takes the time it is entered for -/

/-- Whether the top node changes the speed. -/
def isSpeed : Tree → Bool
  | modified _ .speed _ _ _ => true
  | _ => false

mutual

theorem time_eq_duration (cursors : Cursors) {duration : Rat} (h : 0 < duration) :
    ∀ t : Tree, (∀ node ∈ t.nodes, node.isSpeed = false) → time env cursors duration t = duration
  | leaf .., _ => rfl
  | group _ _ [] _, _ => rfl
  | group _ .sequence (t :: ts) _, hspeed => by
    have hlength : (0 : Rat) < (t :: ts).length := Nat.cast_pos.2 (Nat.succ_pos _)
    rw [time, timeAll_eq_mul cursors (div_pos h hlength) (t :: ts)
      (List.forall_mem_append.1 hspeed).1]
    exact mul_div_cancel₀ duration hlength.ne'
  | group _ .cycle (t :: ts) _, hspeed =>
    timeNth_eq_duration cursors h (t :: ts) _ (Nat.mod_lt _ (Nat.succ_pos _))
      (List.forall_mem_append.1 hspeed).1
  | group _ .chord (t :: ts) _, hspeed => by
    obtain ⟨ht, hts⟩ := List.forall_mem_append.1 (List.forall_mem_append.1 hspeed).1
    rw [time, longest, time_eq_duration cursors h t ht]
    exact max_eq_left (longest_le_duration cursors h ts hts)
  | modified _ .volume _ inner _, hspeed =>
    time_eq_duration cursors h inner (List.forall_mem_append.1 hspeed).1
  | modified _ .speed _ _ _, hspeed =>
    absurd (hspeed _ (List.mem_append_right _ (List.mem_singleton.2 rfl))) (by simp [isSpeed])

theorem timeAll_eq_mul (cursors : Cursors) {duration : Rat} (h : 0 < duration) :
    ∀ ts : List Tree, (∀ node ∈ nodesAll ts, node.isSpeed = false) →
      timeAll env cursors duration ts = ts.length * duration
  | [], _ => by rw [timeAll, List.length_nil, Nat.cast_zero, zero_mul]
  | t :: ts, hspeed => by
    obtain ⟨ht, hts⟩ := List.forall_mem_append.1 hspeed
    rw [timeAll, time_eq_duration cursors h t ht, timeAll_eq_mul cursors h ts hts,
      List.length_cons, Nat.cast_succ, add_one_mul, add_comm]

theorem timeNth_eq_duration (cursors : Cursors) {duration : Rat} (h : 0 < duration) :
    ∀ (ts : List Tree) (index : Nat), index < ts.length →
      (∀ node ∈ nodesAll ts, node.isSpeed = false) →
      timeNth env cursors duration ts index = duration
  | t :: _, 0, _, hspeed => time_eq_duration cursors h t (List.forall_mem_append.1 hspeed).1
  | _ :: ts, index + 1, hindex, hspeed =>
    timeNth_eq_duration cursors h ts index (Nat.lt_of_succ_lt_succ hindex)
      (List.forall_mem_append.1 hspeed).2

theorem longest_le_duration (cursors : Cursors) {duration : Rat} (h : 0 < duration) :
    ∀ ts : List Tree, (∀ node ∈ nodesAll ts, node.isSpeed = false) →
      longest env cursors duration ts ≤ duration
  | [], _ => h.le
  | t :: ts, hspeed => by
    obtain ⟨ht, hts⟩ := List.forall_mem_append.1 hspeed
    exact max_le (time_eq_duration cursors h t ht).le (longest_le_duration cursors h ts hts)

end

end Tree

/-! ## How much time is left of a visit -/

mutual

/-- How much time is left of a visit after the step that it has handed out. -/
def Visit.left (env : Env) (cursors : Cursors) : Visit Rat → Rat
  | .done => 0
  | .within _ inner => inner.left env cursors
  | .sequence _ _ duration rest current =>
    current.left env cursors + Tree.timeAll env cursors duration rest
  | .chord _ elapsed tracks => Track.longest env cursors tracks - elapsed

/-- How much time is left on a track, from the step that it holds on. -/
def Track.left (env : Env) (cursors : Cursors) : Track Rat → Rat
  | .finished => 0
  | .sounding _ remaining visit => remaining + visit.left env cursors

/-- How much time is left on the longest track. -/
def Track.longest (env : Env) (cursors : Cursors) : List (Track Rat) → Rat
  | [] => 0
  | t :: ts => max (t.left env cursors) (Track.longest env cursors ts)

end

mutual

/-- A bound on the number of steps that are left of a visit. -/
def Visit.weight : Visit Rat → Nat
  | .done => 0
  | .within _ inner => inner.weight
  | .sequence _ _ _ rest current => current.weight + (Tree.idsAll rest).length
  | .chord _ _ tracks => Track.weightAll tracks

/-- A bound on the number of steps of a track, with the one that it holds. -/
def Track.weight : Track Rat → Nat
  | .finished => 0
  | .sounding _ _ visit => visit.weight + 1

/-- A bound on the number of steps of all tracks. -/
def Track.weightAll : List (Track Rat) → Nat
  | [] => 0
  | t :: ts => t.weight + Track.weightAll ts

end

mutual

/-- A visit in good order: its durations are positive, the parts that it has still to play share no
number, and a chord has handed out the shortest of the times that remain on its tracks. -/
def Visit.InTime : Visit Rat → Prop
  | .done => True
  | .within _ inner => inner.InTime
  | .sequence _ _ duration rest current =>
    0 < duration ∧ (Tree.idsAll rest).Nodup ∧ List.Disjoint current.ids (Tree.idsAll rest) ∧
      current.InTime
  | .chord _ elapsed tracks =>
    elapsed ∈ tracks.filterMap Track.remaining? ∧
      (∀ remaining ∈ tracks.filterMap Track.remaining?, elapsed ≤ remaining) ∧
      Track.AllInTime tracks

/-- A track in good order. -/
def Track.InTime : Track Rat → Prop
  | .finished => True
  | .sounding _ remaining visit => 0 < remaining ∧ visit.InTime

/-- Tracks in good order that share no number. -/
def Track.AllInTime : List (Track Rat) → Prop
  | [] => True
  | t :: ts => t.InTime ∧ List.Disjoint t.ids (Track.idsAll ts) ∧ Track.AllInTime ts

end

section Left

variable (env : Env)

mutual

theorem Visit.left_congr {c d : Cursors} :
    ∀ v : Visit Rat, AgreeOn v.ids c d → v.left env c = v.left env d
  | .done, _ => rfl
  | .within _ inner, h => Visit.left_congr inner h
  | .sequence _ _ duration rest current, h => by
    rw [Visit.left, Visit.left, Visit.left_congr current (h.mono (List.subset_append_right _ _)),
      Tree.timeAll_congr env duration rest (h.mono (List.subset_append_left _ _))]
  | .chord _ elapsed tracks, h => by
    rw [Visit.left, Visit.left, Track.longest_congr tracks h]

theorem Track.left_congr {c d : Cursors} :
    ∀ t : Track Rat, AgreeOn t.ids c d → t.left env c = t.left env d
  | .finished, _ => rfl
  | .sounding _ _ visit, h => by rw [Track.left, Track.left, Visit.left_congr visit h]

theorem Track.longest_congr {c d : Cursors} :
    ∀ ts : List (Track Rat), AgreeOn (Track.idsAll ts) c d →
      Track.longest env c ts = Track.longest env d ts
  | [], _ => rfl
  | t :: ts, h => by
    rw [Track.longest, Track.longest,
      Track.left_congr t (h.mono (List.subset_append_left _ _)),
      Track.longest_congr ts (h.mono (List.subset_append_right _ _))]

end

mutual

theorem Visit.left_nonneg (cursors : Cursors) :
    ∀ v : Visit Rat, v.InTime → 0 ≤ v.left env cursors
  | .done, _ => le_rfl
  | .within _ inner, h => Visit.left_nonneg cursors inner h
  | .sequence _ _ _ rest current, ⟨hduration, _, _, hcurrent⟩ =>
    add_nonneg (Visit.left_nonneg cursors current hcurrent)
      (Tree.timeAll_nonneg env cursors hduration rest)
  | .chord _ elapsed tracks, ⟨helapsed, _, htracks⟩ =>
    sub_nonneg.2 (Track.le_longest cursors tracks htracks elapsed helapsed)

/-- No more time remains of a step than is left on the longest track. -/
theorem Track.le_longest (cursors : Cursors) :
    ∀ ts : List (Track Rat), Track.AllInTime ts →
      ∀ remaining ∈ ts.filterMap Track.remaining?, remaining ≤ Track.longest env cursors ts
  | [], _, _, hmem => (List.not_mem_nil hmem).elim
  | .finished :: ts, ⟨_, _, hts⟩, remaining, hmem =>
    le_max_of_le_right (Track.le_longest cursors ts hts remaining hmem)
  | .sounding _ first visit :: ts, ⟨⟨_, hvisit⟩, _, hts⟩, remaining, hmem => by
    rcases List.mem_cons.1 hmem with rfl | hmem
    · have hleft := Visit.left_nonneg cursors visit hvisit
      exact le_max_of_le_left (le_add_of_nonneg_right hleft)
    · exact le_max_of_le_right (Track.le_longest cursors ts hts remaining hmem)

end

end Left

end PatternSynth
