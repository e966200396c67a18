import PatternSynth.Proofs.Step.Visit
import PatternSynth.Proofs.Tree.Numbering

/-!
# The cursors that a visit touches

Entering a tree, and going on with a visit of it, reads and changes only the cursors of the tree's
own numbers (`Visit.local_start`, `Visit.local_next`), and what is left of the visit stays among
them (`Visit.ids_start`, `Visit.ids_next`). So trees without a common number can be played in turns
on the same cursors without noticing one another.
-/

namespace PatternSynth

namespace Cursors

/-! ## Computations on some of the cursors -/

/-- The cursors are the same at these numbers. -/
def AgreeOn (ids : List Nat) (cursors cursors' : Cursors) : Prop :=
  ∀ i ∈ ids, cursors[i]? = cursors'[i]?

theorem AgreeOn.refl (ids : List Nat) (c : Cursors) : AgreeOn ids c c :=
  fun _ _ => rfl

theorem AgreeOn.symm {ids : List Nat} {c d : Cursors} (h : AgreeOn ids c d) : AgreeOn ids d c :=
  fun i hi => (h i hi).symm

theorem AgreeOn.trans {ids : List Nat} {c d e : Cursors} (h : AgreeOn ids c d)
    (h' : AgreeOn ids d e) : AgreeOn ids c e :=
  fun i hi => (h i hi).trans (h' i hi)

theorem AgreeOn.mono {ids ids' : List Nat} {c d : Cursors} (h : AgreeOn ids' c d)
    (hsub : ids ⊆ ids') : AgreeOn ids c d :=
  fun i hi => h i (hsub hi)

/-- A computation that reads and changes only the cursors at these numbers, and adds or drops
none. -/
structure Local {α : Type} (ids : List Nat) (f : Cursors → α × Cursors) : Prop where
  fst_eq : ∀ {c d : Cursors}, AgreeOn ids c d → (f c).1 = (f d).1
  snd_agree : ∀ {c d : Cursors}, AgreeOn ids c d → AgreeOn ids (f c).2 (f d).2
  unchanged : ∀ (cursors : Cursors) {i : Nat}, i ∉ ids → (f cursors).2[i]? = cursors[i]?
  size_eq : ∀ cursors : Cursors, (f cursors).2.size = cursors.size

section Rules

variable {α γ : Type} {ids ids' : List Nat}

theorem local_pure (x : α) : Local ids (fun c => (x, c)) :=
  ⟨fun _ => rfl, fun h => h, fun _ _ _ => rfl, fun _ => rfl⟩

theorem Local.bind {f : Cursors → α × Cursors} {g : α → Cursors → γ × Cursors}
    (hf : Local ids f) (hg : ∀ x, Local ids (g x)) : Local ids (fun c => g (f c).1 (f c).2) where
  fst_eq h := by
    rw [hf.fst_eq h]
    exact (hg _).fst_eq (hf.snd_agree h)
  snd_agree h := by
    rw [hf.fst_eq h]
    exact (hg _).snd_agree (hf.snd_agree h)
  unchanged c _ hi := ((hg _).unchanged _ hi).trans (hf.unchanged c hi)
  size_eq c := ((hg _).size_eq _).trans (hf.size_eq c)

theorem Local.map {f : Cursors → α × Cursors} (hf : Local ids f) (g : α → γ) :
    Local ids (fun c => (g (f c).1, (f c).2)) :=
  hf.bind fun x => local_pure (g x)

theorem Local.mono {f : Cursors → α × Cursors} (hf : Local ids f) (hsub : ids ⊆ ids') :
    Local ids' f where
  fst_eq h := hf.fst_eq (h.mono hsub)
  snd_agree {c d} h i hi := by
    by_cases hmem : i ∈ ids
    · exact hf.snd_agree (h.mono hsub) i hmem
    · rw [hf.unchanged c hmem, hf.unchanged d hmem]
      exact h i hi
  unchanged c _ hi := hf.unchanged c fun hmem => hi (hsub hmem)
  size_eq := hf.size_eq

/-- Numbers that a computation does not touch keep their cursors. -/
theorem Local.agreeOn_of_disjoint {f : Cursors → α × Cursors} (hf : Local ids f)
    (hdisjoint : ∀ i ∈ ids', i ∉ ids) (c : Cursors) : AgreeOn ids' (f c).2 c :=
  fun i hi => hf.unchanged c (hdisjoint i hi)

end Rules

theorem read_eq_of_agreeOn {c d : Cursors} {id : Nat} (h : AgreeOn [id] c d) :
    c.read id = d.read id := by
  have hid := h id (List.mem_singleton.2 rfl)
  simp only [read, Array.getD_eq_getD_getElem?, hid]

theorem local_turn (id count : Nat) : Local [id] (fun c => c.turn id count) where
  fst_eq h := by
    simp only [turn, read_eq_of_agreeOn h]
  snd_agree {c d} h i hi := by
    obtain rfl := List.mem_singleton.1 hi
    have hbound : i < c.size ↔ i < d.size := by
      have hnone := congrArg (· = none) (h i hi)
      simp only [Array.getElem?_eq_none_iff, eq_iff_iff] at hnone
      omega
    simp only [turn, Array.getElem?_setIfInBounds_self, read_eq_of_agreeOn h, hbound]
  unchanged c i hi := by
    have hne : id ≠ i := fun h => hi (List.mem_singleton.2 h.symm)
    simp only [turn, Array.getElem?_setIfInBounds_ne hne]
  size_eq c := by simp only [turn, Array.size_setIfInBounds]

theorem fst_turn_eq_of_agreeOn {c d : Cursors} {id : Nat} {ids : List Nat} (h : AgreeOn ids c d)
    (hid : id ∈ ids) (count : Nat) : (c.turn id count).1 = (d.turn id count).1 :=
  (local_turn id count).fst_eq (h.mono (List.cons_subset.2 ⟨hid, List.nil_subset _⟩))

end Cursors

/-! ## The numbers of a visit -/

variable {β : Type}

mutual

/-- The numbers of the trees that a visit has entered or is still to enter. -/
def Visit.ids : Visit β → List Nat
  | .done => []
  | .within _ inner => inner.ids
  | .sequence _ _ _ rest current => Tree.idsAll rest ++ current.ids
  | .chord _ _ tracks => Track.idsAll tracks

/-- The numbers of the visit on a track. -/
def Track.ids : Track β → List Nat
  | .finished => []
  | .sounding _ _ visit => visit.ids

/-- The numbers of the visits on all tracks. -/
def Track.idsAll : List (Track β) → List Nat
  | [] => []
  | t :: ts => t.ids ++ Track.idsAll ts

end

/-- The numbers of what is left after some progress. -/
def Visit.idsAfter : Progress β → List Nat
  | none => []
  | some (_, v) => v.ids

theorem Track.ids_ofProgress (p : Progress β) : (Track.ofProgress p).ids = Visit.idsAfter p := by
  rcases p with _ | ⟨step, v⟩ <;> rfl

theorem Visit.idsAfter_surround (spans : List Span) (p : Progress β) :
    idsAfter (surround spans p) = idsAfter p := by
  rcases p with _ | ⟨step, v⟩ <;> rfl

namespace Visit

open Cursors

variable [Beats β] (timing : ChordTiming β) (env : Env)

/-! ## Entering a tree -/

theorem local_proceed {ids : List Nat} {duration : β} {gain : Float} {spans : List Span}
    {rest : List Tree} (progress : Progress β)
    (hrest : Local ids fun c => startFirst timing env spans duration gain c rest) :
    Local ids (proceed timing env duration gain spans rest progress) := by
  rcases progress with _ | ⟨step, v⟩
  · exact hrest
  · exact local_pure _

mutual

theorem local_start (duration : β) (gain : Float) :
    ∀ t : Tree, Local t.ids fun c => start timing env duration gain c t
  | .leaf .. => local_pure _
  | .group _ _ [] _ => local_pure _
  | .group id .sequence (t :: ts) tag =>
    (local_startFirst tag.spans _ (tag.innerGain gain) (t :: ts)).mono
      (List.subset_append_left _ _)
  | .group id .cycle (t :: ts) tag => by
    simp only [start_cycle]
    refine Local.map (Local.bind (g := fun index c =>
      startNth timing env duration (tag.innerGain gain) c (t :: ts) index) ?_ ?_) _
    · exact (local_turn id _).mono (List.subset_append_right _ _)
    · intro index
      exact (local_startNth duration (tag.innerGain gain) (t :: ts) index).mono
        (List.subset_append_left _ _)
  | .group id .chord (t :: ts) tag => by
    simp only [start_chord]
    exact ((local_startAll duration (tag.innerGain gain) (t :: ts)).map _).mono
      (List.subset_append_left _ _)
  | .modified id kind amount inner tag => by
    simp only [start_modified]
    exact ((local_start _ _ inner).map _).mono (List.subset_append_left _ _)

theorem local_startFirst (spans : List Span) (duration : β) (gain : Float) :
    ∀ ts : List Tree, Local (Tree.idsAll ts) fun c =>
      startFirst timing env spans duration gain c ts
  | [] => local_pure _
  | t :: ts => by
    simp only [startFirst_cons]
    refine Local.bind ((local_start duration gain t).mono (List.subset_append_left _ _)) ?_
    intro progress
    exact local_proceed timing env progress
      ((local_startFirst spans duration gain ts).mono (List.subset_append_right _ _))

theorem local_startNth (duration : β) (gain : Float) :
    ∀ (ts : List Tree) (index : Nat), Local (Tree.idsAll ts) fun c =>
      startNth timing env duration gain c ts index
  | [], _ => local_pure _
  | t :: _, 0 => (local_start duration gain t).mono (List.subset_append_left _ _)
  | _ :: ts, index + 1 =>
    (local_startNth duration gain ts index).mono (List.subset_append_right _ _)

theorem local_startAll (duration : β) (gain : Float) :
    ∀ ts : List Tree, Local (Tree.idsAll ts) fun c => startAll timing env duration gain c ts
  | [] => local_pure _
  | t :: ts => by
    simp only [startAll_cons]
    refine Local.bind (g := fun progress c =>
      (Track.ofProgress progress :: (startAll timing env duration gain c ts).1,
        (startAll timing env duration gain c ts).2)) ?_ ?_
    · exact (local_start duration gain t).mono (List.subset_append_left _ _)
    · intro progress
      exact ((local_startAll duration gain ts).map _).mono (List.subset_append_right _ _)

end

/-! ## Going on with a visit -/

mutual

theorem local_next : ∀ v : Visit β, Local v.ids fun c => next timing env c v
  | done => local_pure _
  | within _ inner => (local_next inner).map _
  | sequence spans gain duration rest current => by
    simp only [next_sequence]
    refine Local.bind ((local_next current).mono (List.subset_append_right _ _)) ?_
    intro progress
    exact local_proceed timing env progress
      ((local_startFirst timing env spans duration gain rest).mono (List.subset_append_left _ _))
  | chord _ elapsed tracks => (local_advanceAll elapsed tracks).map _

theorem local_advance (elapsed : β) :
    ∀ t : Track β, Local t.ids fun c => t.advance timing env elapsed c
  | .finished => local_pure _
  | .sounding held remaining visit => by
    by_cases hdue : Beats.le (remaining - elapsed) timing.epsilon = true
    · simp only [Track.advance, if_pos hdue]
      exact (local_next visit).map _
    · simp only [Track.advance, if_neg hdue]
      exact local_pure _

theorem local_advanceAll (elapsed : β) :
    ∀ ts : List (Track β), Local (Track.idsAll ts) fun c => advanceAll timing env elapsed c ts
  | [] => local_pure _
  | t :: ts => by
    simp only [Track.advanceAll_cons]
    refine Local.bind (g := fun first c =>
      (first :: (advanceAll timing env elapsed c ts).1,
        (advanceAll timing env elapsed c ts).2)) ?_ ?_
    · exact (local_advance elapsed t).mono (List.subset_append_left _ _)
    · intro first
      exact ((local_advanceAll elapsed ts).map _).mono (List.subset_append_right _ _)

end

/-! ## What is left of a visit -/

/-- Each track is in the middle of the tree that stands at its place. -/
def Inside : List (Track β) → List Tree → Prop
  | [], [] => True
  | track :: tracks, t :: ts => track.ids ⊆ t.ids ∧ Inside tracks ts
  | _, _ => False

omit [Beats β] in
theorem Inside.idsAll_subset : ∀ {tracks : List (Track β)} {ts : List Tree},
    Inside tracks ts → Track.idsAll tracks ⊆ Tree.idsAll ts
  | [], [], _ => List.Subset.refl _
  | _ :: _, _ :: _, ⟨hfirst, hothers⟩ => by
    simp only [Track.idsAll, Tree.idsAll, List.append_subset]
    exact ⟨List.subset_append_of_subset_left _ hfirst,
      List.subset_append_of_subset_right _ hothers.idsAll_subset⟩

theorem idsAfter_merge_subset (spans : List Span) (tracks : List (Track β)) :
    idsAfter (merge timing spans tracks) ⊆ Track.idsAll tracks := by
  simp only [merge]
  split
  · exact List.nil_subset _
  · exact List.Subset.refl _

theorem idsAfter_proceed_subset {duration : β} {gain : Float} {spans : List Span}
    {rest : List Tree} {progress : Progress β} {cursors : Cursors} {ids : List Nat}
    (hprogress : idsAfter progress ⊆ ids) (hrest : Tree.idsAll rest ⊆ ids)
    (hfirst : idsAfter (startFirst timing env spans duration gain cursors rest).1 ⊆ ids) :
    idsAfter (proceed timing env duration gain spans rest progress cursors).1 ⊆ ids := by
  rcases progress with _ | ⟨step, v⟩
  · exact hfirst
  · exact List.append_subset.2 ⟨hrest, hprogress⟩

mutual

theorem ids_start (duration : β) (gain : Float) (cursors : Cursors) :
    ∀ t : Tree, idsAfter (start timing env duration gain cursors t).1 ⊆ t.ids
  | .leaf .. => List.nil_subset _
  | .group _ _ [] _ => List.nil_subset _
  | .group _ .sequence (t :: ts) tag =>
    List.subset_append_of_subset_left _
      (ids_startFirst tag.spans _ (tag.innerGain gain) cursors (t :: ts))
  | .group id .cycle (t :: ts) tag => by
    rw [start_cycle, idsAfter_surround]
    exact List.subset_append_of_subset_left _
      (ids_startNth duration (tag.innerGain gain) _ (t :: ts) _)
  | .group _ .chord (t :: ts) tag => by
    rw [start_chord]
    have hinside := inside_startAll duration (tag.innerGain gain) cursors (t :: ts)
    exact List.Subset.trans (idsAfter_merge_subset timing tag.spans _)
      (List.subset_append_of_subset_left _ hinside.idsAll_subset)
  | .modified _ kind amount inner tag => by
    rw [start_modified, idsAfter_surround]
    exact List.subset_append_of_subset_left _ (ids_start _ _ cursors inner)

theorem ids_startFirst (spans : List Span) (duration : β) (gain : Float) (cursors : Cursors) :
    ∀ ts : List Tree,
      idsAfter (startFirst timing env spans duration gain cursors ts).1 ⊆ Tree.idsAll ts
  | [] => List.nil_subset _
  | t :: ts => by
    rw [startFirst_cons]
    exact idsAfter_proceed_subset timing env
      (List.subset_append_of_subset_left _ (ids_start duration gain cursors t))
      (List.subset_append_right _ _)
      (List.subset_append_of_subset_right _ (ids_startFirst spans duration gain _ ts))

theorem ids_startNth (duration : β) (gain : Float) (cursors : Cursors) :
    ∀ (ts : List Tree) (index : Nat),
      idsAfter (startNth timing env duration gain cursors ts index).1 ⊆ Tree.idsAll ts
  | [], _ => List.nil_subset _
  | t :: _, 0 => List.subset_append_of_subset_left _ (ids_start duration gain cursors t)
  | _ :: ts, index + 1 =>
    List.subset_append_of_subset_right _ (ids_startNth duration gain cursors ts index)

theorem inside_startAll (duration : β) (gain : Float) (cursors : Cursors) :
    ∀ ts : List Tree, Inside (startAll timing env duration gain cursors ts).1 ts
  | [] => trivial
  | t :: ts => by
    rw [startAll_cons]
    refine ⟨?_, inside_startAll duration gain _ ts⟩
    rw [Track.ids_ofProgress]
    exact ids_start duration gain cursors t

end

mutual

theorem ids_next (cursors : Cursors) :
    ∀ v : Visit β, idsAfter (next timing env cursors v).1 ⊆ v.ids
  | done => List.nil_subset _
  | within spans inner => by
    rw [next_within, idsAfter_surround]
    exact ids_next cursors inner
  | sequence spans gain duration rest current => by
    rw [next_sequence]
    exact idsAfter_proceed_subset timing env
      (List.subset_append_of_subset_right _ (ids_next cursors current))
      (List.subset_append_left _ _)
      (List.subset_append_of_subset_left _
        (ids_startFirst timing env spans duration gain _ rest))
  | chord spans elapsed tracks => by
    rw [next_chord]
    exact List.Subset.trans (idsAfter_merge_subset timing spans _)
      (ids_advanceAll elapsed cursors tracks)

theorem ids_advance (elapsed : β) (cursors : Cursors) :
    ∀ t : Track β, (t.advance timing env elapsed cursors).1.ids ⊆ t.ids
  | .finished => List.nil_subset _
  | .sounding held remaining visit => by
    by_cases hdue : Beats.le (remaining - elapsed) timing.epsilon = true
    · simp only [Track.advance, if_pos hdue, Track.ids_ofProgress]
      exact ids_next cursors visit
    · simp only [Track.advance, if_neg hdue]
      exact List.Subset.refl _

theorem ids_advanceAll (elapsed : β) (cursors : Cursors) :
    ∀ ts : List (Track β),
      Track.idsAll (advanceAll timing env elapsed cursors ts).1 ⊆ Track.idsAll ts
  | [] => List.nil_subset _
  | t :: ts => by
    rw [Track.advanceAll_cons]
    exact List.append_subset.2
      ⟨List.subset_append_of_subset_left _ (ids_advance elapsed cursors t),
        List.subset_append_of_subset_right _ (ids_advanceAll elapsed _ ts)⟩

end

end Visit

end PatternSynth
