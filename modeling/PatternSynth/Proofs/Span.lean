import Mathlib.Tactic.Tauto
import PatternSynth.Span

/-!
# Spans in increasing order

`Span.distinct` lists the spans of a list once each, in strictly increasing order by start and then
by stop.
-/

namespace PatternSynth.Span

/-- The strict order by start and then by stop. -/
def Before (a b : Span) : Prop :=
  a.start < b.start ∨ a.start = b.start ∧ a.stop < b.stop

theorem le_iff {a b : Span} :
    le a b = true ↔ a.start < b.start ∨ a.start = b.start ∧ a.stop ≤ b.stop := by
  simp [le]

theorem le_trans (a b c : Span) (hab : le a b = true) (hbc : le b c = true) : le a c = true := by
  rw [le_iff] at hab hbc ⊢
  omega

theorem le_total (a b : Span) : (le a b || le b a) = true := by
  rw [Bool.or_eq_true, le_iff, le_iff]
  omega

theorem before_of_le_of_ne {a b : Span} (hle : le a b = true) (hne : a ≠ b) : Before a b := by
  rw [le_iff] at hle
  have hdiffer : a.start ≠ b.start ∨ a.stop ≠ b.stop := by
    by_cases hstart : a.start = b.start
    · refine Or.inr fun hstop => hne ?_
      cases a
      cases b
      simp_all
    · exact Or.inl hstart
  unfold Before
  omega

theorem before_of_before_of_le {a b c : Span} (hab : Before a b) (hbc : le b c = true) :
    Before a c := by
  rw [le_iff] at hbc
  unfold Before at hab ⊢
  omega

/-! ## Erasing repetitions -/

open List (eraseRepsBy.loop)

theorem mem_eraseReps_loop {s : Span} (first : Span) (others erased : List Span) :
    s ∈ eraseRepsBy.loop (· == ·) first others erased ↔
      s ∈ erased ∨ s = first ∨ s ∈ others := by
  induction others generalizing first erased with
  | nil =>
    simp only [eraseRepsBy.loop, List.mem_reverse, List.mem_cons, List.not_mem_nil, or_false]
    exact or_comm
  | cons next others ih =>
    rw [eraseRepsBy.loop]
    split
    · next hsame =>
      rw [ih, ← eq_of_beq hsame]
      simp only [List.mem_cons]
      tauto
    · rw [ih]
      simp only [List.mem_cons]
      tauto

/-- The spans already kept, in reverse order, come before the first of those to come, and these are
sorted. -/
theorem pairwise_eraseReps_loop (first : Span) (others erased : List Span)
    (hkept : (first :: erased).Pairwise (fun a b => Before b a))
    (hsorted : (first :: others).Pairwise (fun a b => le a b = true)) :
    (eraseRepsBy.loop (· == ·) first others erased).Pairwise Before := by
  induction others generalizing first erased with
  | nil => exact List.pairwise_reverse.2 hkept
  | cons next others ih =>
    obtain ⟨hfirst, hothers⟩ := List.pairwise_cons.1 hsorted
    rw [eraseRepsBy.loop]
    split
    · exact ih first erased hkept
        (List.pairwise_cons.2 ⟨fun s hs => hfirst s (List.mem_cons_of_mem _ hs), hothers.of_cons⟩)
    · next hdiffer =>
      have hnext : Before first next :=
        before_of_le_of_ne (hfirst next List.mem_cons_self) (ne_of_beq_false hdiffer)
      refine ih next (first :: erased) (List.pairwise_cons.2 ⟨?_, hkept⟩) hothers
      intro s hs
      rcases List.mem_cons.1 hs with rfl | hs
      · exact hnext
      · exact before_of_before_of_le ((List.pairwise_cons.1 hkept).1 s hs)
          (hfirst next List.mem_cons_self)

/-! ## The spans of a list, each once -/

theorem mem_distinct {s : Span} {spans : List Span} : s ∈ distinct spans ↔ s ∈ spans := by
  have hsorted : s ∈ sorted spans ↔ s ∈ spans := List.mem_mergeSort
  rw [← hsorted, distinct, List.eraseReps]
  cases sorted spans with
  | nil => rfl
  | cons first others => simp [List.eraseRepsBy, mem_eraseReps_loop]

theorem pairwise_distinct (spans : List Span) : (distinct spans).Pairwise Before := by
  have hsorted : (sorted spans).Pairwise (fun a b => le a b = true) :=
    List.pairwise_mergeSort le_trans le_total spans
  rw [distinct, List.eraseReps]
  cases hspans : sorted spans with
  | nil => exact List.Pairwise.nil
  | cons first others =>
    rw [hspans] at hsorted
    exact pairwise_eraseReps_loop first others [] (List.pairwise_singleton _ _) hsorted

end PatternSynth.Span
