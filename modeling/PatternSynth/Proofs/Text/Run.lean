import Mathlib.Data.List.TakeWhile

/-!
Runs of characters of one class. A run at the front of a text can be told from what follows it, if
that does not start with a character of the class.
-/

namespace PatternSynth.Text

variable {isOf : Char → Bool} {run run' rest rest' : List Char}

/-- The text does not start with a character of the class. -/
def StartsOutside (isOf : Char → Bool) (cs : List Char) : Prop :=
  ∀ c ∈ cs.head?, isOf c = false

theorem takeWhile_run (hrun : ∀ c ∈ run, isOf c = true) (hrest : StartsOutside isOf rest) :
    (run ++ rest).takeWhile isOf = run := by
  rw [List.takeWhile_append_of_pos hrun]
  cases rest with
  | nil => simp
  | cons c cs => simp [hrest c rfl]

/-- A text up to the first place where a character stands, or to the end if it does not. -/
theorem takeWhile_ne_run {c : Char} (hrun : c ∉ run) (hrest : ∀ d ∈ rest.head?, d = c) :
    (run ++ rest).takeWhile (· != c) = run := by
  refine takeWhile_run (fun d hd => ?_) (fun d hd => ?_)
  · rw [bne_iff_ne]
    rintro rfl
    exact hrun hd
  · rw [hrest d hd, bne_self_eq_false]

theorem dropWhile_run (hrun : ∀ c ∈ run, isOf c = true) (hrest : StartsOutside isOf rest) :
    (run ++ rest).dropWhile isOf = rest := by
  rw [List.dropWhile_append_of_pos hrun]
  cases rest with
  | nil => simp
  | cons c cs => simp [hrest c rfl]

theorem run_append_inj (hrun : ∀ c ∈ run, isOf c = true) (hrun' : ∀ c ∈ run', isOf c = true)
    (hrest : StartsOutside isOf rest) (hrest' : StartsOutside isOf rest')
    (h : run ++ rest = run' ++ rest') : run = run' ∧ rest = rest' := by
  constructor
  · rw [← takeWhile_run hrun hrest, h, takeWhile_run hrun' hrest']
  · rw [← dropWhile_run hrun hrest, h, dropWhile_run hrun' hrest']

end PatternSynth.Text
