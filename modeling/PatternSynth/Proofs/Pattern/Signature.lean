import PatternSynth.Proofs.Number.Identity
import PatternSynth.Proofs.Text.Quoted
import PatternSynth.Sound.Basic

/-!
# Signatures tell sounds apart

A signature is read from left to right without ambiguity: its first two characters tell the kind of
node, and every part ends before a character that cannot continue it (`chars_append_inj`). So two
patterns have the same signature exactly if they are the same up to spans and turns, which a
signature leaves out. With the waveform after a colon, the same holds of sounds.
-/

namespace PatternSynth

namespace Pattern

open Text (StartsOutside)

mutual

/-- The pattern without what signatures leave out: the spans, and whose turn it is. -/
def erased : Pattern → Pattern
  | atom value tag => atom value ⟨[], tag.gain⟩
  | operator op args tag => operator op (erasedAll args) ⟨[], tag.gain⟩
  | group kind children _ tag => group kind (erasedAll children) 0 ⟨[], tag.gain⟩
  | modified kind amount inner tag => modified kind amount.erased inner.erased ⟨[], tag.gain⟩

/-- Each pattern without its spans and turns. -/
def erasedAll : List Pattern → List Pattern
  | [] => []
  | p :: ps => p.erased :: erasedAll ps

end

/-! ## The characters of a signature -/

/-- The characters of a stored gain. -/
def gainChars (gain : Option Float) : List Char :=
  (gainSignature gain).toList

mutual

/-- The characters of the signature of a pattern. -/
def chars : Pattern → List Char
  | atom value tag => (atomSignature value).toList ++ gainChars tag.gain
  | operator op args tag =>
    'o' :: 'p' :: (op.word.toList ++ '(' :: (charsList args ++ ')' :: gainChars tag.gain))
  | group kind children _ tag =>
    kind.brackets.1 :: (charsList children ++ kind.brackets.2 :: gainChars tag.gain)
  | modified kind amount inner tag =>
    kind.word.toList ++ '(' :: (inner.chars ++ ',' :: (amount.chars ++ ')' :: gainChars tag.gain))

/-- The characters of a list of patterns, with commas between them. -/
def charsList : List Pattern → List Char
  | [] => []
  | p :: ps => p.chars ++ charsMore ps

/-- The characters of a list of patterns, each after a comma. -/
def charsMore : List Pattern → List Char
  | [] => []
  | p :: ps => ',' :: (p.chars ++ charsMore ps)

end

mutual

theorem toList_sign (out : String) :
    ∀ p : Pattern, (sign out p).toList = out.toList ++ p.chars
  | .atom value tag => by
    simp [sign, chars, gainChars]
  | .operator op args tag => by
    simp [sign, chars, gainChars, toList_signList]
  | .group kind children cursor tag => by
    simp [sign, chars, gainChars, toList_signList]
  | .modified kind amount inner tag => by
    simp [sign, chars, gainChars, toList_sign]

theorem toList_signList (out : String) :
    ∀ ps : List Pattern, (signList out ps).toList = out.toList ++ charsList ps
  | [] => by simp [signList, charsList]
  | p :: ps => by simp [signList, charsList, toList_sign, toList_signMore]

theorem toList_signMore (out : String) :
    ∀ ps : List Pattern, (signMore out ps).toList = out.toList ++ charsMore ps
  | [] => by simp [signMore, charsMore]
  | p :: ps => by simp [signMore, charsMore, toList_sign, toList_signMore]

end

mutual

theorem chars_erased : ∀ p : Pattern, p.erased.chars = p.chars
  | .atom _ _ => rfl
  | .operator _ args _ => by simp [erased, chars, charsList_erasedAll args]
  | .group _ children _ _ => by simp [erased, chars, charsList_erasedAll children]
  | .modified _ amount inner _ => by simp [erased, chars, chars_erased amount, chars_erased inner]

theorem charsList_erasedAll : ∀ ps : List Pattern, charsList (erasedAll ps) = charsList ps
  | [] => rfl
  | p :: ps => by simp [erasedAll, charsList, chars_erased p, charsMore_erasedAll ps]

theorem charsMore_erasedAll : ∀ ps : List Pattern, charsMore (erasedAll ps) = charsMore ps
  | [] => rfl
  | p :: ps => by simp [erasedAll, charsMore, chars_erased p, charsMore_erasedAll ps]

end

/-! ## Reading a signature -/

/-- The kinds of nodes that a signature tells apart at its front. -/
inductive Shape where
  | number
  | text
  | word
  | var
  | operator
  | group
  | modified
deriving DecidableEq

/-- The kind of the top node. -/
def shape : Pattern → Shape
  | .atom (.number _) _ => .number
  | .atom (.text _) _ => .text
  | .atom (.word _) _ => .word
  | .atom (.var _) _ => .var
  | .operator .. => .operator
  | .group .. => .group
  | .modified .. => .modified

/-- The kind of node that starts with these characters. -/
def shape? : List Char → Option Shape
  | 'n' :: _ => some .number
  | 's' :: '"' :: _ => some .text
  | 'w' :: _ => some .word
  | 't' :: _ | 'b' :: _ => some .var
  | 'o' :: _ => some .operator
  | '[' :: _ | '<' :: _ | '(' :: _ => some .group
  | 's' :: _ | 'v' :: _ => some .modified
  | _ => none

theorem shape?_chars_append (p : Pattern) (rest : List Char) :
    shape? (p.chars ++ rest) = some p.shape := by
  cases p with
  | atom value tag =>
    cases value with
    | number x => simp [chars, atomSignature, shape?, shape]
    | text s => simp [chars, atomSignature, Text.quoted, shape?, shape]
    | word s => simp [chars, atomSignature, shape?, shape]
    | var v => cases v <;> simp [chars, atomSignature, Variable.word, shape?, shape]
  | operator op args tag => simp [chars, shape?, shape]
  | group kind children cursor tag => cases kind <;> simp [chars, Grouping.brackets, shape?, shape]
  | modified kind amount inner tag => cases kind <;> simp [chars, Modifier.word, shape?, shape]

/-- The characters that can follow a whole signature. -/
def isEnd (c : Char) : Bool :=
  c == ',' || c == ')' || c == ']' || c == '>' || c == ':'

/-- The rest of a text after a whole signature. -/
def Ends (rest : List Char) : Prop :=
  ∀ c ∈ rest.head?, isEnd c = true

variable {rest rest' : List Char}

/-- After an atom comes its gain or the end of the signature. -/
theorem startsOutside_gainChars {isOf : Char → Bool} (hstar : isOf '*' = false)
    (hend : ∀ c, isEnd c = true → isOf c = false) (hrest : Ends rest) (gain : Option Float) :
    StartsOutside isOf (gainChars gain ++ rest) := by
  intro c hc
  cases gain with
  | none => exact hend c (hrest c hc)
  | some g =>
    have hhead : (gainChars (some g) ++ rest).head? = some '*' := by
      simp [gainChars, gainSignature]
    rw [hhead] at hc
    cases hc
    exact hstar

theorem isEnd_cases {c : Char} (h : isEnd c = true) :
    c = ',' ∨ c = ')' ∨ c = ']' ∨ c = '>' ∨ c = ':' := by
  simpa [isEnd, or_assoc] using h

theorem isIdentityChar_of_isEnd {c : Char} (h : isEnd c = true) :
    Number.isIdentityChar c = false := by
  rcases isEnd_cases h with rfl | rfl | rfl | rfl | rfl <;> decide

theorem isAlpha_of_isEnd {c : Char} (h : isEnd c = true) : c.isAlpha = false := by
  rcases isEnd_cases h with rfl | rfl | rfl | rfl | rfl <;> decide

theorem identity_append_inj {x y : Float} (hrest : StartsOutside Number.isIdentityChar rest)
    (hrest' : StartsOutside Number.isIdentityChar rest')
    (h : (Number.identity x).toList ++ rest = (Number.identity y).toList ++ rest') :
    x = y ∧ rest = rest' := by
  obtain ⟨hnumber, hrest⟩ := Text.run_append_inj (Number.isIdentityChar_of_mem x)
    (Number.isIdentityChar_of_mem y) hrest hrest' h
  exact ⟨Number.identity_injective (String.toList_inj.1 hnumber), hrest⟩

theorem gainChars_append_inj {gain gain' : Option Float} (hrest : Ends rest) (hrest' : Ends rest')
    (h : gainChars gain ++ rest = gainChars gain' ++ rest') : gain = gain' ∧ rest = rest' := by
  have hstar (rest : List Char) (hrest : Ends rest) (cs : List Char) : rest ≠ '*' :: cs := by
    rintro rfl
    exact absurd (hrest '*' rfl) (by decide)
  have hsome (g : Float) (rest : List Char) :
      gainChars (some g) ++ rest = '*' :: ((Number.identity g).toList ++ rest) := by
    simp [gainChars, gainSignature]
  have hnone (rest : List Char) : gainChars none ++ rest = rest := rfl
  have houtside (rest : List Char) (hrest : Ends rest) :
      StartsOutside Number.isIdentityChar rest :=
    fun c hc => isIdentityChar_of_isEnd (hrest c hc)
  cases gain with
  | none =>
    cases gain' with
    | none => exact ⟨rfl, h⟩
    | some g' =>
      rw [hnone, hsome] at h
      exact absurd h (hstar rest hrest _)
  | some g =>
    cases gain' with
    | none =>
      rw [hnone, hsome] at h
      exact absurd h.symm (hstar rest' hrest' _)
    | some g' =>
      rw [hsome, hsome] at h
      obtain ⟨rfl, hrest⟩ := identity_append_inj (houtside rest hrest) (houtside rest' hrest')
        (List.tail_eq_of_cons_eq h)
      exact ⟨rfl, hrest⟩

theorem shape_eq {p q : Pattern} (h : p.chars ++ rest = q.chars ++ rest') :
    p.shape = q.shape := by
  have hshape := shape?_chars_append p rest
  rw [h, shape?_chars_append] at hshape
  exact (Option.some.inj hshape).symm

/-- A variable ends where its letters end. -/
theorem variable_append_inj {v v' : Variable} (hrest : StartsOutside Char.isAlpha rest)
    (hrest' : StartsOutside Char.isAlpha rest')
    (h : v.word.toList ++ rest = v'.word.toList ++ rest') : v = v' ∧ rest = rest' := by
  have halpha (v : Variable) : ∀ c ∈ v.word.toList, c.isAlpha = true := by
    cases v <;> exact List.all_eq_true.1 (by decide)
  obtain ⟨hword, hrest⟩ := Text.run_append_inj (halpha v) (halpha v') hrest hrest' h
  refine ⟨?_, hrest⟩
  revert hword
  cases v <;> cases v' <;> decide

/-- The word of an operator or modifier ends where its bracket opens. -/
theorem word_append_inj {word word' : String} (hword : ∀ c ∈ word.toList, (c != '(') = true)
    (hword' : ∀ c ∈ word'.toList, (c != '(') = true)
    (h : word.toList ++ '(' :: rest = word'.toList ++ '(' :: rest') :
    word = word' ∧ rest = rest' := by
  have houtside (rest : List Char) : StartsOutside (· != '(') ('(' :: rest) := by
    intro c hc
    cases hc
    rfl
  obtain ⟨hword, hrest⟩ :=
    Text.run_append_inj hword hword' (houtside rest) (houtside rest') h
  exact ⟨String.toList_inj.1 hword, List.tail_eq_of_cons_eq hrest⟩

theorem operator_word_inj {op op' : Operator} (h : op.word = op'.word) : op = op' := by
  revert h
  cases op <;> cases op' <;> decide

theorem ends_cons {c : Char} (h : isEnd c = true) (rest : List Char) : Ends (c :: rest) := by
  intro d hd
  cases hd
  exact h

theorem ends_charsMore {closer : Char} (hcloser : isEnd closer = true) (ps : List Pattern)
    (rest : List Char) : Ends (charsMore ps ++ closer :: rest) := by
  cases ps with
  | nil => exact ends_cons hcloser rest
  | cons p ps => exact ends_cons rfl _

theorem atom_append_inj {value value' : Atom} {tag tag' : Tag} (hrest : Ends rest)
    (hrest' : Ends rest') (h : (atom value tag).chars ++ rest = (atom value' tag').chars ++ rest') :
    (atom value tag).erased = (atom value' tag').erased ∧ rest = rest' := by
  have hshape := shape_eq h
  have hnumber (gain : Option Float) {rest : List Char} (hrest : Ends rest) :
      StartsOutside Number.isIdentityChar (gainChars gain ++ rest) :=
    startsOutside_gainChars (by decide) (fun _ => isIdentityChar_of_isEnd) hrest gain
  have halpha (gain : Option Float) {rest : List Char} (hrest : Ends rest) :
      StartsOutside Char.isAlpha (gainChars gain ++ rest) :=
    startsOutside_gainChars (by decide) (fun _ => isAlpha_of_isEnd) hrest gain
  -- In every case the value is read first, and then the gain.
  suffices value = value' ∧ gainChars tag.gain ++ rest = gainChars tag'.gain ++ rest' by
    obtain ⟨rfl, hgain⟩ := this
    obtain ⟨hgain, hrest⟩ := gainChars_append_inj hrest hrest' hgain
    exact ⟨by rw [erased, erased, hgain], hrest⟩
  cases value with
  | number x =>
    cases value' with
    | number y =>
      simp only [chars, atomSignature, String.toList_append, List.append_assoc] at h
      obtain ⟨rfl, hgain⟩ := identity_append_inj (hnumber _ hrest) (hnumber _ hrest')
        (List.append_cancel_left h)
      exact ⟨rfl, hgain⟩
    | text s' => cases hshape
    | word s' => cases hshape
    | var v' => cases hshape
  | text s =>
    cases value' with
    | number y => cases hshape
    | text s' =>
      simp only [chars, atomSignature, String.toList_append, List.append_assoc] at h
      obtain ⟨rfl, hgain⟩ := Text.quoted_append_inj (List.append_cancel_left h)
      exact ⟨rfl, hgain⟩
    | word s' => cases hshape
    | var v' => cases hshape
  | word s =>
    cases value' with
    | number y => cases hshape
    | text s' => cases hshape
    | word s' =>
      simp only [chars, atomSignature, String.toList_append, List.append_assoc] at h
      obtain ⟨rfl, hgain⟩ := Text.quoted_append_inj (List.append_cancel_left h)
      exact ⟨rfl, hgain⟩
    | var v' => cases hshape
  | var v =>
    cases value' with
    | number y => cases hshape
    | text s' => cases hshape
    | word s' => cases hshape
    | var v' =>
      simp only [chars, atomSignature, List.append_assoc] at h
      obtain ⟨rfl, hgain⟩ := variable_append_inj (halpha _ hrest) (halpha _ hrest') h
      exact ⟨rfl, hgain⟩

theorem shape_atom_ne (value : Atom) (tag : Tag) :
    (atom value tag).shape ≠ .operator ∧ (atom value tag).shape ≠ .group ∧
      (atom value tag).shape ≠ .modified := by
  cases value <;> simp [shape]

theorem brackets_inj {kind kind' : Grouping} (h : kind.brackets.1 = kind'.brackets.1) :
    kind = kind' := by
  revert h
  cases kind <;> cases kind' <;> decide

theorem isEnd_closer (kind : Grouping) : isEnd kind.brackets.2 = true := by
  cases kind <;> rfl

theorem closer_ne_comma (kind : Grouping) : kind.brackets.2 ≠ ',' := by
  cases kind <;> decide

theorem shape?_closer (kind : Grouping) (rest : List Char) :
    shape? (kind.brackets.2 :: rest) = none := by
  cases kind <;> rfl

mutual

/-- A signature determines the pattern up to spans and turns, and what follows it. -/
theorem chars_append_inj : ∀ (p q : Pattern) {rest rest' : List Char}, Ends rest → Ends rest' →
    p.chars ++ rest = q.chars ++ rest' → p.erased = q.erased ∧ rest = rest'
  | .atom value tag, q, rest, rest', hrest, hrest', h => by
    have hshape := shape_eq h
    obtain ⟨hoperator, hgroup, hmodified⟩ := shape_atom_ne value tag
    cases q with
    | atom value' tag' => exact atom_append_inj hrest hrest' h
    | operator op' args' tag' => exact absurd hshape hoperator
    | group kind' children' cursor' tag' => exact absurd hshape hgroup
    | modified kind' amount' inner' tag' => exact absurd hshape hmodified
  | .operator op args tag, q, rest, rest', hrest, hrest', h => by
    have hshape := shape_eq h
    cases q with
    | atom value' tag' => exact absurd hshape.symm (shape_atom_ne value' tag').1
    | operator op' args' tag' =>
      have hword (op : Operator) : ∀ c ∈ op.word.toList, (c != '(') = true := by
        cases op <;> exact List.all_eq_true.1 (by decide)
      simp only [chars, List.cons_append, List.append_assoc, List.cons.injEq, true_and] at h
      obtain ⟨hop, h⟩ := word_append_inj (hword op) (hword op') h
      obtain ⟨hargs, h⟩ := charsList_append_inj .chord args args' h
      obtain ⟨hgain, hrest⟩ := gainChars_append_inj hrest hrest' h
      rw [erased, erased, operator_word_inj hop, hargs, hgain]
      exact ⟨rfl, hrest⟩
    | group kind' children' cursor' tag' => cases hshape
    | modified kind' amount' inner' tag' => cases hshape
  | .group kind children cursor tag, q, rest, rest', hrest, hrest', h => by
    have hshape := shape_eq h
    cases q with
    | atom value' tag' => exact absurd hshape.symm (shape_atom_ne value' tag').2.1
    | operator op' args' tag' => cases hshape
    | group kind' children' cursor' tag' =>
      simp only [chars, List.cons_append, List.append_assoc, List.cons.injEq] at h
      obtain ⟨hkind, h⟩ := h
      obtain rfl := brackets_inj hkind
      obtain ⟨hchildren, h⟩ := charsList_append_inj kind children children' h
      obtain ⟨hgain, hrest⟩ := gainChars_append_inj hrest hrest' h
      rw [erased, erased, hchildren, hgain]
      exact ⟨rfl, hrest⟩
    | modified kind' amount' inner' tag' => cases hshape
  | .modified kind amount inner tag, q, rest, rest', hrest, hrest', h => by
    have hshape := shape_eq h
    cases q with
    | atom value' tag' => exact absurd hshape.symm (shape_atom_ne value' tag').2.2
    | operator op' args' tag' => cases hshape
    | group kind' children' cursor' tag' => cases hshape
    | modified kind' amount' inner' tag' =>
      have hword (kind : Modifier) : ∀ c ∈ kind.word.toList, (c != '(') = true := by
        cases kind <;> exact List.all_eq_true.1 (by decide)
      have hkinds : kind.word = kind'.word → kind = kind' := by
        cases kind <;> cases kind' <;> decide
      simp only [chars, List.cons_append, List.append_assoc] at h
      obtain ⟨hkind, h⟩ := word_append_inj (hword kind) (hword kind') h
      obtain ⟨hinner, h⟩ := chars_append_inj inner inner' (ends_cons rfl _) (ends_cons rfl _) h
      obtain ⟨hamount, h⟩ := chars_append_inj amount amount' (ends_cons rfl _) (ends_cons rfl _)
        (List.tail_eq_of_cons_eq h)
      obtain ⟨hgain, hrest⟩ :=
        gainChars_append_inj hrest hrest' (List.tail_eq_of_cons_eq h)
      rw [erased, erased, hkinds hkind, hinner, hamount, hgain]
      exact ⟨rfl, hrest⟩

theorem charsList_append_inj (kind : Grouping) : ∀ (ps qs : List Pattern) {rest rest' : List Char},
    charsList ps ++ kind.brackets.2 :: rest = charsList qs ++ kind.brackets.2 :: rest' →
      erasedAll ps = erasedAll qs ∧ rest = rest'
  | [], [], _, _, h => ⟨rfl, List.tail_eq_of_cons_eq h⟩
  | [], q :: qs, rest, rest', h => by
    have hshape := congrArg shape? h
    rw [charsList, charsList, List.nil_append, List.append_assoc, shape?_closer,
      shape?_chars_append] at hshape
    cases hshape
  | p :: ps, [], rest, rest', h => by
    have hshape := congrArg shape? h
    rw [charsList, charsList, List.nil_append, List.append_assoc, shape?_closer,
      shape?_chars_append] at hshape
    cases hshape
  | p :: ps, q :: qs, rest, rest', h => by
    rw [charsList, charsList, List.append_assoc, List.append_assoc] at h
    obtain ⟨hfirst, h⟩ := chars_append_inj p q (ends_charsMore (isEnd_closer kind) ps rest)
      (ends_charsMore (isEnd_closer kind) qs rest') h
    obtain ⟨hothers, hrest⟩ := charsMore_append_inj kind ps qs h
    rw [erasedAll, erasedAll, hfirst, hothers]
    exact ⟨rfl, hrest⟩

theorem charsMore_append_inj (kind : Grouping) : ∀ (ps qs : List Pattern) {rest rest' : List Char},
    charsMore ps ++ kind.brackets.2 :: rest = charsMore qs ++ kind.brackets.2 :: rest' →
      erasedAll ps = erasedAll qs ∧ rest = rest'
  | [], [], _, _, h => ⟨rfl, List.tail_eq_of_cons_eq h⟩
  | [], q :: qs, _, _, h => absurd (List.head_eq_of_cons_eq h) (closer_ne_comma kind)
  | p :: ps, [], _, _, h => absurd (List.head_eq_of_cons_eq h).symm (closer_ne_comma kind)
  | p :: ps, q :: qs, rest, rest', h => by
    simp only [charsMore, List.cons_append, List.append_assoc, List.cons.injEq, true_and] at h
    obtain ⟨hfirst, h⟩ := chars_append_inj p q (ends_charsMore (isEnd_closer kind) ps rest)
      (ends_charsMore (isEnd_closer kind) qs rest') h
    obtain ⟨hothers, hrest⟩ := charsMore_append_inj kind ps qs h
    rw [erasedAll, erasedAll, hfirst, hothers]
    exact ⟨rfl, hrest⟩

end

end Pattern

namespace Sound

variable {β : Type}

/-- Two sounds have the same signature exactly if they have the same waveform and their patterns are
the same up to spans and turns. Floats are the same if their bits are, and there is one NaN. -/
theorem signature_eq_iff (v w : Waveform) (p q : Pattern) :
    (ofCommand ⟨v, p⟩ : Sound β).signature = (ofCommand ⟨w, q⟩ : Sound β).signature ↔
      v = w ∧ p.erased = q.erased := by
  have hchars (v : Waveform) (p : Pattern) :
      (ofCommand ⟨v, p⟩ : Sound β).signature.toList = p.chars ++ ':' :: v.word.toList := by
    simp [ofCommand, Pattern.signature, Pattern.toList_sign]
  rw [← String.toList_inj, hchars, hchars]
  constructor
  · intro h
    obtain ⟨hpattern, hword⟩ := Pattern.chars_append_inj p q (Pattern.ends_cons rfl _)
      (Pattern.ends_cons rfl _) h
    have hwaveform : Waveform.ofWord? v.word = Waveform.ofWord? w.word := by
      rw [String.toList_inj.1 (List.tail_eq_of_cons_eq hword)]
    rw [Waveform.ofWord?_word, Waveform.ofWord?_word] at hwaveform
    exact ⟨Option.some.inj hwaveform, hpattern⟩
  · rintro ⟨rfl, hpattern⟩
    rw [← Pattern.chars_erased p, hpattern, Pattern.chars_erased]

end Sound

end PatternSynth
