import PatternSynth.Text.Quoted

/-!
# Quoted text can be read back

`unescape` reads the character at the front of quoted text, and none at the closing quote. So a
quoted text determines both the text and what follows it (`quoted_append_inj`).
-/

namespace PatternSynth.Text

/-! ## Hexadecimal numbers -/

/-- The value of a hexadecimal digit. -/
def hexDigit (c : Char) : Nat :=
  if c.isDigit then c.toNat - '0'.toNat else c.toNat - 'a'.toNat + 10

/-- The value of a row of hexadecimal digits. -/
def ofHex (ds : List Char) : Nat :=
  ds.foldl (fun n d => 16 * n + hexDigit d) 0

theorem hexDigit_digitChar : ∀ n < 16, hexDigit n.digitChar = n := by
  decide

theorem ofHex_toDigits (n : Nat) : ofHex (Nat.toDigits 16 n) = n := by
  induction n using Nat.strongRecOn with
  | ind n ih =>
    rw [Nat.toDigits_eq_if (by decide)]
    split
    · next hlt => simp [ofHex, hexDigit_digitChar n hlt]
    · next hge =>
      have hrest := ih (n / 16) (by omega)
      unfold ofHex at hrest ⊢
      rw [List.foldl_append, hrest, List.foldl_cons, List.foldl_nil,
        hexDigit_digitChar _ (Nat.mod_lt n (by decide))]
      omega

theorem ne_brace_of_mem_toDigits (n : Nat) : ∀ c ∈ Nat.toDigits 16 n, (c != '\x7d') = true := by
  have hdigit : ∀ n < 16, (n.digitChar != '\x7d') = true := by decide
  induction n using Nat.strongRecOn with
  | ind n ih =>
    rw [Nat.toDigits_eq_if (by decide)]
    split
    · next hlt => exact List.forall_mem_singleton.2 (hdigit n hlt)
    · next hge =>
      rw [List.forall_mem_append]
      exact ⟨ih (n / 16) (by omega),
        List.forall_mem_singleton.2 (hdigit _ (Nat.mod_lt n (by decide)))⟩

/-! ## Reading quoted text -/

/-- The character of an escape, after its backslash. -/
def unescapeCode : List Char → Option (Char × List Char)
  | '"' :: cs => some ('"', cs)
  | '\\' :: cs => some ('\\', cs)
  | '0' :: cs => some ('\x00', cs)
  | 't' :: cs => some ('\t', cs)
  | 'n' :: cs => some ('\n', cs)
  | 'r' :: cs => some ('\r', cs)
  | 'u' :: _ :: cs =>
    some (Char.ofNat (ofHex (cs.takeWhile (· != '\x7d'))), (cs.dropWhile (· != '\x7d')).tail)
  | _ => none

/-- The character at the front of quoted text, unless the text ends there. -/
def unescape : List Char → Option (Char × List Char)
  | [] => none
  | c :: cs => if c = '"' then none else if c = '\\' then unescapeCode cs else some (c, cs)

theorem unescape_escapeCode (c : Char) (rest : List Char) :
    unescape (escapeCode c ++ rest) = some (c, rest) := by
  have htext : escapeCode c ++ rest =
      '\\' :: 'u' :: '\x7b' :: (Nat.toDigits 16 c.toNat ++ '\x7d' :: rest) := by
    simp [escapeCode]
  have hdigits := ne_brace_of_mem_toDigits c.toNat
  rw [htext, unescape, if_neg (by decide), if_pos rfl]
  simp [unescapeCode, List.takeWhile_append_of_pos hdigits, List.dropWhile_append_of_pos hdigits,
    ofHex_toDigits]

theorem unescape_quotedChar (c : Char) (rest : List Char) :
    unescape (quotedChar c ++ rest) = some (c, rest) := by
  unfold quotedChar
  split
  · rfl
  · rfl
  · rfl
  · rfl
  · rfl
  · rfl
  · next hquote hbackslash _ _ _ _ =>
    split
    · exact unescape_escapeCode c rest
    · rw [List.singleton_append, unescape, if_neg hquote, if_neg hbackslash]

theorem flatMap_quotedChar_inj {cs cs' rest rest' : List Char}
    (h : cs.flatMap quotedChar ++ '"' :: rest = cs'.flatMap quotedChar ++ '"' :: rest') :
    cs = cs' ∧ rest = rest' := by
  induction cs generalizing cs' with
  | nil =>
    cases cs' with
    | nil => exact ⟨rfl, List.tail_eq_of_cons_eq h⟩
    | cons c' cs' =>
      have hread := congrArg unescape h
      rw [List.flatMap_cons, List.append_assoc, unescape_quotedChar] at hread
      cases hread
  | cons c cs ih =>
    have hread := congrArg unescape h
    rw [List.flatMap_cons, List.append_assoc, unescape_quotedChar] at hread
    cases cs' with
    | nil => cases hread
    | cons c' cs' =>
      rw [List.flatMap_cons, List.append_assoc, unescape_quotedChar] at hread
      obtain ⟨rfl, hrest⟩ := Prod.mk.inj (Option.some.inj hread)
      obtain ⟨rfl, rfl⟩ := ih hrest
      exact ⟨rfl, rfl⟩

/-- A quoted text determines the text, and what follows it. -/
theorem quoted_append_inj {s s' : String} {rest rest' : List Char}
    (h : (quoted s).toList ++ rest = (quoted s').toList ++ rest') : s = s' ∧ rest = rest' := by
  simp only [quoted, String.toList_ofList, List.cons_append, List.append_assoc, List.cons.injEq,
    true_and] at h
  obtain ⟨hs, hrest⟩ := flatMap_quotedChar_inj h
  exact ⟨String.toList_inj.1 hs, hrest⟩

end PatternSynth.Text
