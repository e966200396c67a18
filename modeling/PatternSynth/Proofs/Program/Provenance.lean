import PatternSynth.Proofs.Program.Effect

/-!
# Where the parts of a compiled pattern come from

A pattern is `Over` some atoms and some spans if its literals are among the atoms and the spans of
all its nodes are among the spans. Whatever the machine makes of patterns is over the same atoms and
spans as these, the literal of the token and the span of the token. So everything in a compiled
program comes from a token of its source (`over_compile`), and so does the place of an error.
-/

namespace PatternSynth

namespace Pattern

variable {A : Atom → Prop} {S : Span → Prop}

mutual

/-- The literals of the pattern are such atoms, and its nodes have such spans. -/
def Over (A : Atom → Prop) (S : Span → Prop) : Pattern → Prop
  | atom value tag => A value ∧ ∀ s ∈ tag.spans, S s
  | operator _ args tag => OverAll A S args ∧ ∀ s ∈ tag.spans, S s
  | group _ children _ tag => OverAll A S children ∧ ∀ s ∈ tag.spans, S s
  | modified _ amount inner tag => amount.Over A S ∧ inner.Over A S ∧ ∀ s ∈ tag.spans, S s

/-- All of the patterns are over such atoms and spans. -/
def OverAll (A : Atom → Prop) (S : Span → Prop) : List Pattern → Prop
  | [] => True
  | p :: ps => p.Over A S ∧ OverAll A S ps

end

theorem overAll_iff {ps : List Pattern} : OverAll A S ps ↔ ∀ p ∈ ps, p.Over A S := by
  induction ps with
  | nil => simp [OverAll]
  | cons p ps ih => simp [OverAll, ih]

theorem Over.spans {p : Pattern} (h : p.Over A S) : ∀ s ∈ p.spans, S s := by
  cases p with
  | atom => exact h.2
  | operator => exact h.2
  | group => exact h.2
  | modified => exact h.2.2

theorem over_scaleGain {p : Pattern} (h : p.Over A S) (factor : Float) :
    (p.scaleGain factor).Over A S := by
  cases p with
  | atom => exact h
  | operator => exact h
  | group => exact h
  | modified => exact h

theorem over_scalarOperator (op : Operator) {args : List Pattern} {keyword : Span}
    (hargs : ∀ p ∈ args, p.Over A S) (hkeyword : S keyword) :
    (scalarOperator op args keyword).Over A S := by
  refine ⟨overAll_iff.2 hargs, ?_⟩
  intro s hs
  rcases List.mem_append.1 hs with hs | hs
  · obtain ⟨p, hp, hs⟩ := List.mem_flatMap.1 hs
    exact (hargs p hp).spans s hs
  · exact List.mem_singleton.1 hs ▸ hkeyword

/-- Distributing an operator copies atoms and spans of the operands, and adds the keyword. -/
theorem over_distribute (op : Operator) {keyword : Span} (hkeyword : S keyword)
    {settled operands : List Pattern} (hsettled : ∀ p ∈ settled, p.Over A S)
    (hoperands : ∀ p ∈ operands, p.Over A S) :
    (distribute op keyword settled operands).Over A S := by
  fun_induction distribute op keyword settled operands with
  | case1 settled =>
    exact over_scalarOperator op (fun p hp => hsettled p (List.mem_reverse.1 hp)) hkeyword
  | case2 settled kind children cursor tag rest hkind ih =>
    obtain ⟨⟨hchildren, htag⟩, hrest⟩ := List.forall_mem_cons.1 hoperands
    refine ⟨overAll_iff.2 ?_, htag⟩
    intro q hq
    obtain ⟨child, hchild, rfl⟩ := List.mem_map.1 hq
    exact ih child hchild hsettled
      (List.forall_mem_cons.2 ⟨overAll_iff.1 hchildren child hchild, hrest⟩)
  | case3 settled kind children cursor tag rest hkind ih =>
    obtain ⟨hgroup, hrest⟩ := List.forall_mem_cons.1 hoperands
    exact ih (List.forall_mem_cons.2 ⟨hgroup, hsettled⟩) hrest
  | case4 settled p rest hp ih =>
    obtain ⟨hfirst, hrest⟩ := List.forall_mem_cons.1 hoperands
    exact ih (List.forall_mem_cons.2 ⟨hfirst, hsettled⟩) hrest

/-- What a token makes of patterns is over their atoms and spans, its own literal and its span. -/
theorem over_of_made {token : Token} {old : List Pattern} {p : Pattern} (hmade : Made token old p)
    (hliteral : ∀ value, token.literal? = some value → A value) (hspan : S token.span)
    (hold : ∀ q ∈ old, q.Over A S) : p.Over A S := by
  cases hmade with
  | @literal value hvalue => exact ⟨hliteral value hvalue, List.forall_mem_singleton.2 hspan⟩
  | copy hp => exact hold p hp
  | collect kind hps =>
    exact ⟨overAll_iff.2 fun q hq => hold q (hps hq), List.forall_mem_nil _⟩
  | @modify kind amount inner hamount hinner =>
    exact ⟨hold amount hamount, hold inner hinner,
      List.forall_mem_cons.2 ⟨hspan, (hold amount hamount).spans⟩⟩
  | degenerate op => exact ⟨trivial, List.forall_mem_singleton.2 hspan⟩
  | operate op hargs =>
    exact over_distribute op hspan (List.forall_mem_nil _) fun q hq => hold q (hargs hq)

end Pattern

namespace Machine

variable {A : Atom → Prop} {S : Span → Prop}

/-- All patterns that the machine keeps are over such atoms and spans. -/
def Over (A : Atom → Prop) (S : Span → Prop) (m : Machine) : Prop :=
  ∀ p ∈ m.patterns, p.Over A S

theorem Over.effect {token : Token} {m m' : Machine} (h : m.Over A S)
    (hliteral : ∀ value, token.literal? = some value → A value) (hspan : S token.span)
    (heffect : Effect token m m') : m'.Over A S := by
  intro q hq
  cases heffect with
  | moved _ hkept => exact h q (hkept.subset hq)
  | @scaled factor p rest _ hold hkept =>
    rcases List.mem_cons.1 (hkept.subset hq) with rfl | hq
    · exact Pattern.over_scaleGain (h p (hold.subset List.mem_cons_self)) factor
    · exact h q (hold.subset (List.mem_cons_of_mem _ hq))
  | made hmade _ _ _ hkept =>
    rcases List.mem_cons.1 (hkept.subset hq) with rfl | hq
    · exact Pattern.over_of_made hmade hliteral hspan h
    · exact h q hq

end Machine

/-- A compile makes programs over the literals and the spans of the source's tokens, and it fails at
one of these tokens. -/
theorem over_compile {A : Atom → Prop} {S : Span → Prop} (mode : Mode) (tempo : Float)
    (source : String)
    (hliterals : ∀ token ∈ Token.tokenize source, ∀ value, token.literal? = some value → A value)
    (hspans : ∀ token ∈ Token.tokenize source, S token.span) :
    match compile mode tempo source with
    | .ok program => ∀ p ∈ program.patterns, p.Over A S
    | .error e => ∃ token ∈ Token.tokenize source, e.span = token.span := by
  have hmeets := meets_compileTrace (P := Machine.Over A S) mode tempo source
    (fun token m m' htoken hm heffect =>
      hm.effect (hliterals token htoken) (hspans token htoken) heffect)
    (fun _ _ _ hm => hm) (fun p hp => (List.not_mem_nil hp).elim)
  cases hcompile : compile mode tempo source with
  | error e => exact hmeets.fail hcompile
  | ok program =>
    obtain ⟨m, hm, rfl⟩ := hmeets.finish hcompile
    exact hm

end PatternSynth
