import PatternSynth.Proofs.Program.Flatten

/-!
# The states that a run passes through

`Machine.trace` runs tokens as `Machine.run` does and keeps every state on the way, also where the
run fails in the end (`outcome_trace`). What performing one token preserves holds in all of these
states (`meets_trace`); this is the induction behind every invariant of the machine.
-/

namespace PatternSynth

/-- An outcome that is good in either case: the machine it leaves, or the error it ends with. -/
def Meets (P : Machine → Prop) (E : CompileError → Prop) : Except CompileError Machine → Prop
  | .ok m => P m
  | .error e => E e

theorem Meets.imp {P Q : Machine → Prop} {E F : CompileError → Prop}
    {r : Except CompileError Machine} (h : Meets P E r) (hPQ : ∀ m, P m → Q m)
    (hEF : ∀ e, E e → F e) : Meets Q F r := by
  cases r with
  | ok m => exact hPQ m h
  | error e => exact hEF e h

/-- The states that the machine passes through, and how it ends. -/
structure Trace where
  states : List Machine
  outcome : Except CompileError Machine

namespace Trace

/-- One step, and the state after it. -/
def step (r : Except CompileError Machine) : Trace :=
  match r with
  | .ok m => ⟨[m], .ok m⟩
  | .error e => ⟨[], .error e⟩

/-- Go on from where a trace ends, unless it ends with an error. -/
def andThen (t : Trace) (f : Machine → Trace) : Trace :=
  match t.outcome with
  | .ok m => ⟨t.states ++ (f m).states, (f m).outcome⟩
  | .error e => ⟨t.states, .error e⟩

theorem outcome_step (r : Except CompileError Machine) : (step r).outcome = r := by
  cases r <;> rfl

theorem outcome_andThen (t : Trace) (f : Machine → Trace) :
    (t.andThen f).outcome = t.outcome.bind fun m => (f m).outcome := by
  rw [andThen]
  cases t.outcome <;> rfl

/-- A trace that starts in `m` and succeeds ends in `m` or in one of its states. -/
def EndsFrom (m : Machine) (t : Trace) : Prop :=
  ∀ m', t.outcome = .ok m' → m' ∈ m :: t.states

theorem endsFrom_step (m : Machine) (r : Except CompileError Machine) : (step r).EndsFrom m := by
  intro m' hm'
  rw [outcome_step] at hm'
  rw [hm']
  exact List.mem_cons_of_mem m (List.mem_singleton.2 rfl)

theorem EndsFrom.andThen {m : Machine} {t : Trace} {f : Machine → Trace} (h : t.EndsFrom m)
    (hf : ∀ m', (f m').EndsFrom m') : (t.andThen f).EndsFrom m := by
  intro m'' hm''
  rw [Trace.andThen] at hm'' ⊢
  cases hend : t.outcome with
  | error e =>
    rw [hend] at hm''
    cases hm''
  | ok m' =>
    rw [hend] at hm''
    rcases List.mem_cons.1 (hf m' m'' hm'') with rfl | hstates
    · exact List.mem_append_left (f m'').states (h m'' hend)
    · exact List.mem_append_right (m :: t.states) hstates

/-- All states of a trace are good, and so is its end. -/
def Meets (P : Machine → Prop) (E : CompileError → Prop) (t : Trace) : Prop :=
  (∀ m ∈ t.states, P m) ∧ PatternSynth.Meets P E t.outcome

variable {P Q : Machine → Prop} {E F : CompileError → Prop}

theorem Meets.imp {t : Trace} (h : t.Meets P E) (hPQ : ∀ m, P m → Q m) (hEF : ∀ e, E e → F e) :
    t.Meets Q F :=
  ⟨fun m hm => hPQ m (h.1 m hm), h.2.imp hPQ hEF⟩

theorem meets_step {r : Except CompileError Machine} (h : PatternSynth.Meets P E r) :
    (step r).Meets P E := by
  cases r with
  | ok m => exact ⟨fun s hs => List.mem_singleton.1 hs ▸ h, h⟩
  | error e => exact ⟨fun s hs => (List.not_mem_nil hs).elim, h⟩

theorem Meets.andThen {t : Trace} {f : Machine → Trace} (h : t.Meets P E)
    (hf : ∀ m, P m → (f m).Meets P E) : (t.andThen f).Meets P E := by
  obtain ⟨hstates, houtcome⟩ := h
  rw [Trace.andThen]
  cases hend : t.outcome with
  | error e =>
    rw [hend] at houtcome
    exact ⟨hstates, houtcome⟩
  | ok m =>
    rw [hend] at houtcome
    obtain ⟨hstates', houtcome'⟩ := hf m houtcome
    exact ⟨List.forall_mem_append.2 ⟨hstates, hstates'⟩, houtcome'⟩

end Trace

namespace Machine

/-- Run tokens and keep every state after the first one. -/
def trace (mode : Mode) (levels : Nat) (tokens : List Token) (m : Machine) : Trace :=
  match tokens with
  | [] => ⟨[], .ok m⟩
  | token :: rest =>
    (Trace.step (m.enter levels token.span)).andThen fun entered =>
      match token.role entered.definitions with
      | .performed => (Trace.step (entered.perform mode token)).andThen (trace mode levels rest)
      | .definition =>
        let read := readDefinition entered.definitions rest
        (Trace.step (.ok { entered with definitions := read.2 })).andThen
          (trace mode levels read.1)
      | .call s body =>
        match levels with
        | 0 => .step (.error ⟨.callDepth s, token.span⟩)
        | fewer + 1 => (trace mode fewer body entered).andThen (trace mode (fewer + 1) rest)
termination_by (levels, tokens.length)
decreasing_by
  · exact .right _ (Nat.lt_succ_self _)
  · exact .right _ (Nat.lt_succ_of_le (length_readDefinition_le entered.definitions rest))
  · exact .left _ _ (Nat.lt_succ_self _)
  · exact .right _ (Nat.lt_succ_self _)

/-- A trace ends as the run does. -/
theorem outcome_trace (mode : Mode) (levels : Nat) (tokens : List Token) (m : Machine) :
    (trace mode levels tokens m).outcome = run mode levels tokens m := by
  induction levels, tokens, m using trace.induct with
  | case1 => rw [trace, run_nil]
  | case2 levels m token rest ihrest ihafter ihcall =>
    rw [trace, run_cons, Trace.outcome_andThen, Trace.outcome_step]
    congr 1
    funext entered
    cases token.role entered.definitions with
    | performed => simp only [Trace.outcome_andThen, Trace.outcome_step, ihrest]
    | definition =>
      simp only [Trace.outcome_andThen, Trace.outcome_step]
      exact ihafter entered _
    | call s body =>
      have hcall := ihcall entered body
      cases levels with
      | zero => rfl
      | succ fewer => simp only [Trace.outcome_andThen, hcall.1, hcall.2]

/-- A run that succeeds ends in a state that its trace passes through. -/
theorem endsFrom_trace (mode : Mode) (levels : Nat) (tokens : List Token) (m : Machine) :
    (trace mode levels tokens m).EndsFrom m := by
  induction levels, tokens, m using trace.induct with
  | case1 levels m =>
    rw [trace]
    exact fun m' hm' => List.mem_singleton.2 (Except.ok.inj hm').symm
  | case2 levels m token rest ihrest ihafter ihcall =>
    rw [trace]
    refine (Trace.endsFrom_step m _).andThen fun entered => ?_
    cases token.role entered.definitions with
    | performed => exact (Trace.endsFrom_step entered _).andThen ihrest
    | definition => exact (Trace.endsFrom_step entered _).andThen (ihafter entered)
    | call s body =>
      have ih := ihcall entered body
      cases levels with
      | zero => exact Trace.endsFrom_step entered _
      | succ fewer => exact ih.1.andThen ih.2

/-! ## Invariants -/

/-- The bodies of all definitions consist of such tokens. -/
def BodiesFrom (S : Token → Prop) (definitions : Definitions) : Prop :=
  ∀ (name : String) (body : List Token), definitions[name]? = some body → ∀ token ∈ body, S token

theorem bodiesFrom_empty (S : Token → Prop) : BodiesFrom S ∅ := by
  intro name body hbody
  rw [Std.HashMap.getElem?_empty] at hbody
  cases hbody

/-- Reading a definition leaves tokens and bodies of the same sort. -/
theorem BodiesFrom.readDefinition {S : Token → Prop} {definitions : Definitions}
    {tokens : List Token} (h : BodiesFrom S definitions) (htokens : ∀ token ∈ tokens, S token) :
    (∀ token ∈ (readDefinition definitions tokens).1, S token) ∧
      BodiesFrom S (readDefinition definitions tokens).2 := by
  cases tokens with
  | nil => exact ⟨htokens, h⟩
  | cons name after =>
    obtain ⟨-, hafter⟩ := List.forall_mem_cons.1 htokens
    refine ⟨fun token htoken => hafter token (List.mem_of_mem_drop htoken), ?_⟩
    intro other body hbody token htoken
    simp only [PatternSynth.readDefinition, Std.HashMap.getElem?_insert] at hbody
    split at hbody
    · obtain rfl := Option.some.inj hbody
      exact hafter token ((List.takeWhile_prefix _).subset htoken)
    · exact h other body hbody token htoken

theorem BodiesFrom.of_role {S : Token → Prop} {definitions : Definitions} {token : Token}
    {name : String} {body : List Token} (h : BodiesFrom S definitions)
    (hrole : token.role definitions = .call name body) : ∀ token ∈ body, S token := by
  rw [Token.role] at hrole
  split at hrole
  · cases hrole
  · cases hrole
  · cases hrole
  · split at hrole
    · cases hrole
    · rename_i hbody
      cases hrole
      exact h name body hbody

/-- Performing a token leaves the definitions alone. -/
theorem definitions_perform {mode : Mode} {m m' : Machine} {token : Token}
    (h : m.perform mode token = .ok m') : m'.definitions = m.definitions := by
  have htable := perform_withTable m.definitions m.expanded m mode token
  have hself : m.withTable m.definitions m.expanded = m := rfl
  rw [hself, h] at htable
  have hm' : m' = m'.withTable m.definitions m.expanded := Except.ok.inj htable
  rw [hm']
  rfl

/-- What performing a token preserves, and what does not depend on the table of definitions, holds
in every state that a run passes through. `S` tells which tokens there are, and `E` what is known
of the error that a run may end with. -/
theorem meets_trace {S : Token → Prop} {P : Machine → Prop} {E : CompileError → Prop} {mode : Mode}
    (hperform : ∀ token m, S token → P m → Meets P E (m.perform mode token))
    (htable : ∀ definitions expanded m, P m → P (m.withTable definitions expanded))
    (hexpanded : ∀ token, S token → E ⟨.expandedTokens, token.span⟩)
    (hcall : ∀ token name, S token → E ⟨.callDepth name, token.span⟩)
    {levels : Nat} {tokens : List Token} {m : Machine} (htokens : ∀ token ∈ tokens, S token)
    (hm : P m) (hbodies : BodiesFrom S m.definitions) :
    (trace mode levels tokens m).Meets (fun m => P m ∧ BodiesFrom S m.definitions) E := by
  induction levels, tokens, m using trace.induct with
  | case1 levels m =>
    rw [trace]
    exact ⟨fun s hs => (List.not_mem_nil hs).elim, hm, hbodies⟩
  | case2 levels m token rest ihrest ihafter ihcall =>
    obtain ⟨htoken, hrest⟩ := List.forall_mem_cons.1 htokens
    have henter : Meets (fun m => P m ∧ BodiesFrom S m.definitions) E
        (m.enter levels token.span) := by
      rw [enter]
      split
      · rw [expand]
        split
        · exact hexpanded token htoken
        · exact ⟨htable _ _ m hm, hbodies⟩
      · exact ⟨hm, hbodies⟩
    rw [trace]
    refine (Trace.meets_step henter).andThen ?_
    rintro entered ⟨hentered, hbodies⟩
    cases hrole : token.role entered.definitions with
    | performed =>
      have hnext : Meets (fun m => P m ∧ BodiesFrom S m.definitions) E
          (entered.perform mode token) := by
        have hgood := hperform token entered htoken hentered
        cases hresult : entered.perform mode token with
        | error e => rwa [hresult] at hgood
        | ok m' =>
          rw [hresult] at hgood
          exact ⟨hgood, definitions_perform hresult ▸ hbodies⟩
      refine (Trace.meets_step hnext).andThen ?_
      rintro m' ⟨hm', hbodies'⟩
      exact ihrest m' hrest hm' hbodies'
    | definition =>
      obtain ⟨hafter, hbodies'⟩ := hbodies.readDefinition hrest
      refine (Trace.meets_step ?_).andThen ?_
      · exact ⟨htable _ _ entered hentered, hbodies'⟩
      · rintro m' ⟨hm', hbodies''⟩
        exact ihafter entered m' hafter hm' hbodies''
    | call name body =>
      have ih := ihcall entered body
      cases levels with
      | zero => exact Trace.meets_step (hcall token name htoken)
      | succ fewer =>
        refine (ih.1 (hbodies.of_role hrole) hentered hbodies).andThen ?_
        rintro m' ⟨hm', hbodies'⟩
        exact ih.2 m' hrest hm' hbodies'

end Machine

end PatternSynth
