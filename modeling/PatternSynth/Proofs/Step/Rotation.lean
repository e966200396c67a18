import PatternSynth.Proofs.Step.Notes
import PatternSynth.Proofs.Step.Turns
import PatternSynth.Proofs.Tree.Slots

/-!
# Playing changes nothing but turns

However a score is pulled, its cursors are those it started with after some turns of its cycles
(`Cursors.Turned`, `Player.Plays.pulled`). So its slots stay as they are, except for the cursors
of cycles with children (`Slot.settled`), and the pattern read from them is the one that was
prepared, up to those cursors (`Pattern.settled`).
-/

namespace PatternSynth

open Cursors

/-! ## Turns of some of the nodes -/

namespace Cursors

variable {nodes nodes' : List Tree} {c d e : Cursors}

/-- The second cursors are the first ones after some turns of cycles among these nodes. -/
def Turned (nodes : List Tree) (c d : Cursors) : Prop :=
  ∃ entered : List Tree, entered ⊆ nodes.filter Tree.takesTurns ∧ entered.foldl enter c = d

theorem Turned.refl (nodes : List Tree) (c : Cursors) : Turned nodes c c :=
  ⟨[], List.nil_subset _, rfl⟩

theorem Turned.trans (h : Turned nodes c d) (h' : Turned nodes d e) : Turned nodes c e := by
  obtain ⟨first, hfirst, rfl⟩ := h
  obtain ⟨second, hsecond, rfl⟩ := h'
  exact ⟨first ++ second, List.append_subset.2 ⟨hfirst, hsecond⟩, List.foldl_append⟩

theorem Turned.mono (h : Turned nodes c d) (hsub : nodes ⊆ nodes') : Turned nodes' c d := by
  obtain ⟨entered, hentered, rfl⟩ := h
  exact ⟨entered, List.Subset.trans hentered (List.filter_subset _ hsub), rfl⟩

theorem turned_turn (c : Cursors) {id : Nat} {t : Tree} {ts : List Tree} {tag : Tag}
    (hmem : .group id .cycle (t :: ts) tag ∈ nodes) :
    Turned nodes c (c.turn id (t :: ts).length).2 :=
  ⟨[.group id .cycle (t :: ts) tag],
    List.cons_subset.2 ⟨List.mem_filter.2 ⟨hmem, rfl⟩, List.nil_subset _⟩, rfl⟩

/-- A number that belongs to no cycle keeps its cursor. -/
theorem Turned.read_eq (h : Turned nodes c d) {id : Nat}
    (hid : ∀ node ∈ nodes, node.takesTurns = true → node.id ≠ id) : d.read id = c.read id := by
  obtain ⟨entered, hentered, rfl⟩ := h
  have hnot : id ∉ entered.map Tree.id := by
    intro hmem
    obtain ⟨node, hnode, rfl⟩ := List.mem_map.1 hmem
    obtain ⟨hmem, hturns⟩ := List.mem_filter.1 (hentered hnode)
    exact hid node hmem hturns rfl
  simp only [read, Array.getD_eq_getD_getElem?, getElem?_foldl_enter hnot]

end Cursors

/-! ## Visits -/

namespace Visit

variable {β : Type} [Beats β] (timing : ChordTiming β) (env : Env)

theorem turned_proceed {nodes : List Tree} {duration : β} {gain : Float} {spans : List Span}
    {rest : List Tree} {before after : Cursors} (progress : Progress β)
    (hprogress : Turned nodes before after)
    (hrest : Turned nodes after (startFirst timing env spans duration gain after rest).2) :
    Turned nodes before (proceed timing env duration gain spans rest progress after).2 := by
  rcases progress with _ | ⟨step, v⟩
  · exact hprogress.trans hrest
  · exact hprogress

mutual

theorem turned_start (duration : β) (gain : Float) (cursors : Cursors) :
    ∀ t : Tree, Turned t.nodes cursors (start timing env duration gain cursors t).2
  | .leaf .. => .refl _ _
  | .group _ _ [] _ => .refl _ _
  | .group _ .sequence (t :: ts) tag =>
    (turned_startFirst tag.spans _ (tag.innerGain gain) cursors (t :: ts)).mono
      (List.subset_append_left _ _)
  | .group id .cycle (t :: ts) tag => by
    rw [start_cycle]
    refine (turned_turn cursors (Tree.self_mem_nodes _)).trans ?_
    exact (turned_startNth duration (tag.innerGain gain) _ (t :: ts) _).mono
      (List.subset_append_left _ _)
  | .group _ .chord (t :: ts) tag =>
    (turned_startAll duration (tag.innerGain gain) cursors (t :: ts)).mono
      (List.subset_append_left _ _)
  | .modified _ kind amount inner tag => by
    rw [start_modified]
    exact (turned_start _ _ cursors inner).mono (List.subset_append_left _ _)

theorem turned_startFirst (spans : List Span) (duration : β) (gain : Float) (cursors : Cursors) :
    ∀ ts : List Tree, Turned (Tree.nodesAll ts) cursors
      (startFirst timing env spans duration gain cursors ts).2
  | [] => .refl _ _
  | t :: ts => by
    rw [startFirst_cons]
    exact turned_proceed timing env _
      ((turned_start duration gain cursors t).mono (List.subset_append_left _ _))
      ((turned_startFirst spans duration gain _ ts).mono (List.subset_append_right _ _))

theorem turned_startNth (duration : β) (gain : Float) (cursors : Cursors) :
    ∀ (ts : List Tree) (index : Nat), Turned (Tree.nodesAll ts) cursors
      (startNth timing env duration gain cursors ts index).2
  | [], _ => .refl _ _
  | t :: _, 0 => (turned_start duration gain cursors t).mono (List.subset_append_left _ _)
  | _ :: ts, index + 1 =>
    (turned_startNth duration gain cursors ts index).mono (List.subset_append_right _ _)

theorem turned_startAll (duration : β) (gain : Float) (cursors : Cursors) :
    ∀ ts : List Tree, Turned (Tree.nodesAll ts) cursors
      (startAll timing env duration gain cursors ts).2
  | [] => .refl _ _
  | t :: ts => by
    rw [startAll_cons]
    exact ((turned_start duration gain cursors t).mono (List.subset_append_left _ _)).trans
      ((turned_startAll duration gain _ ts).mono (List.subset_append_right _ _))

end

mutual

theorem turned_next (cursors : Cursors) : ∀ {nodes : List Tree} (v : Visit β),
    v.DrawsFrom nodes → Turned nodes cursors (next timing env cursors v).2
  | _, done, _ => .refl _ _
  | _, within _ inner, h => turned_next cursors inner h
  | _, sequence spans gain duration rest current, ⟨hcurrent, hrest⟩ => by
    rw [next_sequence]
    exact turned_proceed timing env _ (turned_next cursors current hcurrent)
      ((turned_startFirst timing env spans duration gain _ rest).mono hrest.subset)
  | _, chord _ elapsed tracks, h => turned_advanceAll elapsed cursors tracks h

theorem turned_advance (elapsed : β) (cursors : Cursors) : ∀ {nodes : List Tree} (t : Track β),
    t.DrawsFrom nodes → Turned nodes cursors (t.advance timing env elapsed cursors).2
  | _, .finished, _ => .refl _ _
  | _, .sounding held remaining visit, h => by
    by_cases hdue : Beats.le (remaining - elapsed) timing.epsilon = true
    · simp only [Track.advance, if_pos hdue]
      exact turned_next cursors visit h.2
    · simp only [Track.advance, if_neg hdue]
      exact .refl _ _

theorem turned_advanceAll (elapsed : β) (cursors : Cursors) : ∀ {nodes : List Tree}
    (ts : List (Track β)), Track.AllDrawFrom nodes ts →
      Turned nodes cursors (advanceAll timing env elapsed cursors ts).2
  | _, [], _ => .refl _ _
  | _, t :: ts, ⟨own, others, hparts, ht, hts⟩ => by
    rw [Track.advanceAll_cons]
    have hboth := List.append_subset.1 hparts.subset
    exact ((turned_advance elapsed cursors t ht).mono hboth.1).trans
      ((turned_advanceAll elapsed _ ts hts).mono hboth.2)

end

end Visit

/-! ## Players -/

namespace Player

variable {β : Type} {p : Player β} {s : Score}

/-- A player in the course of playing a score: its tree is that of the score, and its cursors are
those of the score after some turns. -/
structure Plays (s : Score) (p : Player β) : Prop where
  faithful : p.Faithful
  tree : p.score.tree = s.tree
  turned : Turned s.tree.nodes s.cursors p.score.cursors

theorem Faithful.plays (h : p.Faithful) : p.Plays p.score :=
  ⟨h, rfl, .refl _ _⟩

variable [Beats β]

theorem Faithful.turned_reply (h : p.Faithful) (timing : ChordTiming β) (env : Env) :
    Turned p.score.tree.nodes p.score.cursors (p.reply timing env).2 := by
  rw [Player.reply]
  split
  · exact Visit.turned_start timing env _ _ _ _
  · next v hv => exact Visit.turned_next timing env _ v (h.visit v hv)

theorem Plays.attempt (h : p.Plays s) (timing : ChordTiming β) (env : Env) :
    (p.attempt timing env).2.Plays s := by
  have hreply := h.faithful.turned_reply timing env
  rw [h.tree] at hreply
  refine ⟨(h.faithful.attempt timing env).1, (tree_of_attempt timing rfl).trans h.tree, ?_⟩
  rw [attempt_eq]
  exact h.turned.trans hreply

theorem Plays.next (h : p.Plays s) (timing : ChordTiming β) (env : Env) :
    (p.next timing env).2.Plays s := by
  have hattempt : ∀ q : Player β, q.Plays s → (q.attempt timing env).2.Plays s ∧
      ∀ step, (q.attempt timing env).1 = some step → True :=
    fun q hq => ⟨hq.attempt timing env, fun _ _ => trivial⟩
  exact (next_of_attempt timing hattempt trivial h).2

/-- A player after pulls, each with a timing and an environment of its own. -/
def pulled (p : Player β) (pulls : List (ChordTiming β × Env)) : Player β :=
  pulls.foldl (fun p pull => (p.next pull.1 pull.2).2) p

theorem Plays.pulled (h : p.Plays s) (pulls : List (ChordTiming β × Env)) :
    (p.pulled pulls).Plays s := by
  induction pulls generalizing p with
  | nil => exact h
  | cons pull pulls ih => exact ih (h.next pull.1 pull.2)

end Player

/-! ## Slots and patterns without turns -/

/-- The cursor of a group with so many children, as far as playing leaves it alone: that of a cycle
with children is dropped. -/
def Grouping.settled (kind : Grouping) (count : Nat) (cursor : UInt64) : UInt64 :=
  match kind, count with
  | .cycle, _ + 1 => 0
  | _, _ => cursor

/-- A slot without the cursor that playing changes. -/
def Slot.settled : Slot → Slot
  | .group kind children cursor tag =>
    .group kind children (kind.settled children.length cursor) tag
  | slot => slot

mutual

/-- A pattern without the cursors that playing changes. Operands and amounts are read only. -/
def Pattern.settled : Pattern → Pattern
  | .group kind children cursor tag =>
    .group kind (Pattern.settledAll children) (kind.settled children.length cursor) tag
  | .modified kind amount inner tag => .modified kind amount inner.settled tag
  | .atom value tag => .atom value tag
  | .operator op args tag => .operator op args tag

/-- Patterns without the cursors that playing changes. -/
def Pattern.settledAll : List Pattern → List Pattern
  | [] => []
  | p :: ps => p.settled :: Pattern.settledAll ps

end

namespace Tree

variable {c d : Cursors}

/-- These cursors are the same except where children take turns. -/
def SameBesidesTurns (nodes : List Tree) (c d : Cursors) : Prop :=
  ∀ t ∈ nodes, t.takesTurns = false → c.read t.id = d.read t.id

theorem SameBesidesTurns.mono {nodes nodes' : List Tree} (h : SameBesidesTurns nodes' c d)
    (hsub : nodes ⊆ nodes') : SameBesidesTurns nodes c d :=
  fun t ht => h t (hsub ht)

theorem settled_congr {id : Nat} {kind : Grouping} {ts : List Tree} {tag : Tag} {a b : UInt64}
    (h : (group id kind ts tag).takesTurns = false → a = b) :
    kind.settled ts.length a = kind.settled ts.length b := by
  cases kind with
  | sequence | chord => exact h rfl
  | cycle =>
    cases ts with
    | nil => exact h rfl
    | cons t ts => rfl

theorem settled_slot {t : Tree} (h : t.takesTurns = false → c.read t.id = d.read t.id) :
    (t.slot c).settled = (t.slot d).settled := by
  cases t with
  | leaf | modified => rfl
  | group id kind children tag =>
    have hcursor := settled_congr h
    rw [slot, slot, Slot.settled, Slot.settled, List.length_map]
    exact congrArg (Slot.group kind _ · tag) hcursor

theorem length_patternAll (c : Cursors) (ts : List Tree) :
    (patternAll c ts).length = ts.length := by
  induction ts with
  | nil => rfl
  | cons t ts ih => rw [patternAll, List.length_cons, ih, List.length_cons]

mutual

theorem settled_pattern : ∀ t : Tree, SameBesidesTurns t.nodes c d →
    (t.pattern c).settled = (t.pattern d).settled
  | leaf .., _ => rfl
  | group id kind children tag, h => by
    have hcursor := settled_congr (h _ (self_mem_nodes _))
    have hchildren := settledAll_patternAll children (h.mono (List.subset_append_left _ _))
    rw [pattern, pattern, Pattern.settled, Pattern.settled, length_patternAll, length_patternAll,
      hchildren]
    exact congrArg (Pattern.group kind _ · tag) hcursor
  | modified _ _ _ inner _, h => by
    rw [pattern, pattern, Pattern.settled, Pattern.settled,
      settled_pattern inner (h.mono (List.subset_append_left _ _))]

theorem settledAll_patternAll : ∀ ts : List Tree, SameBesidesTurns (nodesAll ts) c d →
    Pattern.settledAll (patternAll c ts) = Pattern.settledAll (patternAll d ts)
  | [], _ => rfl
  | t :: ts, h => by
    rw [patternAll, patternAll, Pattern.settledAll, Pattern.settledAll,
      settled_pattern t (h.mono (List.subset_append_left _ _)),
      settledAll_patternAll ts (h.mono (List.subset_append_right _ _))]

end

end Tree

namespace Player

variable {β : Type} {p : Player β} {s : Score}

theorem Plays.sameBesidesTurns (h : p.Plays s) :
    Tree.SameBesidesTurns s.tree.nodes p.score.cursors s.cursors := by
  intro t ht hstill
  refine h.turned.read_eq fun node hnode hturns hid => ?_
  -- A cycle with the same number would be the same node.
  rw [← h.tree] at ht hnode
  obtain rfl := h.faithful.numbered.eq_of_id_eq hnode ht hid
  exact Bool.noConfusion (hturns.symm.trans hstill)

theorem Plays.settled_slots (h : p.Plays s) :
    p.score.slots.map Slot.settled = s.slots.map Slot.settled := by
  rw [Score.slots, Score.slots, h.tree, List.map_map, List.map_map]
  exact List.map_congr_left fun t ht => Tree.settled_slot (h.sameBesidesTurns t ht)

theorem Plays.settled_read? (h : p.Plays s) (hs : s.Numbered) :
    p.score.read?.map Pattern.settled = s.read?.map Pattern.settled := by
  rw [h.faithful.numbered.read?_eq, hs.read?_eq, h.tree, Option.map_some, Option.map_some,
    Tree.settled_pattern s.tree h.sameBesidesTurns]

/-- The slots of a prepared pattern hold one tree, from which the pattern can be read. Pulls keep
both, and they change nothing but the cursors of cycles with children. -/
theorem arena_pulled [Beats β] (p : Pattern) (pulls : List (ChordTiming β × Env)) :
    let before := Score.ofPattern p
    let after := ((ofPattern p : Player β).pulled pulls).score
    before.IsArena ∧ before.read? = some p ∧
      after.IsArena ∧ after.read?.map Pattern.settled = some p.settled ∧
      after.tree.id = before.tree.id ∧
      after.slots.map Slot.settled = before.slots.map Slot.settled := by
  have hnumbered := Score.numbered_ofPattern p
  have hread := Score.read?_ofPattern p
  have hplays := (faithful_ofPattern p : (ofPattern p : Player β).Faithful).plays.pulled pulls
  refine ⟨hnumbered.isArena, hread, hplays.faithful.numbered.isArena, ?_,
    congrArg Tree.id hplays.tree, hplays.settled_slots⟩
  have hsettled := hplays.settled_read? hnumbered
  rw [show (ofPattern p : Player β).score = Score.ofPattern p from rfl, hread] at hsettled
  exact hsettled

end Player

end PatternSynth
