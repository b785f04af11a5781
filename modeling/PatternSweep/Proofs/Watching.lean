import PatternSweep.Proofs.Repeats
import PatternSweep.Proofs.Shapes

/-!
# What a watched sweep records

A computation `Records` events with a property if all the events that it adds to the workspace have
it. The events that a sweep adds all belong to nodes of its pattern (`Sweep.records_offsets`,
`Sweep.records_spans`, `Sweep.records_edits`). A repetition is no node of its own element, so among
the events of a repetition those of its own rounds can be told from those of its element: `roundsOf
node es` gives their numbers and sets in order. `Watches s node x P` says that `P` holds of what a
computation gives and of the sets that it reports in this way, and the rounds of a watched
repetition run their course (`Sweep.watches_rounds`).
-/

namespace PatternSweep

/-! ### Events that are added -/

/-- From every workspace, `x` adds some events to those that are there, all of them with `q`. -/
def Records {β : Type} (q : Event → Prop) (x : Run β) : Prop :=
  ∀ w, ∃ es, (x.run w).2.events.toList = w.events.toList ++ es ∧ ∀ ev ∈ es, q ev

namespace Records

variable {β γ : Type} {q q' : Event → Prop} {x : Run β} {f : β → Run γ}

theorem none (h : ∀ w, (x.run w).2.events = w.events) : Records q x :=
  fun w => ⟨[], by rw [h w, List.append_nil], by simp⟩

theorem pure {a : β} : Records q (pure a) := none fun _ => rfl

theorem bind (hx : Records q x) (hf : ∀ a, Records q (f a)) : Records q (x >>= f) := by
  intro w
  obtain ⟨es, hes, hq⟩ := hx w
  obtain ⟨es', hes', hq'⟩ := hf (x.run w).1 (x.run w).2
  refine ⟨es ++ es', ?_, List.forall_mem_append.2 ⟨hq, hq'⟩⟩
  rw [← List.append_assoc, ← hes]
  exact hes'

theorem closed (q : Event → Prop) : Closed Run (Records q) := ⟨pure, bind⟩

theorem mono (h : Records q x) (hqq : ∀ ev, q ev → q' ev) : Records q' x := by
  intro w
  obtain ⟨es, hes, hq⟩ := h w
  exact ⟨es, hes, fun ev hev => hqq ev (hq ev hev)⟩

/-- The nodes of a part are nodes of the whole. -/
theorem part {c t : Pattern} (h : Records (fun ev => ev.node.NodeOf c) x) (hc : c ∈ t.children) :
    Records (fun ev => ev.node.NodeOf t) x :=
  h.mono fun _ hnode => .part hc hnode

end Records

namespace Sweep

variable {s : Sweep} {q : Event → Prop}

theorem records_classMask (a : Atom) (o : Occurrences) : Records q (classMask a o) := by
  refine Records.none fun w => ?_
  unfold classMask
  cases h : w.masks.lookup a with
  | some mask => simp [h]; rfl
  | none => simp [h]; rfl

theorem records_atomMask (a : Atom) : Records q (s.atomMask a) := by
  unfold atomMask
  cases s.subject.occurrences with
  | none => exact Records.pure
  | some o =>
    cases a with
    | literal c => exact Records.pure
    | any => exact records_classMask _ o
    | oneOf k => exact records_classMask _ o

theorem records_hits (a : Atom) (input : OffsetSet) : Records q (s.hits a input) := by
  unfold hits
  refine (records_atomMask a).bind fun mask => ?_
  cases mask with
  | none => exact Records.pure
  | some mask => exact Records.pure

theorem records_atomSpans (a : Atom) (input : SpanSet) : Records q (s.atomSpans a input) := by
  unfold atomSpans
  refine (records_atomMask a).bind fun mask => ?_
  cases mask with
  | none => exact Records.pure
  | some mask => exact Records.pure

theorem records_atomEdits (a : Atom) (state : EditStates) (entry : Nat) :
    Records q (s.atomEdits a state entry) := by
  unfold atomEdits
  exact (records_atomMask a).bind fun mask => Records.pure

theorem records_record {node : Pattern} {action : Unit → Action} (h : q ⟨node, action ()⟩) :
    Records q (s.record node action) := by
  unfold record
  split
  next => exact fun w => ⟨[⟨node, action ()⟩], Array.toList_push, List.forall_mem_singleton.2 h⟩
  next => exact Records.pure

section

variable {σ : Type} [Recordable σ] {node : Pattern} {input : σ}
  (hnode : ∀ action, q ⟨node, action⟩)

include hnode

theorem records_step {x : Run σ} (h : Records q x) : Records q (s.step node input x) := by
  unfold step
  exact h.bind fun out => (records_record (hnode _)).bind fun _ => Records.pure

theorem records_rounds [JoinSet σ] [DecidableEq σ] {min ceiling : Nat} {max : Option Nat}
    {element : σ → Run σ} (h : ∀ set, Records q (element set)) :
    Records q (s.rounds node input min max ceiling element) := by
  refine (Records.closed q).run fun set n => ?_
  exact (h set).bind fun next => (records_record (hnode _)).bind fun _ => Records.pure

theorem records_repetition [JoinSet σ] [DecidableEq σ] {min ceiling : Nat} {max : Option Nat}
    {element : σ → Run σ} (h : ∀ set, Records q (element set)) :
    Records q (s.repetition node input min max ceiling element) :=
  (records_rounds hnode h).bind fun _ => Records.pure

end

/-- The events of a sweep over spans belong to nodes of its pattern. -/
theorem records_spans (s : Sweep) (p : Pattern) (input : SpanSet) :
    Records (fun ev => ev.node.NodeOf p) (s.spans p input) := by
  induction p using Pattern.induct generalizing input with
  | atom a =>
    rw [spans]
    exact records_step (fun _ => .root) (records_atomSpans a input)
  | seq ps ih =>
    rw [spans]
    have hparts : ∀ p ∈ ps, ∀ input,
        Records (fun ev => ev.node.NodeOf (.seq ps)) (s.spans p input) :=
      fun p hp input => (ih p hp input).part hp
    refine records_step (fun _ => .root) ((Records.closed _).through (seqSpans s) s.spans
      (fun _ r => r) id (fun _ => ?_) (fun _ _ _ => ?_) hparts input)
    · rw [seqSpans]; rfl
    · rw [seqSpans]
  | alt ps ih =>
    rw [spans]
    have hparts : ∀ p ∈ ps, SpanSet →
        Records (fun ev => ev.node.NodeOf (.alt ps)) (s.spans p input) :=
      fun p hp _ => (ih p hp input).part hp
    refine records_step (fun _ => .root) ((Records.closed _).through
      (fun ps => altSpans s ps input) (fun p _ => s.spans p input) (fun out r => out.union r) id
      (fun _ => ?_) (fun _ _ _ => ?_) hparts (.empty input.size))
    · rw [altSpans]; rfl
    · rw [altSpans]
  | repeated e min max ih =>
    rw [spans]
    exact records_step (fun _ => .root) (records_repetition (fun _ => .root)
      fun set => (ih set).part List.mem_cons_self)
  | ahead positive c p ihc ihp =>
    rw [spans]
    refine records_step (fun _ => .root) ?_
    exact ((ihc _).part List.mem_cons_self).bind fun _ =>
      (ihp _).part (List.mem_cons_of_mem _ List.mem_cons_self)

theorem records_lookahead (s : Sweep) (c : Pattern) (entries : OffsetSet) (positive : Bool) :
    Records (fun ev => ev.node.NodeOf c) (s.lookahead c entries positive) :=
  (records_spans s c _).bind fun _ => Records.pure

/-- The events of a sweep over offsets belong to nodes of its pattern. -/
theorem records_offsets (s : Sweep) (p : Pattern) (input : OffsetSet) :
    Records (fun ev => ev.node.NodeOf p) (s.offsets p input) := by
  induction p using Pattern.induct generalizing input with
  | atom a =>
    rw [offsets]
    exact records_step (fun _ => .root) ((records_hits a input).bind fun hits => Records.pure)
  | seq ps ih =>
    rw [offsets]
    have hparts : ∀ p ∈ ps, ∀ input,
        Records (fun ev => ev.node.NodeOf (.seq ps)) (s.offsets p input) :=
      fun p hp input => (ih p hp input).part hp
    refine records_step (fun _ => .root) ((Records.closed _).through (seqOffsets s) s.offsets
      (fun _ r => r) id (fun _ => ?_) (fun _ _ _ => ?_) hparts input)
    · rw [seqOffsets]; rfl
    · rw [seqOffsets]
  | alt ps ih =>
    rw [offsets]
    have hparts : ∀ p ∈ ps, OffsetSet →
        Records (fun ev => ev.node.NodeOf (.alt ps)) (s.offsets p input) :=
      fun p hp _ => (ih p hp input).part hp
    refine records_step (fun _ => .root) ((Records.closed _).through
      (fun ps => altOffsets s ps input) (fun p _ => s.offsets p input) (fun out r => out.union r) id
      (fun _ => ?_) (fun _ _ _ => ?_) hparts (.empty input.size))
    · rw [altOffsets]; rfl
    · rw [altOffsets]
  | repeated e min max ih =>
    rw [offsets]
    exact records_step (fun _ => .root) (records_repetition (fun _ => .root)
      fun set => (ih set).part List.mem_cons_self)
  | ahead positive c p =>
    rw [offsets]
    refine records_step (fun _ => .root) ?_
    refine ((records_spans s c _).part List.mem_cons_self).bind fun _ => ?_
    exact ((records_spans s p _).part (List.mem_cons_of_mem _ List.mem_cons_self)).bind
      fun body => Records.pure

theorem records_seqEdits {ps : List Pattern} (layouts : List Layout) (state : EditStates)
    (entry : Nat) (h : ∀ p ∈ ps, ∀ layout state entry, Records q (s.edits p layout state entry)) :
    Records q (s.seqEdits ps layouts state entry) := by
  induction ps generalizing layouts state entry with
  | nil =>
    simp only [seqEdits]
    exact Records.pure
  | cons p ps ih =>
    cases layouts with
    | nil =>
      simp only [seqEdits]
      exact Records.pure
    | cons layout layouts =>
      simp only [seqEdits]
      exact (h p (by simp) layout state entry).bind fun reached =>
        ih layouts reached _ fun q hq => h q (List.mem_cons_of_mem _ hq)

theorem records_altEdits {ps : List Pattern} (layouts : List Layout) (state : EditStates)
    (entry exit : Nat) (output : EditStates)
    (h : ∀ p ∈ ps, ∀ layout state entry, Records q (s.edits p layout state entry)) :
    Records q (s.altEdits ps layouts state entry exit output) := by
  induction ps generalizing layouts output with
  | nil =>
    simp only [altEdits]
    exact Records.pure
  | cons p ps ih =>
    cases layouts with
    | nil =>
      simp only [altEdits]
      exact Records.pure
    | cons layout layouts =>
      simp only [altEdits]
      exact (h p (by simp) layout state entry).bind fun reached =>
        ih layouts _ fun q hq => h q (List.mem_cons_of_mem _ hq)

/-- The events of a sweep with edits belong to nodes of its pattern. -/
theorem records_edits (s : Sweep) (p : Pattern) (layout : Layout) (state : EditStates)
    (entry : Nat) : Records (fun ev => ev.node.NodeOf p) (s.edits p layout state entry) := by
  induction p using Pattern.induct generalizing layout state entry with
  | atom a =>
    rw [edits]
    exact records_step (fun _ => .root) (records_atomEdits a state entry)
  | seq ps ih =>
    rw [edits]
    exact records_step (fun _ => .root) (records_seqEdits _ state entry
      fun p hp layout state entry => (ih p hp layout state entry).part hp)
  | alt ps ih =>
    rw [edits]
    exact records_step (fun _ => .root) (records_altEdits _ state entry _ _
      fun p hp layout state entry => (ih p hp layout state entry).part hp)
  | repeated e min max ih =>
    rw [edits]
    refine records_step (fun _ => .root) ?_
    refine (records_repetition (fun _ => .root) fun set => ?_).bind fun looped => Records.pure
    exact ((ih (layout.child 0) set entry).part List.mem_cons_self).bind fun _ => Records.pure
  | ahead positive c p _ ihp =>
    rw [edits]
    refine records_step (fun _ => .root) ?_
    refine ((records_lookahead _ c _ positive).part List.mem_cons_self).bind fun passed => ?_
    exact (ihp _ _ _).part (List.mem_cons_of_mem _ List.mem_cons_self)

end Sweep

/-! ### The rounds of one node -/

/-- The number and the set of each round of the node, in the order of the events. -/
def roundsOf (node : Pattern) (es : List Event) : List (Nat × Members) :=
  es.filterMap fun ev => match ev.action with
    | .round number reached => if ev.node = node then some (number, reached) else none
    | .step _ _ => none

section

variable {node : Pattern} {es es' : List Event}

theorem roundsOf_append : roundsOf node (es ++ es') = roundsOf node es ++ roundsOf node es' :=
  List.filterMap_append

/-- The events of other nodes are no rounds of this one. -/
theorem roundsOf_eq_nil (h : ∀ ev ∈ es, ev.node ≠ node) : roundsOf node es = [] := by
  refine List.filterMap_eq_nil_iff.2 fun ev hev => ?_
  cases ev.action with
  | round number reached => exact if_neg (h ev hev)
  | step input output => rfl

end

namespace Pattern

theorem nodeCount_lt_of_mem_children {c t : Pattern} (h : c ∈ t.children) :
    c.nodeCount < t.nodeCount := by
  have hparts : ∀ ps : List Pattern, c ∈ ps → c.nodeCount ≤ nodeCounts ps := by
    intro ps
    induction ps with
    | nil => simp
    | cons p ps ih =>
      intro hc
      rw [nodeCounts]
      rcases List.mem_cons.1 hc with rfl | hc
      · exact Nat.le_add_right _ _
      · exact Nat.le_trans (ih hc) (Nat.le_add_left _ _)
  cases t with
  | atom a => cases h
  | seq ps | alt ps =>
    rw [nodeCount]
    have := hparts ps h
    omega
  | repeated e min max =>
    obtain rfl := List.mem_singleton.1 h
    rw [nodeCount]
    omega
  | ahead positive c' p =>
    rw [nodeCount]
    rcases List.mem_cons.1 h with rfl | h
    · omega
    · obtain rfl := List.mem_singleton.1 h
      omega

theorem NodeOf.nodeCount_le {q t : Pattern} (h : q.NodeOf t) : q.nodeCount ≤ t.nodeCount := by
  induction h with
  | root => exact Nat.le_refl _
  | part hc _ ih => exact Nat.le_trans ih (Nat.le_of_lt (nodeCount_lt_of_mem_children hc))

/-- A pattern is no node of its parts. -/
theorem NodeOf.ne_of_mem_children {q c t : Pattern} (h : q.NodeOf c) (hc : c ∈ t.children) :
    q ≠ t := by
  rintro rfl
  exact Nat.not_lt.2 h.nodeCount_le (nodeCount_lt_of_mem_children hc)

end Pattern

/-- What records events of a part alone records none of the whole. -/
theorem Records.ne {β : Type} {x : Run β} {c t : Pattern}
    (h : Records (fun ev => ev.node.NodeOf c) x) (hc : c ∈ t.children) :
    Records (fun ev => ev.node ≠ t) x :=
  h.mono fun _ hnode => hnode.ne_of_mem_children hc

/-! ### Watched computations -/

/-- From every sound workspace, `x` gives something of which, with the sets that it reports as
rounds of the node, `P` holds, and leaves a sound workspace. -/
def Watches {σ β : Type} [Recordable σ] (s : Subject) (node : Pattern) (x : Run β)
    (P : β → List (Nat × σ) → Prop) : Prop :=
  ∀ w, w.Sound s → ∃ es l, (x.run w).2.events.toList = w.events.toList ++ es ∧
    roundsOf node es = l.map (fun r => (r.1, Recordable.members r.2)) ∧ P (x.run w).1 l ∧
    (x.run w).2.Sound s

namespace Watches

variable {σ β γ : Type} [Recordable σ] {s : Subject} {node : Pattern} {x : Run β} {f : β → Run γ}
  {P Q : β → List (Nat × σ) → Prop}

theorem pure {a : β} (h : P a []) : Watches s node (pure a) P :=
  fun _ hw => ⟨[], [], (List.append_nil _).symm, rfl, h, hw⟩

theorem imp (hx : Watches s node x P) (h : ∀ a l, P a l → Q a l) : Watches s node x Q := by
  intro w hw
  obtain ⟨es, l, hes, hl, hP, hsound⟩ := hx w hw
  exact ⟨es, l, hes, hl, h _ l hP, hsound⟩

theorem bind {Q : γ → List (Nat × σ) → Prop} (hx : Watches s node x P)
    (hf : ∀ a l, P a l → Watches s node (f a) fun b l' => Q b (l ++ l')) :
    Watches s node (x >>= f) Q := by
  intro w hw
  obtain ⟨es, l, hes, hl, hP, hsound⟩ := hx w hw
  obtain ⟨es', l', hes', hl', hQ, hsound'⟩ := hf _ l hP _ hsound
  refine ⟨es ++ es', l ++ l', ?_, ?_, hQ, hsound'⟩
  · rw [← List.append_assoc, ← hes]
    exact hes'
  · rw [roundsOf_append, hl, hl', List.map_append]

/-- What records no event of the node reports no round of it. -/
theorem of_yields {P : β → Prop} (hx : Yields s x P) (h : Records (fun ev => ev.node ≠ node) x) :
    Watches s node x fun a (l : List (Nat × σ)) => P a ∧ l = [] := by
  intro w hw
  obtain ⟨hP, hsound⟩ := hx w hw
  obtain ⟨es, hes, hnode⟩ := h w
  exact ⟨es, [], hes, roundsOf_eq_nil hnode, ⟨hP, rfl⟩, hsound⟩

end Watches

/-- Computations of a watched sweep are spoken about by what they give and report. -/
def watchModality (s : Subject) (node : Pattern) (σ : Type) [Recordable σ] :
    Modality Run (Nat × σ) :=
  ⟨Watches s node, Watches.pure, Watches.bind, Watches.imp⟩

namespace Sweep

open Repetition

variable {s : Sweep} {σ : Type} [Recordable σ] {node : Pattern}

theorem watches_round (hs : s.watched = true) (number : Nat) (reached : σ) :
    Watches s.subject node (s.record node fun _ => .round number (Recordable.members reached))
      fun _ l => l = [(number, reached)] := by
  intro w hw
  unfold record
  rw [if_pos hs]
  refine ⟨[⟨node, .round number (Recordable.members reached)⟩], [(number, reached)],
    Array.toList_push, ?_, rfl, hw⟩
  simp [roundsOf]

/-- The application of the node as a whole is no round of it. -/
theorem watches_step (input : σ) {β : Type} {x : Run β} {P : β → List (Nat × σ) → Prop}
    (leave : β → σ) (hx : Watches s.subject node x P) :
    Watches s.subject node (s.step node input do return leave (← x)) fun out l =>
      ∃ r, P r l ∧ leave r = out := by
  have hrecord (action : Unit → Action) (h : roundsOf node [⟨node, action ()⟩] = []) :
      Watches s.subject node (s.record node action) fun _ (l : List (Nat × σ)) => l = [] := by
    intro w hw
    unfold record
    split
    next => exact ⟨[⟨node, action ()⟩], [], Array.toList_push, h, rfl, hw⟩
    next => exact ⟨[], [], (List.append_nil _).symm, rfl, rfl, hw⟩
  have hleave : Watches s.subject node (do return leave (← x)) fun out l =>
      ∃ r, P r l ∧ leave r = out := by
    refine hx.bind fun r l hP => Watches.pure ⟨r, ?_, rfl⟩
    rwa [List.append_nil]
  unfold step
  refine hleave.bind fun out l hout => (hrecord _ rfl).bind ?_
  rintro _ _ rfl
  exact Watches.pure (by simpa using hout)

variable [JoinSet σ]

/-- Each application of the element is reported with its number and what a round is to show. -/
theorem watches_application (hs : s.watched = true) {x : Run σ} {P : σ → Prop}
    (h : Yields s.subject x P) (hx : Records (fun ev => ev.node ≠ node) x) (set : σ)
    (number min : Nat) :
    Watches s.subject node (do
      let next ← x
      s.record node fun _ => .round number (Recordable.members (view set next number min))
      return next) fun next l => P next ∧ l = [(number, view set next number min)] := by
  have helement : Watches s.subject node x fun next (l : List (Nat × σ)) => P next ∧ l = [] :=
    .of_yields h hx
  refine helement.bind ?_
  rintro next _ ⟨hnext, rfl⟩
  refine (watches_round hs number _).bind ?_
  rintro _ _ rfl
  exact Watches.pure ⟨hnext, rfl⟩

variable [DecidableEq σ] {α : Type} {V : View σ α} {f : σ → Run σ} {R : α → α → Prop}
  {P : α → Prop} {min top ceiling : Nat} {max : Option Nat} {input : σ}

/-- The rounds of a watched repetition run their course, and what is reported are its reports. -/
theorem watches_rounds (hs : s.watched = true) (h : Realises s.subject V V f R)
    (hf : ∀ set, Records (fun ev => ev.node ≠ node) (f set)) (hR : Settles R P top)
    (hinput : V.Shows input P) (hceiling : top + 1 ≤ ceiling) :
    Watches s.subject node (s.rounds node input min max ceiling f)
      (Course V R P min max top input) :=
  always_run (watchModality s.subject node σ) hR
    (fun set Q number hset => watches_application hs (h set Q hset) (hf set) set number min) hinput
    hceiling

end Sweep

end PatternSweep
