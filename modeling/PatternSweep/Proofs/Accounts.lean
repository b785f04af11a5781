import Mathlib.Data.List.Sort
import PatternSweep.Proofs.Watching
import PatternSweep.Trace

/-!
# Traces give true accounts

What a node does with a set is accounted for truly (`Pattern.Accounts`) if the members of the sets
are listed in their order and, where the node was applied as a whole, the output has exactly what
its matches make of the input.

`Logs s q x P` says that `x` gives something with `P` and only adds events with `q`. A sweep carries
two things along: the shape of its sets, since what `Realises` says of a node holds for sets of that
shape only, and the truth of its events so far (`Sweep.Keeps`). The first is what lets the second be
proved of the event of a node (`Sweep.Keeps.step`), which comes after the events of its parts. From
offsets this goes on to spans at each lookahead (`Sweep.keeps_offsets`, `Sweep.keeps_spans`).
-/

namespace PatternSweep

/-! ### True accounts -/

/-- The members are listed in strictly ascending order: spans by end and then by start, states by
text offset, pattern offset and distance. -/
def Members.Ascending : Members → Prop
  | offsets ps => ps.Pairwise (· < ·)
  | spans ps => ps.Pairwise fun a b => a.2 < b.2 ∨ a.2 = b.2 ∧ a.1 < b.1
  | states ss => ss.Pairwise fun a b =>
      a.1 < b.1 ∨ a.1 = b.1 ∧ (a.2.1 < b.2.1 ∨ a.2.1 = b.2.1 ∧ a.2.2 < b.2.2)

namespace Pattern

/-- The matches of the pattern take the first members exactly to the second ones, of the same kind:
offsets to the ends of matches, spans to spans made longer by a match. -/
def Takes (text : List Char) (node : Pattern) : Members → Members → Prop
  | .offsets ps, .offsets qs => ∀ j, j ∈ qs ↔ ∃ i, i ∈ ps ∧ node.Matches text i j
  | .spans ps, .spans qs => ∀ s j, (s, j) ∈ qs ↔ ∃ i, (s, i) ∈ ps ∧ node.Matches text i j
  | _, _ => False

/-- An action is a true account of what the pattern does in the text. -/
def Accounts (text : List Char) (node : Pattern) : Action → Prop
  | .step input output => input.Ascending ∧ output.Ascending ∧ node.Takes text input output
  | .round _ reached => reached.Ascending

variable {text : List Char} {node : Pattern}

theorem accounts_offsets {input output : OffsetSet}
    (h : (OffsetSet.view (text.length + 1)).Shows output (Image (node.Matches text) (· ∈ input))) :
    node.Accounts text (.step (Recordable.members input) (Recordable.members output)) := by
  refine ⟨input.pairwise_toList, output.pairwise_toList, fun j => ?_⟩
  simp only [OffsetSet.mem_toList]
  exact h.2 j

theorem accounts_spans {input output : SpanSet}
    (h : (SpanSet.view (text.length + 1)).Shows output
      (Image (Carry (node.Matches text)) (· ∈ input))) :
    node.Accounts text (.step (Recordable.members input) (Recordable.members output)) := by
  refine ⟨input.pairwise_toList, output.pairwise_toList, fun s j => ?_⟩
  simp only [SpanSet.mem_toList]
  refine (h.2 (s, j)).trans ⟨?_, ?_⟩
  · intro hx
    obtain ⟨⟨_, i⟩, hi, rfl, hm⟩ := hx
    exact ⟨i, hi, hm⟩
  · rintro ⟨i, hi, hm⟩
    exact ⟨(s, i), hi, rfl, hm⟩

end Pattern

/-- An event is a true account of what its node does in the text. -/
def Event.Accurate (text : List Char) (ev : Event) : Prop := ev.node.Accounts text ev.action

/-! ### Computations with a log -/

/-- From every sound workspace, `x` gives something with the property `P`, adds only events with
`q`, and leaves a sound workspace. -/
def Logs {β : Type} (s : Subject) (q : Event → Prop) (x : Run β) (P : β → Prop) : Prop :=
  Yields s x P ∧ ∀ w, w.Sound s →
    ∃ es, (x.run w).2.events.toList = w.events.toList ++ es ∧ ∀ ev ∈ es, q ev

namespace Logs

variable {β γ : Type} {s : Subject} {q q' : Event → Prop} {x : Run β} {f : β → Run γ}
  {P P' : β → Prop} {Q : γ → Prop}

/-- What records only events with `q`, from whatever workspace, logs them. -/
theorem of_records (hx : Yields s x P) (h : Records q x) : Logs s q x P := ⟨hx, fun w _ => h w⟩

theorem pure {a : β} (h : P a) : Logs s q (pure a) P := of_records (Yields.pure h) Records.pure

theorem imp (hx : Logs s q x P) (h : ∀ a, P a → P' a) : Logs s q x P' := ⟨hx.1.imp h, hx.2⟩

theorem bind (hx : Logs s q x P) (hf : ∀ a, P a → Logs s q (f a) Q) : Logs s q (x >>= f) Q := by
  refine ⟨hx.1.bind fun a ha => (hf a ha).1, fun w hw => ?_⟩
  obtain ⟨ha, hsound⟩ := hx.1 w hw
  obtain ⟨es, hes, hq⟩ := hx.2 w hw
  obtain ⟨es', hes', hq'⟩ := (hf _ ha).2 _ hsound
  refine ⟨es ++ es', ?_, List.forall_mem_append.2 ⟨hq, hq'⟩⟩
  rw [← List.append_assoc, ← hes]
  exact hes'

/-- More is known of the result. -/
theorem yields (hx : Logs s q x P) (h : Yields s x P') : Logs s q x P' := ⟨h, hx.2⟩

/-- The events have what is known of them either way. -/
theorem and (hx : Logs s q x P) (h : Records q' x) : Logs s (fun ev => q' ev ∧ q ev) x P := by
  refine ⟨hx.1, fun w hw => ?_⟩
  obtain ⟨es, hes, hq⟩ := hx.2 w hw
  obtain ⟨es', hes', hq'⟩ := h w
  obtain rfl : es = es' := List.append_cancel_left (hes.symm.trans hes')
  exact ⟨es, hes, fun ev hev => ⟨hq' ev hev, hq ev hev⟩⟩

end Logs

/-- Computations are spoken about by what they yield, as long as they log only events with `q`. -/
def logModality (s : Subject) (q : Event → Prop) (ρ : Type) : Modality Run ρ where
  always x P := Logs s q x fun a => ∃ l, P a l
  pure h := Logs.pure ⟨_, h⟩
  bind hx hf := hx.bind fun a ⟨l, ha⟩ => (hf a l ha).imp fun _ ⟨_, hb⟩ => ⟨_, hb⟩
  imp hx h := hx.imp fun a ⟨l, ha⟩ => ⟨l, h a l ha⟩

namespace Sweep

variable {s : Sweep} {text : List Char} {q : Event → Prop}

/-! ### Shapes that are kept -/

/-- From sets of the shape that `V` sees, `f` leads to sets of this shape and logs only events with
`q`. -/
def Keeps {σ α : Type} [JoinSet σ] (s : Sweep) (V : View σ α) (q : Event → Prop)
    (f : σ → Run σ) : Prop :=
  ∀ input, V.Dom input → Logs s.subject q (f input) V.Dom

section

variable {σ α : Type} [Recordable σ] {node : Pattern} {input : σ} {x : Run σ} {w : Workspace}

/-- The event of a node comes after those of its parts. -/
theorem events_step (hs : s.watched = true) :
    ((s.step node input x).run w).2.events = (x.run w).2.events.push
      ⟨node, .step (Recordable.members input) (Recordable.members (x.run w).1)⟩ := by
  unfold step record
  simp only [if_pos hs]
  rfl

namespace Keeps

variable [JoinSet σ] {V : View σ α} {f apply : σ → Run σ} {R : α → α → Prop}

/-- The event of a node has `q` if the node is known to realise its relation. -/
theorem step (hf : ∀ input, f input = s.step node input (apply input))
    (h : Realises s.subject V V f R) (happly : s.Keeps V q apply)
    (hq : ∀ input output, V.Shows output (Image R (V.Mem input)) →
      q ⟨node, .step (Recordable.members input) (Recordable.members output)⟩) : s.Keeps V q f := by
  intro input hinput
  have hstep := h input _ ⟨hinput, fun _ => Iff.rfl⟩
  rw [hf] at hstep ⊢
  -- recording does not change what the node gives
  have hyields : Yields s.subject (apply input) (V.Shows · (Image R (V.Mem input))) :=
    fun w hw => ⟨(hstep w hw).1, ((happly input hinput).1 w hw).2⟩
  unfold Sweep.step
  refine ((happly input hinput).yields hyields).bind fun output houtput => ?_
  refine (Logs.of_records yields_record (records_record (hq _ _ houtput))).bind fun _ _ => ?_
  exact Logs.pure houtput.1

omit [Recordable σ] in
/-- One after the other, computations keep what each of them keeps. -/
theorem inTurn {ι : Type} {ps : List ι} {g : ι → σ → Run σ} (go : List ι → σ → Run σ)
    (hnil : ∀ input, go [] input = Pure.pure input)
    (hcons : ∀ p ps input, go (p :: ps) input = g p input >>= go ps)
    (h : ∀ p ∈ ps, s.Keeps V q (g p)) : s.Keeps V q (go ps) := by
  induction ps with
  | nil =>
    intro input hinput
    rw [hnil]
    exact Logs.pure hinput
  | cons p ps ih =>
    intro input hinput
    rw [hcons]
    exact (h p (by simp) input hinput).bind (ih fun r hr => h r (List.mem_cons_of_mem _ hr))

omit [Recordable σ] in
/-- Joining what each member of a list makes of the same set keeps what each of them keeps. -/
theorem among {ι : Type} {ps : List ι} {g : ι → σ → Run σ} (go : List ι → σ → σ → Run σ)
    (hnil : ∀ input output, go [] input output = Pure.pure output)
    (hcons : ∀ p ps input output, go (p :: ps) input output =
      g p input >>= fun reached => go ps input (JoinSet.join output reached))
    (h : ∀ p ∈ ps, s.Keeps V q (g p)) {input output : σ} (hinput : V.Dom input)
    (houtput : V.Dom output) : Logs s.subject q (go ps input output) V.Dom := by
  induction ps generalizing output with
  | nil =>
    rw [hnil]
    exact Logs.pure houtput
  | cons p ps ih =>
    rw [hcons]
    exact (h p (by simp) input hinput).bind fun reached hreached =>
      ih (fun r hr => h r (List.mem_cons_of_mem _ hr)) (V.dom_join houtput hreached)

variable [DecidableEq σ] {min top ceiling : Nat} {max : Option Nat}

/-- A repetition logs the events of its element and of its rounds. Each round starts from a set that
shows something, as the phases run their course. -/
theorem repetition (h : Realises s.subject V V f R) (hf : s.Keeps V q f)
    (hround : ∀ (number : Nat) (set : σ), q ⟨node, .round number (Recordable.members set)⟩)
    (hR : ∀ input, V.Dom input → Settles R (V.Mem input) top) (hceiling : top + 1 ≤ ceiling) :
    s.Keeps V q fun input => s.repetition node input min max ceiling f := by
  intro input hinput
  have hstep : ∀ set Q number, V.Shows set Q →
      (logModality s.subject q (Nat × σ)).always (do
        let next ← f set
        s.record node fun _ =>
          .round number (Recordable.members (Repetition.view set next number min))
        return next) fun next l => V.Shows next (Image R Q) ∧
          l = [(number, Repetition.view set next number min)] := by
    intro set Q number hset
    refine ((hf set hset.1).yields (h set Q hset)).bind fun next hnext => ?_
    refine (Logs.of_records yields_record (records_record (hround _ _))).bind fun _ _ => ?_
    exact Logs.pure ⟨_, hnext, rfl⟩
  have hrun : Logs s.subject q (s.rounds node input min max ceiling f)
      fun r => ∃ l, Repetition.Course V R (V.Mem input) min max top input r l :=
    Repetition.always_run (logModality s.subject q (Nat × σ)) (hR input hinput) hstep
      ⟨hinput, fun _ => Iff.rfl⟩ hceiling
  show Logs s.subject q (s.repetition node input min max ceiling f) V.Dom
  rw [repetition_eq]
  exact hrun.bind fun r ⟨_, hr⟩ => Logs.pure hr.shows.1

end Keeps

end

/-! ### The events of a sweep -/

/-- A node keeps the shape of spans and logs a true account, if its parts do so before it. -/
theorem keeps_spans_of_step (hs : s.subject.Over text) {p : Pattern} {apply : SpanSet → Run SpanSet}
    (hp : ∀ input, s.spans p input = s.step p input (apply input))
    (happly : s.Keeps (SpanSet.view (text.length + 1)) (Event.Accurate text) apply) :
    s.Keeps (SpanSet.view (text.length + 1)) (Event.Accurate text) (s.spans p) :=
  Keeps.step hp (realises_spans hs p) happly fun _ _ => Pattern.accounts_spans

theorem keeps_spans (hs : s.subject.Over text) (p : Pattern) :
    s.Keeps (SpanSet.view (text.length + 1)) (Event.Accurate text) (s.spans p) := by
  induction p using Pattern.induct with
  | atom a =>
    refine keeps_spans_of_step hs (fun _ => by rw [spans]) fun input hinput => ?_
    refine .of_records ?_ (records_atomSpans a input)
    exact (realises_atomSpans hs a input _ ⟨hinput, fun _ => Iff.rfl⟩).imp fun _ hout => hout.1
  | seq ps ih =>
    refine keeps_spans_of_step hs (fun _ => by rw [spans]) ?_
    exact Keeps.inTurn (seqSpans s) (fun _ => by rw [seqSpans]) (fun _ _ _ => by rw [seqSpans]) ih
  | alt ps ih =>
    refine keeps_spans_of_step hs (fun _ => by rw [spans]) fun input hinput => ?_
    exact Keeps.among (altSpans s) (fun _ _ => by rw [altSpans])
      (fun _ _ _ _ => by rw [altSpans]; rfl) ih hinput (hinput.1 ▸ SpanSet.sized_empty)
  | repeated e min max ih =>
    refine keeps_spans_of_step hs (fun _ => by rw [spans]) ?_
    refine Keeps.repetition (realises_spans hs e) ih (fun _ set => set.pairwise_toList)
      (fun _ => settles_spans) ?_
    have := hs.length_eq
    omega
  | ahead positive c p ihc ihp =>
    refine keeps_spans_of_step hs (fun _ => by rw [spans]) fun input hinput => ?_
    exact (ihc _ (SpanSet.sized_lift hinput.1)).bind fun matched _ =>
      ihp _ (SpanSet.sized_keepEnds hinput)

/-- The same for a node that is applied to offsets. -/
theorem keeps_offsets_of_step (hs : s.subject.Over text) {p : Pattern}
    {apply : OffsetSet → Run OffsetSet}
    (hp : ∀ input, s.offsets p input = s.step p input (apply input))
    (happly : s.Keeps (OffsetSet.view (text.length + 1)) (Event.Accurate text) apply) :
    s.Keeps (OffsetSet.view (text.length + 1)) (Event.Accurate text) (s.offsets p) :=
  Keeps.step hp (realises_offsets hs p) happly fun _ _ => Pattern.accounts_offsets

theorem keeps_offsets (hs : s.subject.Over text) (p : Pattern) :
    s.Keeps (OffsetSet.view (text.length + 1)) (Event.Accurate text) (s.offsets p) := by
  induction p using Pattern.induct with
  | atom a =>
    refine keeps_offsets_of_step hs (fun _ => by rw [offsets]) fun input hinput => ?_
    refine .of_records ?_ ((records_hits a input).bind fun _ => .pure)
    exact (realises_atomOffsets hs a input _ ⟨hinput, fun _ => Iff.rfl⟩).imp fun _ hout => hout.1
  | seq ps ih =>
    refine keeps_offsets_of_step hs (fun _ => by rw [offsets]) ?_
    exact Keeps.inTurn (seqOffsets s) (fun _ => by rw [seqOffsets])
      (fun _ _ _ => by rw [seqOffsets]) ih
  | alt ps ih =>
    refine keeps_offsets_of_step hs (fun _ => by rw [offsets]) fun input hinput => ?_
    exact Keeps.among (altOffsets s) (fun _ _ => by rw [altOffsets])
      (fun _ _ _ _ => by rw [altOffsets]; rfl) ih hinput hinput
  | repeated e min max ih =>
    refine keeps_offsets_of_step hs (fun _ => by rw [offsets]) ?_
    refine Keeps.repetition (realises_offsets hs e) ih (fun _ set => set.pairwise_toList)
      (fun _ => settles_offsets) ?_
    have := hs.length_eq
    omega
  | ahead positive c p =>
    refine keeps_offsets_of_step hs (fun _ => by rw [offsets]) fun input hinput => ?_
    -- condition and body both set out from the offsets as spans
    refine (keeps_spans hs c _ (SpanSet.sized_lift hinput)).bind fun matched _ => ?_
    refine (keeps_spans hs p _ (SpanSet.sized_lift hinput)).bind fun body hbody => Logs.pure ?_
    split
    · exact hbody.1
    · exact hbody.1

theorem exists_offsets_eq_step (s : Sweep) (p : Pattern) (input : OffsetSet) :
    ∃ apply, s.offsets p input = s.step p input apply := by
  cases p with
  | atom a => exact ⟨_, by rw [offsets]⟩
  | seq ps => exact ⟨_, by rw [offsets]⟩
  | alt ps => exact ⟨_, by rw [offsets]⟩
  | repeated e min max => exact ⟨_, by rw [offsets]⟩
  | ahead positive c p => exact ⟨_, by rw [offsets]⟩

end Sweep

/-! ### The events of a match -/

namespace Subject

variable {s : Subject} {text : List Char}

/-- A match that is watched gives what it gives unwatched. -/
theorem fst_watchEnds (hs : s.Over text) (p : Pattern) : (s.watchEnds p).1 = s.matchEnds p := by
  have hall : (OffsetSet.view (text.length + 1)).Shows s.allOffsets (· ∈ s.allOffsets) :=
    ⟨hs.size_allOffsets, fun _ => Iff.rfl⟩
  have hempty := Workspace.sound_empty s
  have hwatched := Sweep.realises_offsets (s := ⟨s, true⟩) hs p _ _ hall .empty hempty
  have hunwatched := Sweep.realises_offsets (s := ⟨s, false⟩) hs p _ _ hall .empty hempty
  exact congrArg OffsetSet.toList (hwatched.1.eq hunwatched.1)

/-- Its events belong to nodes of the pattern, and they are true accounts. -/
theorem accurate_of_mem_watchEnds (hs : s.Over text) {p : Pattern} {ev : Event}
    (h : ev ∈ (s.watchEnds p).2) : ev.node.NodeOf p ∧ ev.Accurate text := by
  have hlogs := (Sweep.keeps_offsets (s := ⟨s, true⟩) hs p _ hs.size_allOffsets).and
    (Sweep.records_offsets ⟨s, true⟩ p s.allOffsets)
  obtain ⟨es, hes, hall⟩ := hlogs.2 .empty (Workspace.sound_empty s)
  have hevents : (s.watchEnds p).2 = es := hes
  exact hall ev (hevents ▸ h)

/-- The last one is that of the whole pattern, which leads from all offsets to the ends. -/
theorem getLast?_watchEnds (hs : s.Over text) (p : Pattern) :
    (s.watchEnds p).2.getLast? = some ⟨p, .step (.offsets (List.range (text.length + 1)))
      (.offsets (s.watchEnds p).1)⟩ := by
  have hall : s.allOffsets.toList = List.range (text.length + 1) := by
    refine s.allOffsets.pairwise_toList.eq_of_mem_iff List.pairwise_lt_range fun i => ?_
    rw [OffsetSet.mem_toList, hs.mem_allOffsets, List.mem_range, Nat.lt_succ_iff]
  obtain ⟨apply, happly⟩ := Sweep.exists_offsets_eq_step ⟨s, true⟩ p s.allOffsets
  have hevents : (s.watchEnds p).2 =
      ((Sweep.step ⟨s, true⟩ p s.allOffsets apply).run .empty).2.events.toList := by
    rw [← happly]
    rfl
  have hends : (s.watchEnds p).1 = ((apply.run .empty).1).toList := by
    show ((Sweep.offsets ⟨s, true⟩ p s.allOffsets).run .empty).1.toList = _
    rw [happly]
    rfl
  rw [hevents, Sweep.events_step rfl, Array.toList_push, List.getLast?_concat, hends, ← hall]
  rfl

end Subject

namespace Query

theorem watchEnds_eq {q : Query} {text : String}
    (h : text.toList.length ≤ q.limits.maxTextLength) :
    q.watchEnds text = .ok ((Subject.plain text.toList).watchEnds q.root) := by
  unfold watchEnds
  rw [subject_eq h]
  rfl

theorem map_fst_watchEnds (q : Query) (text : String) :
    (q.watchEnds text).map Prod.fst = q.matchEnds text := by
  have hsubject : q.subject text = (do
    q.limits.checkLength text.toList.length
    return .plain text.toList) := rfl
  unfold watchEnds matchEnds
  rw [hsubject]
  cases q.limits.checkLength text.toList.length with
  | error e => rfl
  | ok _ => exact congrArg Except.ok (Subject.fst_watchEnds (Or.inl rfl) q.root)

end Query

/-- **Traces give true accounts.** A watched match gives the same ends or the same error as one that
is not watched. For every text that keeps the limit, each entry of its trace has the label and the
writing of some node of the pattern and is a true account of what this node does, and the last entry
is that of the whole pattern, which leads from all offsets of the text to the ends given. -/
theorem traces_give_true_accounts (q : Query) (text : String) :
    (q.watchEnds text).map Prod.fst = q.matchEnds text ∧
    (text.toList.length ≤ q.limits.maxTextLength → ∃ ends events,
      q.watchEnds text = .ok (ends, events) ∧
      (∀ entry ∈ (Trace.ofEvents events).entries, ∃ node : Pattern, node.NodeOf q.root ∧
        entry.node = node.label ∧ entry.pattern = node.render ∧
        node.Accounts text.toList entry.action) ∧
      (Trace.ofEvents events).entries.getLast? = some ⟨q.root.label, q.root.render,
        .step (.offsets (List.range (text.toList.length + 1))) (.offsets ends)⟩) := by
  refine ⟨q.map_fst_watchEnds text, fun hlength => ?_⟩
  refine ⟨_, ((Subject.plain text.toList).watchEnds q.root).2, Query.watchEnds_eq hlength, ?_, ?_⟩
  · intro entry hentry
    obtain ⟨ev, hev, rfl⟩ := List.mem_map.1 hentry
    obtain ⟨hnode, haccurate⟩ := Subject.accurate_of_mem_watchEnds (Or.inl rfl) hev
    exact ⟨ev.node, hnode, rfl, rfl, haccurate⟩
  · show (List.map TraceEntry.ofEvent _).getLast? = _
    rw [List.getLast?_map, Subject.getLast?_watchEnds (Or.inl rfl)]
    rfl

/-- An `a` or none where no `b` is ahead, in the text `ba`: all nodes but the last are applied to
spans. -/
theorem traces_give_true_accounts_in_ba :
    ∃ ends events, (Query.ofPattern (.ahead false (Pattern.lit 'b')
        (.repeated (Pattern.lit 'a') 0 (some 1)))).watchEnds "ba" = .ok (ends, events) ∧
      ends = [1, 2] ∧ events.map (·.node.render) = ["b", "a", "a?", "a?", "(?!b)(a?)"] ∧
      (∀ entry ∈ (Trace.ofEvents events).entries, ∃ node : Pattern,
        node.NodeOf (.ahead false (Pattern.lit 'b') (.repeated (Pattern.lit 'a') 0 (some 1))) ∧
        entry.node = node.label ∧ entry.pattern = node.render ∧
        node.Accounts ['b', 'a'] entry.action) ∧
      (Trace.ofEvents events).entries.getLast? = some ⟨"NegativeLookahead", "(?!b)(a?)",
        .step (.offsets [0, 1, 2]) (.offsets [1, 2])⟩ := by
  obtain ⟨-, htrace⟩ := traces_give_true_accounts (.ofPattern (.ahead false (Pattern.lit 'b')
    (.repeated (Pattern.lit 'a') 0 (some 1)))) "ba"
  obtain ⟨ends, events, hwatch, hentries, hlast⟩ := htrace (by decide)
  have hvalue : ((Query.ofPattern (.ahead false (Pattern.lit 'b')
      (.repeated (Pattern.lit 'a') 0 (some 1)))).watchEnds "ba").map
        (fun r => (r.1, r.2.map (·.node.render))) =
      .ok ([1, 2], ["b", "a", "a?", "a?", "(?!b)(a?)"]) := by decide +kernel
  rw [hwatch] at hvalue
  obtain ⟨rfl, hnodes⟩ := Prod.mk.inj (Except.ok.inj hvalue)
  exact ⟨_, events, hwatch, rfl, hnodes, hentries, hlast⟩

end PatternSweep
