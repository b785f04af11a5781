import PatternSweep.Proofs.Strides

/-!
# How often a repetition applies its element

Every application of the step of a repetition is counted in its outcome
(`Repetition.run_counted`). What the element of a repetition reaches has settled after as many
rounds as there are characters in the text, and edits that may be made: the matches and the strides
of a pattern keep a pace. So both phases of a repetition together apply the element at most two more
times than that, and neither of them is ended by its ceiling (`repetition_stops_in_time`).
-/

namespace PatternSweep

/-! ### Counting -/

namespace Repetition

variable {σ : Type} [JoinSet σ] [DecidableEq σ] {m : Type → Type} [Monad m] [LawfulMonad m]

/-- The step, with each of its applications counted. -/
def counted (step : σ → Nat → m σ) (set : σ) (number : Nat) : StateT Nat m σ := do
  modify (· + 1)
  step set number

variable {step : σ → Nat → m σ} {set input : σ} {min room done ceiling k : Nat}
  {max extra : Option Nat}

omit [JoinSet σ] [DecidableEq σ] in
theorem counted_run (number : Nat) :
    (counted step set number).run k = (·, k + 1) <$> step set number := by
  simp [counted]

theorem exact_counted : (exact (counted step) min room done set).run (k + done) =
    (fun first => (first, k + first.applications)) <$> exact step min room done set := by
  induction room generalizing done set with
  | zero => simp [exact, Exact.applications]
  | succ room ih =>
    unfold exact
    split
    · simp [Exact.applications]
    · rw [StateT.run_bind, counted_run, map_bind, bind_map_left]
      refine bind_congr fun next => ?_
      split
      · simp [Exact.applications, Nat.add_assoc]
      · split
        · simp [Exact.applications, Nat.add_assoc]
        · exact ih

theorem grow_counted : (grow (counted step) min extra room done set).run (k + done) =
    (fun r => (r, k + r.applications)) <$> grow step min extra room done set := by
  induction room generalizing done set with
  | zero => simp [grow]
  | succ room ih =>
    unfold grow
    split
    · simp
    · rw [StateT.run_bind, counted_run, map_bind, bind_map_left]
      refine bind_congr fun next => ?_
      simp only
      split
      · simp [Nat.add_assoc]
      · exact ih

/-- The outcome of a repetition tells how often its step was applied. -/
theorem run_counted : (run input min max ceiling (counted step)).run k =
    (fun r => (r, k + r.applications)) <$> run input min max ceiling step := by
  unfold run
  rw [StateT.run_bind, ← Nat.add_zero k, exact_counted, map_bind, bind_map_left]
  refine bind_congr fun first => ?_
  cases first with
  | dead set n => simp [Exact.applications]
  | alive set n cut =>
    have hgrow : (grow (counted step) min (max.map (· - min)) ceiling 0 set).run (k + n + 0) = _ :=
      grow_counted
    rw [Nat.add_zero] at hgrow
    simp [Exact.applications, hgrow, Nat.add_assoc]

end Repetition

/-! ### The rounds of a repetition in a sweep -/

namespace Sweep

/-- The rounds of a repetition of `e` over offsets. -/
def offsetRounds (s : Sweep) (e : Pattern) (min : Nat) (max : Option Nat) (input : OffsetSet) :
    Run (Repetition OffsetSet) :=
  s.rounds (.repeated e min max) input min max (s.subject.length + 2) (s.offsets e)

/-- The rounds of a repetition of `e` over spans. -/
def spanRounds (s : Sweep) (e : Pattern) (min : Nat) (max : Option Nat) (input : SpanSet) :
    Run (Repetition SpanSet) :=
  s.rounds (.repeated e min max) input min max (s.subject.length + 2) (s.spans e)

/-- The element of a repetition over edit states: what it reaches is rewound to `entry`. -/
def rewoundEdits (s : Sweep) (e : Pattern) (layout : Layout) (entry : Nat) (set : EditStates) :
    Run EditStates := do
  return (← s.edits e layout set entry).relocate (entry + layout.length) entry

/-- The rounds of a repetition over edit states of `e`, which is laid out by `layout`. -/
def editRounds (s : Sweep) (e : Pattern) (layout : Layout) (min : Nat) (max : Option Nat)
    (state : EditStates) (entry : Nat) : Run (Repetition EditStates) :=
  s.rounds (.repeated e min max) (state.relocate entry entry) min max
    (s.subject.length + state.maxDistance + 2) (s.rewoundEdits e layout entry)

variable {s : Sweep} {text : List Char} {e : Pattern} {min entry : Nat} {max : Option Nat}

theorem offsets_eq_rounds (input : OffsetSet) : s.offsets (.repeated e min max) input =
    s.step (.repeated e min max) input do return (← s.offsetRounds e min max input).reached := by
  rw [offsets]
  rfl

theorem spans_eq_rounds (input : SpanSet) : s.spans (.repeated e min max) input =
    s.step (.repeated e min max) input do return (← s.spanRounds e min max input).reached := by
  rw [spans]
  rfl

theorem edits_eq_rounds (layout : Layout) (state : EditStates) :
    s.edits (.repeated e min max) layout state entry = s.step (.repeated e min max) state do
      return (← s.editRounds e (layout.child 0) min max state entry).reached.relocate entry
        (entry + (layout.child 0).length) := by
  rw [edits]
  rfl

/-- Rewound, the element realises its strides from the layer at `entry` and back. -/
theorem crosses_rewoundEdits {l m : Nat} (hs : s.subject.Over text) (e : Pattern) (layout : Layout)
    (entry : Nat) : s.Crosses text l m entry entry (s.rewoundEdits e layout entry)
      (Rewound l entry (entry + layout.length) (e.Strides text l m layout entry)) :=
  Carries.rewound (carries_edits hs e layout entry) entry (entry + layout.length)

/-! ### What is reached settles -/

theorem settles_offsets {input : OffsetSet} (h : input.size = text.length + 1) :
    Settles (e.Matches text) (· ∈ input) text.length := by
  have hpaces := (Pattern.climbs_matches text e).paces fun {a b} h (hb : b = a) => hb ▸ h
  refine hpaces.settles fun i hi => ⟨?_, Nat.le_refl 0⟩
  have hlt := OffsetSet.lt_size_of_mem hi
  show i ≤ text.length
  omega

theorem settles_spans {input : SpanSet} (h : input.Sized (text.length + 1)) :
    Settles (Carry (e.Matches text)) (· ∈ input) text.length := by
  have hpaces := (climbs_carry (Pattern.climbs_matches text e)).paces
    fun {a b} h (hb : b.2 = a.2) => ⟨rfl, hb ▸ h.2⟩
  refine hpaces.settles fun r hr => ⟨?_, Nat.le_refl 0⟩
  have hlt : r.2 < text.length + 1 := SpanSet.Sized.end_lt h hr
  omega

theorem settles_edits {l m : Nat} {state : EditStates} (h : state.Bounded text.length l m)
    (layout : Layout) (exit : Nat) :
    Settles (Rewound l entry exit (e.Strides text l m layout entry))
      (fun u => entry ≤ l ∧ (u.1, entry, u.2) ∈ state) (text.length + m) := by
  refine (Pattern.paces_rewound text l m e layout entry exit).settles ?_
  rintro u ⟨-, hu⟩
  obtain ⟨ht, -, hd⟩ := h.le_of_mem hu
  exact ⟨ht, hd⟩

/-! ### The number of rounds -/

theorem yields_offsetRounds (hs : s.subject.Over text) {input : OffsetSet}
    (h : input.size = text.length + 1) : Yields s.subject (s.offsetRounds e min max input) fun r =>
      r.applications ≤ text.length + 2 ∧ r.cut = false := by
  have hceiling : text.length + 1 ≤ s.subject.length + 2 := by
    have := hs.length_eq
    omega
  have hinput : (OffsetSet.view (text.length + 1)).Shows input (· ∈ input) := ⟨h, fun _ => Iff.rfl⟩
  exact ((realises_offsets hs e).rounds (settles_offsets h) hinput hceiling).imp
    fun r ⟨_, huncut, hle⟩ => ⟨hle, huncut⟩

theorem yields_spanRounds (hs : s.subject.Over text) {input : SpanSet}
    (h : input.Sized (text.length + 1)) : Yields s.subject (s.spanRounds e min max input) fun r =>
      r.applications ≤ text.length + 2 ∧ r.cut = false := by
  have hceiling : text.length + 1 ≤ s.subject.length + 2 := by
    have := hs.length_eq
    omega
  have hinput : (SpanSet.view (text.length + 1)).Shows input (· ∈ input) := ⟨h, fun _ => Iff.rfl⟩
  exact ((realises_spans hs e).rounds (settles_spans h) hinput hceiling).imp
    fun r ⟨_, huncut, hle⟩ => ⟨hle, huncut⟩

theorem yields_editRounds (hs : s.subject.Over text) (layout : Layout) {state : EditStates}
    (h : state.textLength = text.length) :
    Yields s.subject (s.editRounds e layout min max state entry) fun r =>
      r.applications ≤ text.length + state.maxDistance + 2 ∧ r.cut = false := by
  have hceiling : text.length + state.maxDistance + 1 ≤
      s.subject.length + state.maxDistance + 2 := by
    have := hs.length_eq
    omega
  have hbounded : state.Bounded text.length state.patternLength state.maxDistance := ⟨h, rfl, rfl⟩
  have hstart := EditStates.shows_layer (s := state) ⟨hbounded, fun _ => Iff.rfl⟩ entry entry
  exact ((crosses_rewoundEdits hs e layout entry).rounds (settles_edits hbounded layout _) hstart
    hceiling).imp fun r ⟨_, huncut, hle⟩ => ⟨hle, huncut⟩

end Sweep

/-- **A repetition stops in time.** The outcome of a repetition tells how often its step was
applied. The rounds of a repetition over offsets or spans of a text apply the element at most as
often as the text has characters, and twice more; those over edit states at most as often as the
text has characters and edits may be made, and twice more, wherever the axis ends and whatever the
layout says. In none of them a phase is cut. -/
theorem repetition_stops_in_time :
    (∀ (σ : Type) [JoinSet σ] [DecidableEq σ] (m : Type → Type) [Monad m] [LawfulMonad m]
      (step : σ → Nat → m σ) (input : σ) (min : Nat) (max : Option Nat) (ceiling k : Nat),
      (Repetition.run input min max ceiling (Repetition.counted step)).run k =
        (fun r => (r, k + r.applications)) <$> Repetition.run input min max ceiling step) ∧
    ∀ (s : Sweep) (text : List Char), s.subject.Over text →
      ∀ w : Workspace, w.Sound s.subject → ∀ (e : Pattern) (min : Nat) (max : Option Nat),
      (∀ input : OffsetSet, input.size = text.length + 1 →
        (s.offsets (.repeated e min max) input = s.step (.repeated e min max) input do
          return (← s.offsetRounds e min max input).reached) ∧
        ((s.offsetRounds e min max input).run w).1.applications ≤ text.length + 2 ∧
        ((s.offsetRounds e min max input).run w).1.cut = false) ∧
      (∀ input : SpanSet, input.Sized (text.length + 1) →
        (s.spans (.repeated e min max) input = s.step (.repeated e min max) input do
          return (← s.spanRounds e min max input).reached) ∧
        ((s.spanRounds e min max input).run w).1.applications ≤ text.length + 2 ∧
        ((s.spanRounds e min max input).run w).1.cut = false) ∧
      ∀ (layout : Layout) (state : EditStates) (entry : Nat), state.textLength = text.length →
        (s.edits (.repeated e min max) layout state entry = s.step (.repeated e min max) state do
          return (← s.editRounds e (layout.child 0) min max state entry).reached.relocate entry
            (entry + (layout.child 0).length)) ∧
        ((s.editRounds e (layout.child 0) min max state entry).run w).1.applications ≤
          text.length + state.maxDistance + 2 ∧
        ((s.editRounds e (layout.child 0) min max state entry).run w).1.cut = false := by
  refine ⟨fun σ _ _ m _ _ step input min max ceiling k => Repetition.run_counted, ?_⟩
  intro s text hs w hw e min max
  refine ⟨fun input h => ⟨Sweep.offsets_eq_rounds input, ?_⟩,
    fun input h => ⟨Sweep.spans_eq_rounds input, ?_⟩,
    fun layout state entry h => ⟨Sweep.edits_eq_rounds layout state, ?_⟩⟩
  · exact (Sweep.yields_offsetRounds hs h w hw).1
  · exact (Sweep.yields_spanRounds hs h w hw).1
  · exact (Sweep.yields_editRounds hs (layout.child 0) h w hw).1

/-- An `a` or none, five times or more, over the text `a`: over offsets this takes as many
applications as there may be. -/
theorem repetition_stops_in_time_in_a :
    ((Repetition.run (.ofList 2 [0]) 5 none 3 (Repetition.counted fun set _ =>
        Sweep.offsets ⟨.plain ['a'], false⟩ (.repeated (Pattern.lit 'a') 0 (some 1)) set)).run 0 =
      (fun r => (r, 0 + r.applications)) <$> Repetition.run (.ofList 2 [0]) 5 none 3 fun set _ =>
        Sweep.offsets ⟨.plain ['a'], false⟩ (.repeated (Pattern.lit 'a') 0 (some 1)) set) ∧
    (((Sweep.offsetRounds ⟨.plain ['a'], false⟩ (.repeated (Pattern.lit 'a') 0 (some 1)) 5 none
        (.ofList 2 [0])).run .empty).1.applications ≤ 3 ∧
      ((Sweep.offsetRounds ⟨.plain ['a'], false⟩ (.repeated (Pattern.lit 'a') 0 (some 1)) 5 none
        (.ofList 2 [0])).run .empty).1.cut = false) ∧
    ((Sweep.offsetRounds ⟨.plain ['a'], false⟩ (.repeated (Pattern.lit 'a') 0 (some 1)) 5 none
      (.ofList 2 [0])).run .empty).1.applications = 3 ∧
    (((Sweep.spanRounds ⟨.plain ['a'], false⟩ (.repeated (Pattern.lit 'a') 0 (some 1)) 5 none
        (.lift (.full 2))).run .empty).1.applications ≤ 3 ∧
      ((Sweep.spanRounds ⟨.plain ['a'], false⟩ (.repeated (Pattern.lit 'a') 0 (some 1)) 5 none
        (.lift (.full 2))).run .empty).1.cut = false) ∧
    (((Sweep.editRounds ⟨.plain ['a'], false⟩ (Pattern.lit 'a') (.of (Pattern.lit 'a')) 5 none
        (.seeded 1 1 1) 0).run .empty).1.applications ≤ 4 ∧
      ((Sweep.editRounds ⟨.plain ['a'], false⟩ (Pattern.lit 'a') (.of (Pattern.lit 'a')) 5 none
        (.seeded 1 1 1) 0).run .empty).1.cut = false) := by
  obtain ⟨hcounted, hsweep⟩ := repetition_stops_in_time
  have hsweep := hsweep ⟨.plain ['a'], false⟩ ['a'] (Or.inl rfl) _ (Workspace.sound_empty _)
  obtain ⟨hoffsets, hspans, -⟩ := hsweep (.repeated (Pattern.lit 'a') 0 (some 1)) 5 none
  obtain ⟨-, -, hedits⟩ := hsweep (Pattern.lit 'a') 5 none
  have hlift : (SpanSet.lift (.full 2)).Sized 2 := SpanSet.sized_lift rfl
  have hlayout (layout : Layout) : (Layout.repetition layout).child 0 = layout := rfl
  obtain ⟨-, hspans⟩ := hspans _ hlift
  obtain ⟨-, hedits⟩ := hedits (.repetition (.of (Pattern.lit 'a'))) (.seeded 1 1 1) 0 rfl
  rw [hlayout] at hedits
  exact ⟨hcounted _ _ _ _ _ _ _ _, (hoffsets (.ofList 2 [0]) rfl).2, by decide +kernel,
    ⟨hspans.1, hspans.2⟩, ⟨hedits.1, hedits.2⟩⟩

end PatternSweep
