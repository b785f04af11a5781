import Mathlib
import PatternSweep.Proofs.Watching

/-!
# The rounds of a repetition are reported truthfully

The reports of a repetition are `Truthful` for a map of sets if they tell what applying the map
again and again to the input leads to: up to the least count the image itself, past it everything
from the least count on, and in the end the output. In each of the three kinds of sweeps the reports
of a watched repetition are truthful for what its element makes of a set
(`rounds_are_reported_truthfully`), whichever way the two phases end.
-/

namespace PatternSweep

/-- The reports, a number and a set each, tell how `f` leads from `input` to `output`, which is seen
after `leave`. -/
structure Truthful {σ β : Type} [Membership β σ] (f leave : σ → σ) (input : σ) (min : Nat)
    (reports : List (Nat × σ)) (output : σ) : Prop where
  /-- The numbers ascend. -/
  ascending : reports.Pairwise fun x y => x.1 < y.1
  /-- The first number is one. -/
  first : ∀ x ∈ reports.head?, x.1 = 1
  /-- Up to the least count, a set is the image under so many applications. -/
  exact : ∀ x ∈ reports, x.1 ≤ min → x.2 = f^[x.1] input
  /-- Past the least count, it is the union of the images from the least count on. -/
  joined : ∀ x ∈ reports, min < x.1 → ∀ b : β, b ∈ x.2 ↔ ∃ k, min ≤ k ∧ k ≤ x.1 ∧ b ∈ f^[k] input
  /-- Hence past the least count the sets only grow. -/
  grows : reports.Pairwise fun x y => min < x.1 → ∀ b : β, b ∈ x.2 → b ∈ y.2
  /-- The last set is the output. -/
  last : ∀ x ∈ reports.getLast?, leave x.2 = output
  /-- Without a report the input is the output. -/
  unreported : reports = [] → leave input = output

/-- What a computation makes of a set from an empty workspace. -/
def fresh {σ : Type} (f : σ → Run σ) (set : σ) : σ := ((f set).run .empty).1

section

variable {σ α β : Type} [JoinSet σ] [Membership β σ] {s : Subject} {V : View σ α} {f : σ → Run σ}
  {R : α → α → Prop} {P : α → Prop} {input : σ}

omit [Membership β σ] in
/-- Applied again and again, a computation shows what so many steps reach. -/
theorem Realises.shows_iterate (h : Realises s V V f R) (hinput : V.Shows input P) (k : Nat) :
    V.Shows ((fresh f)^[k] input) (Reaches R P k) := by
  induction k with
  | zero => exact hinput.congr fun b => reaches_zero.symm
  | succ k ih =>
    rw [Function.iterate_succ_apply']
    exact (h _ _ ih _ (Workspace.sound_empty s)).1.congr fun b => reaches_succ.symm

/-- The reports of a repetition that runs its course are truthful. -/
theorem Repetition.Course.truthful {min top : Nat} {max : Option Nat} {r : Repetition σ}
    {l : List (Nat × σ)} (hcourse : Repetition.Course V R P min max top input r l)
    (h : Realises s V V f R) (hinput : V.Shows input P) (place : α → β)
    (hplace : ∀ set, V.Dom set → ∀ b, b ∈ set ↔ ∃ a, b = place a ∧ V.Mem set a) (leave : σ → σ) :
    Truthful (fresh f) leave input min l (leave r.reached) := by
  have hiterate := h.shows_iterate hinput
  have hjoined : ∀ x ∈ l, min < x.1 →
      ∀ b : β, b ∈ x.2 ↔ ∃ k, min ≤ k ∧ k ≤ x.1 ∧ b ∈ (fresh f)^[k] input := by
    intro x hx hmin b
    have hshows := (hcourse.reports.tells x hx).2 hmin
    rw [hplace _ hshows.1]
    constructor
    · rintro ⟨a, rfl, ha⟩
      obtain ⟨k, hk, hle, ha⟩ := (hshows.2 a).1 ha
      exact ⟨k, hk, hle, (hplace _ (hiterate k).1 _).2 ⟨a, rfl, ((hiterate k).2 a).2 ha⟩⟩
    · rintro ⟨k, hk, hle, hb⟩
      obtain ⟨a, rfl, ha⟩ := (hplace _ (hiterate k).1 _).1 hb
      exact ⟨a, rfl, (hshows.2 a).2 ⟨k, hk, hle, ((hiterate k).2 a).1 ha⟩⟩
  have hlast : (l.map (·.2)).getLast?.getD input = r.reached := by
    rw [← List.getLastD_eq_getLast?]
    exact hcourse.reports.last_eq
  refine ⟨hcourse.reports.ascending, hcourse.reports.first, fun x hx hmin => ?_, hjoined, ?_,
    fun x hx => ?_, ?_⟩
  · exact ((hcourse.reports.tells x hx).1 hmin).eq (hiterate x.1)
  · refine hcourse.reports.ascending.imp_of_mem fun {x y} hx hy hlt hmin b hb => ?_
    obtain ⟨k, hk, hle, hb⟩ := (hjoined x hx hmin b).1 hb
    exact (hjoined y hy (Nat.lt_trans hmin hlt) b).2
      ⟨k, hk, Nat.le_trans hle (Nat.le_of_lt hlt), hb⟩
  · rw [List.getLast?_map, hx] at hlast
    exact congrArg leave hlast
  · rintro rfl
    exact congrArg leave hlast

end

/-- The sets that a computation reports from a workspace as rounds of the node. -/
def Reported {σ β : Type} [Recordable σ] (node : Pattern) (x : Run β) (w : Workspace)
    (reports : List (Nat × σ)) : Prop :=
  ∃ es, (x.run w).2.events.toList = w.events.toList ++ es ∧
    roundsOf node es = reports.map fun r => (r.1, Recordable.members r.2)

namespace Sweep

/-- A watched repetition reports truthfully, if its element realises a relation and records nothing
of the repetition, and what is reached settles before the ceiling. -/
theorem reports_truthfully {σ α β : Type} [JoinSet σ] [DecidableEq σ] [Recordable σ]
    [Membership β σ] {s : Sweep} (hs : s.watched = true) {V : View σ α} {f : σ → Run σ}
    {R : α → α → Prop} {P : α → Prop} {node : Pattern} {input : σ} {min top ceiling : Nat}
    {max : Option Nat} (h : Realises s.subject V V f R)
    (hf : ∀ set, Records (fun ev => ev.node ≠ node) (f set)) (hR : Settles R P top)
    (hinput : V.Shows input P) (hceiling : top + 1 ≤ ceiling) (place : α → β)
    (hplace : ∀ set, V.Dom set → ∀ b, b ∈ set ↔ ∃ a, b = place a ∧ V.Mem set a) (leave : σ → σ)
    (whole : σ) {w : Workspace} (hw : w.Sound s.subject) {x : Run σ}
    (hx : x = s.step node whole do
      return leave (← s.rounds node input min max ceiling f).reached) :
    ∃ reports, Reported node x w reports ∧
      Truthful (fresh f) leave input min reports (x.run w).1 := by
  subst hx
  have hrounds : Watches s.subject node (s.rounds node input min max ceiling f)
      (Repetition.Course V R P min max top input) := watches_rounds hs h hf hR hinput hceiling
  obtain ⟨es, l, hes, hl, ⟨r, hcourse, hout⟩, -⟩ :=
    watches_step whole (fun r => leave r.reached) hrounds w hw
  exact ⟨l, ⟨es, hes, hl⟩, hout ▸ hcourse.truthful h hinput place hplace leave⟩

end Sweep

/-- **Rounds are reported truthfully.** Of a repetition over the offsets, the spans or the edit
states of a text, a watched sweep reports rounds with ascending numbers from one on. Up to the least
count a round shows exactly the image of the input under so many applications of the element, past
it exactly the union of these images from the least count on, which only grows, and the last round
shows the result of the repetition, moved to its exit in the case of edit states. -/
theorem rounds_are_reported_truthfully (s : Sweep) (hwatched : s.watched = true)
    (text : List Char) (hs : s.subject.Over text) (w : Workspace) (hw : w.Sound s.subject)
    (e : Pattern) (min : Nat) (max : Option Nat) :
    (∀ input : OffsetSet, input.size = text.length + 1 → ∃ reports : List (Nat × OffsetSet),
      Reported (.repeated e min max) (s.offsets (.repeated e min max) input) w reports ∧
      Truthful (fresh (s.offsets e)) id input min reports
        ((s.offsets (.repeated e min max) input).run w).1) ∧
    (∀ input : SpanSet, input.Sized (text.length + 1) → ∃ reports : List (Nat × SpanSet),
      Reported (.repeated e min max) (s.spans (.repeated e min max) input) w reports ∧
      Truthful (fresh (s.spans e)) id input min reports
        ((s.spans (.repeated e min max) input).run w).1) ∧
    ∀ (layout : Layout) (state : EditStates) (entry : Nat), state.textLength = text.length →
      ∃ reports : List (Nat × EditStates),
        Reported (.repeated e min max) (s.edits (.repeated e min max) layout state entry) w
          reports ∧
        Truthful (fresh (s.rewoundEdits e (layout.child 0) entry))
          (·.relocate entry (entry + (layout.child 0).length)) (state.relocate entry entry) min
          reports ((s.edits (.repeated e min max) layout state entry).run w).1 := by
  have hlength := hs.length_eq
  have helement : e ∈ (Pattern.repeated e min max).children := List.mem_cons_self
  refine ⟨fun input h => ?_, fun input h => ?_, fun layout state entry h => ?_⟩
  · have hinput : (OffsetSet.view (text.length + 1)).Shows input (· ∈ input) :=
      ⟨h, fun _ => Iff.rfl⟩
    exact Sweep.reports_truthfully hwatched (Sweep.realises_offsets hs e)
      (fun set => (Sweep.records_offsets s e set).ne helement) (Sweep.settles_offsets h) hinput
      (by omega) id (fun _ _ _ => exists_eq_left'.symm) id input hw (Sweep.offsets_eq_rounds input)
  · have hinput : (SpanSet.view (text.length + 1)).Shows input (· ∈ input) := ⟨h, fun _ => Iff.rfl⟩
    exact Sweep.reports_truthfully hwatched (Sweep.realises_spans hs e)
      (fun set => (Sweep.records_spans s e set).ne helement) (Sweep.settles_spans h) hinput
      (by omega) id (fun _ _ _ => exists_eq_left'.symm) id input hw (Sweep.spans_eq_rounds input)
  · have hbounded : state.Bounded text.length state.patternLength state.maxDistance := ⟨h, rfl, rfl⟩
    have hstart := EditStates.shows_layer ⟨hbounded, fun _ => Iff.rfl⟩ entry entry
    have hcrosses : s.Crosses text state.patternLength state.maxDistance entry entry _ _ :=
      Sweep.crosses_rewoundEdits hs e (layout.child 0) entry
    refine Sweep.reports_truthfully hwatched hcrosses (fun set => ?_)
      (Sweep.settles_edits hbounded (layout.child 0) _) hstart (by omega)
      (fun u => (u.1, entry, u.2)) ?_ _ state hw (Sweep.edits_eq_rounds layout state)
    · exact ((Sweep.records_edits s e _ set entry).ne helement).bind fun _ => Records.pure
    · rintro set ⟨-, hlayer⟩ ⟨t, p, d⟩
      constructor
      · intro hx
        obtain rfl := hlayer t p d hx
        exact ⟨(t, d), rfl, hx⟩
      · rintro ⟨u, hu, hx⟩
        obtain ⟨rfl, rfl, rfl⟩ : t = u.1 ∧ p = entry ∧ d = u.2 := by simpa using hu
        exact hx

/-- An `a` or none, five times or more, from the start of the text `a`: the first phase ends early,
so the numbers of the rounds jump. The same over spans, and an `a` with one edit, of which the third
round leaves nothing. -/
theorem rounds_are_reported_truthfully_in_a :
    (∃ reports : List (Nat × OffsetSet),
      Reported (.repeated (.repeated (Pattern.lit 'a') 0 (some 1)) 5 none)
        (Sweep.offsets ⟨.plain ['a'], true⟩
          (.repeated (.repeated (Pattern.lit 'a') 0 (some 1)) 5 none) (.ofList 2 [0]))
        .empty reports ∧
      Truthful (fresh (Sweep.offsets ⟨.plain ['a'], true⟩ (.repeated (Pattern.lit 'a') 0 (some 1))))
        id (.ofList 2 [0]) 5 reports
        ((Sweep.offsets ⟨.plain ['a'], true⟩
          (.repeated (.repeated (Pattern.lit 'a') 0 (some 1)) 5 none) (.ofList 2 [0])).run
            .empty).1) ∧
    roundsOf (.repeated (.repeated (Pattern.lit 'a') 0 (some 1)) 5 none)
      ((Sweep.offsets ⟨.plain ['a'], true⟩
        (.repeated (.repeated (Pattern.lit 'a') 0 (some 1)) 5 none) (.ofList 2 [0])).run
          .empty).2.events.toList =
      [(1, .offsets [0, 1]), (2, .offsets [0, 1]), (6, .offsets [0, 1])] ∧
    (∃ reports : List (Nat × SpanSet),
      Reported (.repeated (.repeated (Pattern.lit 'a') 0 (some 1)) 5 none)
        (Sweep.spans ⟨.plain ['a'], true⟩
          (.repeated (.repeated (Pattern.lit 'a') 0 (some 1)) 5 none) (.lift (.full 2)))
        .empty reports ∧
      Truthful (fresh (Sweep.spans ⟨.plain ['a'], true⟩ (.repeated (Pattern.lit 'a') 0 (some 1))))
        id (.lift (.full 2)) 5 reports
        ((Sweep.spans ⟨.plain ['a'], true⟩
          (.repeated (.repeated (Pattern.lit 'a') 0 (some 1)) 5 none) (.lift (.full 2))).run
            .empty).1) ∧
    roundsOf (.repeated (.repeated (Pattern.lit 'a') 0 (some 1)) 5 none)
      ((Sweep.spans ⟨.plain ['a'], true⟩
        (.repeated (.repeated (Pattern.lit 'a') 0 (some 1)) 5 none) (.lift (.full 2))).run
          .empty).2.events.toList =
      [(1, .spans [(0, 0), (0, 1), (1, 1)]), (2, .spans [(0, 0), (0, 1), (1, 1)]),
        (6, .spans [(0, 0), (0, 1), (1, 1)])] ∧
    (∃ reports : List (Nat × EditStates),
      Reported (.repeated (Pattern.lit 'a') 5 none)
        (Sweep.edits ⟨.plain ['a'], true⟩ (.repeated (Pattern.lit 'a') 5 none)
          (.repetition (.of (Pattern.lit 'a'))) (.seeded 1 1 1) 0) .empty reports ∧
      Truthful (fresh (Sweep.rewoundEdits ⟨.plain ['a'], true⟩ (Pattern.lit 'a')
          ((Layout.repetition (.of (Pattern.lit 'a'))).child 0) 0))
        (·.relocate 0 (0 + ((Layout.repetition (.of (Pattern.lit 'a'))).child 0).length))
        ((EditStates.seeded 1 1 1).relocate 0 0) 5 reports
        ((Sweep.edits ⟨.plain ['a'], true⟩ (.repeated (Pattern.lit 'a') 5 none)
          (.repetition (.of (Pattern.lit 'a'))) (.seeded 1 1 1) 0).run .empty).1) ∧
    roundsOf (.repeated (Pattern.lit 'a') 5 none)
      ((Sweep.edits ⟨.plain ['a'], true⟩ (.repeated (Pattern.lit 'a') 5 none)
        (.repetition (.of (Pattern.lit 'a'))) (.seeded 1 1 1) 0).run .empty).2.events.toList =
      [(1, .states [(0, 0, 1), (1, 0, 0), (1, 0, 1)]), (2, .states [(1, 0, 1)]),
        (3, .states [])] := by
  have htruthful := rounds_are_reported_truthfully ⟨.plain ['a'], true⟩ rfl ['a'] (Or.inl rfl)
    .empty (Workspace.sound_empty _)
  obtain ⟨hoffsets, hspans, -⟩ := htruthful (.repeated (Pattern.lit 'a') 0 (some 1)) 5 none
  obtain ⟨-, -, hedits⟩ := htruthful (Pattern.lit 'a') 5 none
  have hlift : (SpanSet.lift (.full 2)).Sized 2 := SpanSet.sized_lift rfl
  exact ⟨hoffsets (.ofList 2 [0]) rfl, by decide +kernel, hspans _ hlift, by decide +kernel,
    hedits (.repetition (.of (Pattern.lit 'a'))) (.seeded 1 1 1) 0 rfl, by cbv⟩

end PatternSweep
