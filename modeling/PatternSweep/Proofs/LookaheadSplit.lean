import Mathlib.Order.Nat
import PatternSweep.Proofs.EditBounds

/-!
# A lookahead and its opposite

At every offset a condition has some match or none. So the matches of a body are split between the
positive and the negative lookahead for the condition, and its walks are as well, wherever the body
stands (`Pattern.matches_between_iff`, `Pattern.walks_between_iff`). A body and its lookaheads take
the same length on the axis. Hence the spans, the ends and the states of a pattern are those of its
two variants with a lookahead put together, and the distance of an end is the smaller one of its
distances in these (`lookaheads_split_matches`).
-/

namespace PatternSweep

theorem passes_true_or_false (R : Nat → Nat → Prop) (i : Nat) :
    Passes R true i ∨ Passes R false i :=
  Classical.em _

/-! ### The lesser of two least numbers -/

theorem eq_empty_of_forall_not_isLeast {S : Set Nat} (h : ∀ d, ¬IsLeast S d) : S = ∅ := by
  classical
  exact Set.not_nonempty_iff_eq_empty.1 fun hS => h _ hS.isLeast_natFind

/-- What is least in two sets together is the lesser of what is least in each, where there is such a
number. -/
theorem eq_merge_min {S T : Set Nat} {a b c : Option Nat} (ha : ∀ d, a = some d ↔ IsLeast S d)
    (hb : ∀ d, b = some d ↔ IsLeast T d) (hc : ∀ d, c = some d ↔ IsLeast (S ∪ T) d) :
    c = Option.merge min a b := by
  have hnone : ∀ {U : Set Nat}, (∀ d, none = some d ↔ IsLeast U d) → U = ∅ := fun hU =>
    eq_empty_of_forall_not_isLeast fun d hd => Option.some_ne_none d ((hU d).2 hd).symm
  cases a with
  | none =>
    obtain rfl := hnone ha
    rw [Set.empty_union] at hc
    have hbc : c = b := Option.ext fun d => (hc d).trans (hb d).symm
    cases b with
    | none | some => exact hbc
  | some x =>
    cases b with
    | none =>
      obtain rfl := hnone hb
      rw [Set.union_empty] at hc
      exact (hc x).2 ((ha x).1 rfl)
    | some y => exact (hc _).2 (((ha x).1 rfl).union ((hb y).1 rfl))

namespace Pattern

variable {text : List Char} {m i j : Nat} {x y a b : Pattern} {u v : Nat × Nat}

/-- `a` with `x` before it and `y` after it. -/
def between (x y a : Pattern) : Pattern := .seq [x, a, y]

theorem matches_between : (between x y a).Matches text i j ↔
    ∃ k l, a.Matches text k l ∧ x.Matches text i k ∧ y.Matches text l j := by
  simp only [between, Matches, MatchesAll, exists_eq_right]
  constructor
  · rintro ⟨k, hx, l, ha, hy⟩
    exact ⟨k, l, ha, hx, hy⟩
  · rintro ⟨k, l, ha, hx, hy⟩
    exact ⟨k, hx, l, ha, hy⟩

theorem walks_between : (between x y a).Walks text m u v ↔
    ∃ r s, a.Walks text m r s ∧ x.Walks text m u r ∧ y.Walks text m s v := by
  simp only [between, Walks, WalksAll, exists_eq_right]
  constructor
  · rintro ⟨r, hx, s, ha, hy⟩
    exact ⟨r, s, ha, hx, hy⟩
  · rintro ⟨r, s, ha, hx, hy⟩
    exact ⟨r, hx, s, ha, hy⟩

/-- Where the condition has some match the positive lookahead takes over from its body, and where it
has none the negative one does. -/
theorem matches_iff_ahead (b : Pattern) : a.Matches text i j ↔
    (Pattern.ahead true b a).Matches text i j ∨ (Pattern.ahead false b a).Matches text i j := by
  rw [Matches, Matches, ← and_or_left]
  exact (and_iff_left (passes_true_or_false (b.Matches text) i)).symm

theorem walks_iff_ahead (b : Pattern) : a.Walks text m u v ↔
    (Pattern.ahead true b a).Walks text m u v ∨ (Pattern.ahead false b a).Walks text m u v := by
  rw [Walks, Walks, ← and_or_left]
  exact (and_iff_left (passes_true_or_false (b.Matches text) u.1)).symm

/-- What the body is split into splits the whole. -/
theorem matches_between_or {q r : Pattern}
    (h : ∀ i j, a.Matches text i j ↔ q.Matches text i j ∨ r.Matches text i j) :
    (between x y a).Matches text i j ↔
      (between x y q).Matches text i j ∨ (between x y r).Matches text i j := by
  simp only [matches_between, h, or_and_right, exists_or]

theorem walks_between_or {q r : Pattern}
    (h : ∀ u v, a.Walks text m u v ↔ q.Walks text m u v ∨ r.Walks text m u v) :
    (between x y a).Walks text m u v ↔
      (between x y q).Walks text m u v ∨ (between x y r).Walks text m u v := by
  simp only [walks_between, h, or_and_right, exists_or]

theorem matches_between_iff (b : Pattern) : (between x y a).Matches text i j ↔
    (between x y (.ahead true b a)).Matches text i j ∨
      (between x y (.ahead false b a)).Matches text i j :=
  matches_between_or fun _ _ => matches_iff_ahead b

theorem walks_between_iff (b : Pattern) : (between x y a).Walks text m u v ↔
    (between x y (.ahead true b a)).Walks text m u v ∨
      (between x y (.ahead false b a)).Walks text m u v :=
  walks_between_or fun _ _ => walks_iff_ahead b

/-- No match of a lookahead is one of its opposite, for both start at the same offset. -/
theorem not_matches_opposite (hpos : (Pattern.ahead true b a).Matches text i j) :
    ¬(Pattern.ahead false b a).Matches text i j :=
  fun hneg => hneg.2 hpos.2

end Pattern

/-! ### The results for two patterns together -/

namespace Subject

variable {s : Subject} {text : List Char} {p q r : Pattern} {m e : Nat}

theorem mem_matchEnds_or (hs : s.Over text)
    (h : ∀ i j, p.Matches text i j ↔ q.Matches text i j ∨ r.Matches text i j) :
    e ∈ s.matchEnds p ↔ e ∈ s.matchEnds q ∨ e ∈ s.matchEnds r := by
  simp only [mem_matchEnds hs, h, and_or_left, exists_or]

theorem mem_matchSpans_or (hs : s.Over text)
    (h : ∀ i j, p.Matches text i j ↔ q.Matches text i j ∨ r.Matches text i j) {span : Span} :
    span ∈ s.matchSpans p ↔ span ∈ s.matchSpans q ∨ span ∈ s.matchSpans r := by
  obtain ⟨i, j⟩ := span
  simp only [mem_matchSpans hs, h, and_or_left]

theorem reached_or (h : ∀ u v, p.Walks text m u v ↔ q.Walks text m u v ∨ r.Walks text m u v)
    (v : Nat × Nat) : p.Reached text m v ↔ q.Reached text m v ∨ r.Reached text m v := by
  simp only [Pattern.Reached, h, or_and_right, exists_or, and_or_left]

theorem mem_editStates_or (hs : s.Over text)
    (h : ∀ u v, p.Walks text m u v ↔ q.Walks text m u v ∨ r.Walks text m u v)
    (hq : q.axisLength = p.axisLength) (hr : r.axisLength = p.axisLength)
    {state : Nat × Nat × Nat} : state ∈ s.editStates p (.of p) m ↔
      state ∈ s.editStates q (.of q) m ∨ state ∈ s.editStates r (.of r) m := by
  obtain ⟨t, l, d⟩ := state
  rw [mem_editStates_iff_reached hs, mem_editStates_iff_reached hs, mem_editStates_iff_reached hs,
    hq, hr, reached_or h, and_or_left]

/-- The states of a pattern are the union of those of two patterns of its length, if its walks
are. -/
theorem union?_editStates (hs : s.Over text)
    (h : ∀ u v, p.Walks text m u v ↔ q.Walks text m u v ∨ r.Walks text m u v)
    (hq : q.axisLength = p.axisLength) (hr : r.axisLength = p.axisLength) :
    (s.editStates q (.of q) m).union? (s.editStates r (.of r) m) =
      .ok (s.editStates p (.of p) m) := by
  have hshows := shows_editStates hs p m
  have hfirst := shows_editStates hs q m
  have hsecond := shows_editStates hs r m
  rw [hq] at hfirst
  rw [hr] at hsecond
  obtain ⟨htext, hpattern, hmost⟩ := hfirst.1.1
  obtain ⟨htext', hpattern', hmost'⟩ := hsecond.1.1
  have hcompatible :
      (s.editStates q (.of q) m).isCompatible (s.editStates r (.of r) m) = true := by
    simp [EditStates.isCompatible, htext, hpattern, hmost, htext', hpattern', hmost']
  unfold EditStates.union?
  rw [if_pos hcompatible]
  exact congrArg _ ((hfirst.join hsecond).eq (hshows.congr (reached_or h)))

/-- The distance of an end is the smaller one of its distances in two patterns. -/
theorem distance?_eq_merge (hs : s.Over text)
    (h : ∀ u v, p.Walks text m u v ↔ q.Walks text m u v ∨ r.Walks text m u v) :
    (s.endDistances p (.of p) m).distance? e = Option.merge min
      ((s.endDistances q (.of q) m).distance? e) ((s.endDistances r (.of r) m).distance? e) := by
  have hunion : {n | p.Reached text m (e, n)} =
      {n | q.Reached text m (e, n)} ∪ {n | r.Reached text m (e, n)} :=
    Set.ext fun n => reached_or h (e, n)
  refine eq_merge_min (fun d => distance?_eq_some_iff_reached hs)
    (fun d => distance?_eq_some_iff_reached hs) fun d => ?_
  rw [← hunion]
  exact distance?_eq_some_iff_reached hs

end Subject

/-- **A lookahead and its opposite split every match.** Let a body stand between two patterns, and
let it be replaced by its positive and by its negative lookahead for the same condition. Then the
spans, the ends and, for every bound, the states of the pattern are those of the two variants put
together, and the distance of an end is the smaller one of its distances in the variants. If there
is nothing around the body, no span belongs to both. Within its limits a query gives the same. -/
theorem lookaheads_split_matches :
    (∀ (s : Subject) (text : List Char), s.Over text → ∀ x a b y : Pattern,
      (∀ span, span ∈ s.matchSpans (.between x y a) ↔
        span ∈ s.matchSpans (.between x y (.ahead true b a)) ∨
          span ∈ s.matchSpans (.between x y (.ahead false b a))) ∧
      (∀ e, e ∈ s.matchEnds (.between x y a) ↔
        e ∈ s.matchEnds (.between x y (.ahead true b a)) ∨
          e ∈ s.matchEnds (.between x y (.ahead false b a))) ∧
      ∀ m, (∀ state, state ∈ s.editStates (.between x y a) (.of (.between x y a)) m ↔
          state ∈ s.editStates (.between x y (.ahead true b a))
              (.of (.between x y (.ahead true b a))) m ∨
            state ∈ s.editStates (.between x y (.ahead false b a))
              (.of (.between x y (.ahead false b a))) m) ∧
        (s.editStates (.between x y (.ahead true b a)) (.of (.between x y (.ahead true b a))) m
          ).union? (s.editStates (.between x y (.ahead false b a))
            (.of (.between x y (.ahead false b a))) m) =
          .ok (s.editStates (.between x y a) (.of (.between x y a)) m) ∧
        ∀ e, (s.endDistances (.between x y a) (.of (.between x y a)) m).distance? e =
          Option.merge min
            ((s.endDistances (.between x y (.ahead true b a))
              (.of (.between x y (.ahead true b a))) m).distance? e)
            ((s.endDistances (.between x y (.ahead false b a))
              (.of (.between x y (.ahead false b a))) m).distance? e)) ∧
    (∀ (s : Subject) (text : List Char), s.Over text → ∀ a b : Pattern,
      (s.matchSpans (.between (.seq []) (.seq []) (.ahead true b a))).Disjoint
        (s.matchSpans (.between (.seq []) (.seq []) (.ahead false b a)))) ∧
    ∀ (q qpos qneg : Query) (x a b y : Pattern) (text : String), q.root = .between x y a →
      qpos.root = .between x y (.ahead true b a) → qneg.root = .between x y (.ahead false b a) →
      qpos.limits = q.limits → qneg.limits = q.limits →
      text.toList.length ≤ q.limits.maxTextLength →
      (∃ all pos neg, q.matchSpans text = .ok all ∧ qpos.matchSpans text = .ok pos ∧
        qneg.matchSpans text = .ok neg ∧ ∀ span, span ∈ all ↔ span ∈ pos ∨ span ∈ neg) ∧
      (∃ all pos neg, q.matchEnds text = .ok all ∧ qpos.matchEnds text = .ok pos ∧
        qneg.matchEnds text = .ok neg ∧ ∀ e, e ∈ all ↔ e ∈ pos ∨ e ∈ neg) ∧
      ∀ m, m ≤ q.limits.maxDistance → ∃ all pos neg, q.matchWithin text m = .ok all ∧
        qpos.matchWithin text m = .ok pos ∧ qneg.matchWithin text m = .ok neg ∧
        ∀ e, all.distance? e = Option.merge min (pos.distance? e) (neg.distance? e) := by
  refine ⟨fun s text hs x a b y => ⟨fun span => ?_, fun e => ?_, fun m => ⟨fun state => ?_, ?_,
    fun e => ?_⟩⟩, ?_, ?_⟩
  · exact Subject.mem_matchSpans_or hs fun _ _ => Pattern.matches_between_iff b
  · exact Subject.mem_matchEnds_or hs fun _ _ => Pattern.matches_between_iff b
  · exact Subject.mem_editStates_or hs (fun _ _ => Pattern.walks_between_iff b) rfl rfl
  · exact Subject.union?_editStates hs (fun _ _ => Pattern.walks_between_iff b) rfl rfl
  · exact Subject.distance?_eq_merge hs fun _ _ => Pattern.walks_between_iff b
  · rintro s text hs a b ⟨i, j⟩ hpos hneg
    rw [Subject.mem_matchSpans hs, Pattern.matches_between] at hpos hneg
    obtain ⟨-, k, l, hpos, hik, hlj⟩ := hpos
    obtain ⟨-, k', l', hneg, hik', hlj'⟩ := hneg
    -- nothing is before the body and nothing after it
    obtain rfl : i = k := hik
    obtain rfl : l = j := hlj
    obtain rfl : i = k' := hik'
    obtain rfl : l' = l := hlj'
    exact Pattern.not_matches_opposite hpos hneg
  · intro q qpos qneg x a b y text hq hpos hneg hlpos hlneg hlength
    have hplain : (Subject.plain text.toList).Over text.toList := Or.inl rfl
    have hlengthpos : text.toList.length ≤ qpos.limits.maxTextLength := hlpos ▸ hlength
    have hlengthneg : text.toList.length ≤ qneg.limits.maxTextLength := hlneg ▸ hlength
    refine ⟨⟨_, _, _, Query.matchSpans_eq hlength, Query.matchSpans_eq hlengthpos,
        Query.matchSpans_eq hlengthneg, fun span => ?_⟩,
      ⟨_, _, _, Query.matchEnds_eq hlength, Query.matchEnds_eq hlengthpos,
        Query.matchEnds_eq hlengthneg, fun e => ?_⟩,
      fun m hm => ⟨_, _, _, Query.matchWithin_eq hm hlength,
        Query.matchWithin_eq (hlpos ▸ hm) hlengthpos,
        Query.matchWithin_eq (hlneg ▸ hm) hlengthneg, fun e => ?_⟩⟩
    · rw [hq, hpos, hneg]
      exact Subject.mem_matchSpans_or hplain fun _ _ => Pattern.matches_between_iff b
    · rw [hq, hpos, hneg]
      exact Subject.mem_matchEnds_or hplain fun _ _ => Pattern.matches_between_iff b
    · rw [hq, hpos, hneg]
      exact Subject.distance?_eq_merge hplain fun _ _ => Pattern.walks_between_iff b

/-- Any character, where a `b` follows and where none does, over the text `ab`: at the start of the
text, and after at most one `a`. With the last, no edit is needed for the end `1` if no `b` follows,
and one if a `b` has to. -/
theorem lookaheads_split_matches_in_ab :
    (∀ state, state ∈ (Subject.plain ['a', 'b']).editStates
        (.between (.seq []) (.seq []) (.atom .any))
        (.of (.between (.seq []) (.seq []) (.atom .any))) 1 ↔
      state ∈ (Subject.plain ['a', 'b']).editStates
          (.between (.seq []) (.seq []) (.ahead true (Pattern.lit 'b') (.atom .any)))
          (.of (.between (.seq []) (.seq []) (.ahead true (Pattern.lit 'b') (.atom .any)))) 1 ∨
        state ∈ (Subject.plain ['a', 'b']).editStates
          (.between (.seq []) (.seq []) (.ahead false (Pattern.lit 'b') (.atom .any)))
          (.of (.between (.seq []) (.seq []) (.ahead false (Pattern.lit 'b') (.atom .any)))) 1) ∧
    ((Subject.plain ['a', 'b']).matchSpans (.between (.seq []) (.seq [])
        (.ahead true (Pattern.lit 'b') (.atom .any)))).Disjoint
      ((Subject.plain ['a', 'b']).matchSpans (.between (.seq []) (.seq [])
        (.ahead false (Pattern.lit 'b') (.atom .any)))) ∧
    let q : Query := .ofPattern (.between (.repeated (Pattern.lit 'a') 0 (some 1)) (.seq [])
      (.atom .any))
    let qpos : Query := .ofPattern (.between (.repeated (Pattern.lit 'a') 0 (some 1)) (.seq [])
      (.ahead true (Pattern.lit 'b') (.atom .any)))
    let qneg : Query := .ofPattern (.between (.repeated (Pattern.lit 'a') 0 (some 1)) (.seq [])
      (.ahead false (Pattern.lit 'b') (.atom .any)))
    (∃ all pos neg, q.matchSpans "ab" = .ok all ∧ qpos.matchSpans "ab" = .ok pos ∧
      qneg.matchSpans "ab" = .ok neg ∧ pos = [⟨0, 2⟩, ⟨1, 2⟩] ∧ neg = [⟨0, 1⟩] ∧
      ∀ span, span ∈ all ↔ span ∈ pos ∨ span ∈ neg) ∧
    ∃ all pos neg, q.matchWithin "ab" 1 = .ok all ∧ qpos.matchWithin "ab" 1 = .ok pos ∧
      qneg.matchWithin "ab" 1 = .ok neg ∧ all.best = [(0, 1), (1, 0), (2, 0)] ∧
      pos.best = [(1, 1), (2, 0)] ∧ neg.best = [(0, 1), (1, 0), (2, 1)] ∧
      ∀ e, all.distance? e = Option.merge min (pos.distance? e) (neg.distance? e) := by
  obtain ⟨hsubject, hdisjoint, hquery⟩ := lookaheads_split_matches
  have hplain : (Subject.plain ['a', 'b']).Over ['a', 'b'] := Or.inl rfl
  refine ⟨((hsubject _ _ hplain (.seq []) (.atom .any) (Pattern.lit 'b') (.seq [])).2.2 1).1,
    hdisjoint _ _ hplain _ _, ?_⟩
  intro q qpos qneg
  obtain ⟨⟨all, pos, neg, hall, hpos, hneg, hsplit⟩, -, hwithin⟩ := hquery q qpos qneg
    _ _ _ _ "ab" rfl rfl rfl rfl rfl (by decide)
  obtain ⟨dall, dpos, dneg, hdall, hdpos, hdneg, hmerge⟩ := hwithin 1 (by decide)
  have hposvalue : qpos.matchSpans "ab" = .ok [⟨0, 2⟩, ⟨1, 2⟩] := by decide
  have hnegvalue : qneg.matchSpans "ab" = .ok [⟨0, 1⟩] := by decide
  have hbest : dall.best = [(0, 1), (1, 0), (2, 0)] :=
    Query.best_matchWithin (l := [(0, 1), (1, 0), (1, 1), (2, 0), (2, 1)]) hdall (by decide)
      (by decide) (by decide +kernel) (by decide)
  have hbestpos : dpos.best = [(1, 1), (2, 0)] :=
    Query.best_matchWithin (l := [(1, 1), (2, 0), (2, 1)]) hdpos (by decide) (by decide)
      (by decide +kernel) (by decide)
  have hbestneg : dneg.best = [(0, 1), (1, 0), (2, 1)] :=
    Query.best_matchWithin (l := [(0, 1), (1, 0), (1, 1), (2, 1)]) hdneg (by decide) (by decide)
      (by decide +kernel) (by decide)
  rw [hposvalue] at hpos
  rw [hnegvalue] at hneg
  cases hpos
  cases hneg
  exact ⟨⟨all, _, _, hall, hposvalue, hnegvalue, rfl, rfl, hsplit⟩,
    dall, dpos, dneg, hdall, hdpos, hdneg, hbest, hbestpos, hbestneg, hmerge⟩

end PatternSweep
