import PatternSweep.Proofs.Invariance
import PatternSweep.Proofs.RoundTrip
import PatternSweep.Proofs.WrittenRuns

/-!
# Collapsed patterns mean the same

A sequence or an alternation of one part has the matches, the walks and the length of that part, so
the collapsed pattern has those of the pattern (`matches_collapse`, `walks_collapse`,
`axisLength_collapse`). A pattern in writing is read as the collapsed pattern or not at all; hence
what it is read as gives the same results (`writing_keeps_meaning`).
-/

namespace PatternSweep

open Grammar

namespace Pattern

variable {text : List Char} {most : Nat} {ps : List Pattern}

/-! ### Matches -/

theorem matches_oneOr_seq (text : List Char) (ps : List Pattern) :
    (oneOr .seq ps).Matches text = MatchesAll text ps := by
  match ps with
  | [] | _ :: _ :: _ => rfl
  | [p] =>
    funext i j
    simp [oneOr, MatchesAll]

theorem matches_oneOr_alt (text : List Char) (ps : List Pattern) :
    (oneOr .alt ps).Matches text = MatchesAny text ps := by
  match ps with
  | [] | _ :: _ :: _ => rfl
  | [p] =>
    funext i j
    simp [oneOr, MatchesAny]

theorem matches_collapse (text : List Char) (p : Pattern) :
    p.collapse.Matches text = p.Matches text := by
  induction p using Pattern.induct with
  | atom a => rfl
  | seq ps ih =>
    rw [collapse, matches_oneOr_seq, Matches]
    induction ps with
    | nil => rfl
    | cons p ps ihps =>
      obtain ⟨hp, hps⟩ := List.forall_mem_cons.1 ih
      rw [collapses, MatchesAll, MatchesAll, hp, ihps hps]
  | alt ps ih =>
    rw [collapse, matches_oneOr_alt, Matches]
    induction ps with
    | nil => rfl
    | cons p ps ihps =>
      obtain ⟨hp, hps⟩ := List.forall_mem_cons.1 ih
      rw [collapses, MatchesAny, MatchesAny, hp, ihps hps]
  | repeated e min max ih => rw [collapse, Matches, Matches, ih]
  | ahead positive c p ihc ihp => rw [collapse, Matches, Matches, ihc, ihp]

/-! ### Walks -/

theorem walks_oneOr_seq (text : List Char) (most : Nat) (ps : List Pattern) :
    (oneOr .seq ps).Walks text most = WalksAll text most ps := by
  match ps with
  | [] | _ :: _ :: _ => rfl
  | [p] =>
    funext x y
    simp [oneOr, WalksAll]

theorem walks_oneOr_alt (text : List Char) (most : Nat) (ps : List Pattern) :
    (oneOr .alt ps).Walks text most = WalksAny text most ps := by
  match ps with
  | [] | _ :: _ :: _ => rfl
  | [p] =>
    funext x y
    simp [oneOr, WalksAny]

theorem walks_collapse (text : List Char) (most : Nat) (p : Pattern) :
    p.collapse.Walks text most = p.Walks text most := by
  induction p using Pattern.induct with
  | atom a => rfl
  | seq ps ih =>
    rw [collapse, walks_oneOr_seq, Walks]
    induction ps with
    | nil => rfl
    | cons p ps ihps =>
      obtain ⟨hp, hps⟩ := List.forall_mem_cons.1 ih
      rw [collapses, WalksAll, WalksAll, hp, ihps hps]
  | alt ps ih =>
    rw [collapse, walks_oneOr_alt, Walks]
    induction ps with
    | nil => rfl
    | cons p ps ihps =>
      obtain ⟨hp, hps⟩ := List.forall_mem_cons.1 ih
      rw [collapses, WalksAny, WalksAny, hp, ihps hps]
  | repeated e min max ih => rw [collapse, Walks, Walks, ih]
  | ahead positive c p ihc ihp =>
    -- the condition of a lookahead is decided without edits
    rw [collapse, Walks, Walks, ihp, matches_collapse]

/-! ### Lengths -/

theorem axisLength_oneOr_seq (ps : List Pattern) :
    (oneOr .seq ps).axisLength = (seq ps).axisLength := by
  match ps with
  | [] | _ :: _ :: _ => rfl
  | [p] => simp [oneOr, axisLength_seq]

theorem axisLength_oneOr_alt (ps : List Pattern) :
    (oneOr .alt ps).axisLength = (alt ps).axisLength := by
  match ps with
  | [] | _ :: _ :: _ => rfl
  | [p] => simp [oneOr, axisLength_alt]

theorem axisLength_collapse (p : Pattern) : p.collapse.axisLength = p.axisLength := by
  induction p using Pattern.induct with
  | atom a => rfl
  | seq ps ih =>
    rw [collapse, axisLength_oneOr_seq, axisLength_seq, axisLength_seq, collapses_eq_map,
      List.map_map]
    exact congrArg _ (List.map_congr_left ih)
  | alt ps ih =>
    rw [collapse, axisLength_oneOr_alt, axisLength_alt, axisLength_alt, collapses_eq_map,
      List.map_map]
    exact congrArg _ (List.map_congr_left ih)
  | repeated e min max ih => exact ih
  | ahead positive c p _ ih => exact ih

end Pattern

/-! ### Results -/

/-- **Writing a pattern keeps its meaning.** If the text that a pattern is written as is read, it is
read as the pattern with single parts in the place of their sequences and alternations, and this
gives the same spans, the same ends, and the same ends with any number of edits, each on its own
layout. The text is not read if some node is an empty sequence, alternation or class, or has a
reversed range or counts out of order; it is read if there is no such node, the counts are numbers
of 64 bits and the nesting has room. -/
theorem writing_keeps_meaning :
    (∀ t u : Pattern, Pattern.parse t.render = .ok u → u = t.collapse ∧
      ∀ (limits : Limits) (text : String),
        ((Query.ofPattern u).withLimits limits).matchSpans text =
          ((Query.ofPattern t).withLimits limits).matchSpans text ∧
        ((Query.ofPattern u).withLimits limits).matchEnds text =
          ((Query.ofPattern t).withLimits limits).matchEnds text ∧
        ∀ distance, ((Query.ofPattern u).withLimits limits).matchWithin text distance =
          ((Query.ofPattern t).withLimits limits).matchWithin text distance) ∧
    (∀ t q : Pattern, q.NodeOf t → ¬q.Regular 1 → ∃ e, Pattern.parse t.render = .error e) ∧
    ∀ t : Pattern, t.Sound → t.Everywhere Pattern.HasWordCounts → t.nesting ≤ nestingLimit →
      Pattern.parse t.render = .ok t.collapse := by
  refine ⟨fun t u hparse => ?_, fun t q hq hregular => ?_,
    fun t => Pattern.parse_render_of_sound⟩
  · obtain ⟨-, rfl⟩ := Pattern.parse_render_eq_ok hparse
    refine ⟨rfl, fun limits text => ⟨?_, ?_, fun distance => ?_⟩⟩
    · refine Query.matchSpans_congr rfl fun i j => ?_
      exact iff_of_eq (congrFun₂ (Pattern.matches_collapse text.toList t) i j)
    · refine Query.matchEnds_congr rfl fun i j => ?_
      exact iff_of_eq (congrFun₂ (Pattern.matches_collapse text.toList t) i j)
    · refine Query.matchWithin_congr rfl (Pattern.axisLength_collapse t) fun x y => ?_
      exact iff_of_eq (congrFun₂ (Pattern.walks_collapse text.toList distance t) x y)
  · cases hparse : Pattern.parse t.render with
    | error e => exact ⟨e, rfl⟩
    | ok u =>
      obtain ⟨hsound, -⟩ := Pattern.parse_render_eq_ok hparse
      exact absurd (hsound q hq) hregular

/-- An `a` as an alternation of one branch before a `b`, and an `a` with its counts out of order
under the condition of a lookahead. -/
theorem writing_keeps_meaning_of_ab :
    (Pattern.parse "(a)b" = .ok (.seq [Pattern.lit 'a', Pattern.lit 'b']) ∧
      ((Query.ofPattern (.seq [Pattern.lit 'a', Pattern.lit 'b'])).withLimits .standard).matchWithin
          "cab" 1 =
        ((Query.ofPattern (.seq [.alt [Pattern.lit 'a'], Pattern.lit 'b'])).withLimits
          .standard).matchWithin "cab" 1) ∧
    ∃ e, Pattern.parse "(?=a{3,2})b" = .error e := by
  obtain ⟨hmeaning, hfault, hread⟩ := writing_keeps_meaning
  have hrender : (Pattern.seq [.alt [Pattern.lit 'a'], Pattern.lit 'b']).render = "(a)b" := by
    decide
  have hsound : (Pattern.seq [.alt [Pattern.lit 'a'], Pattern.lit 'b']).Sound := by
    simp [Pattern.Sound, Pattern.Regular, Pattern.lit]
  have hcounts : (Pattern.seq [.alt [Pattern.lit 'a'], Pattern.lit 'b']).Everywhere
      Pattern.HasWordCounts := by
    simp [Pattern.HasWordCounts, Pattern.lit]
  have hparse := hread _ hsound hcounts (by decide)
  obtain ⟨-, hresults⟩ := hmeaning _ _ hparse
  rw [hrender] at hparse
  refine ⟨⟨hparse, (hresults .standard "cab").2.2 1⟩, ?_⟩
  have hnode : (Pattern.repeated (Pattern.lit 'a') 3 (some 2)).NodeOf
      (.ahead true (.repeated (Pattern.lit 'a') 3 (some 2)) (Pattern.lit 'b')) :=
    .part List.mem_cons_self .root
  have hregular : ¬(Pattern.repeated (Pattern.lit 'a') 3 (some 2)).Regular 1 := by
    simp [Pattern.Regular]
  have herror := hfault _ _ hnode hregular
  have hwritten : (Pattern.ahead true (.repeated (Pattern.lit 'a') 3 (some 2))
      (Pattern.lit 'b')).render = "(?=a{3,2})b" := by decide
  rw [hwritten] at herror
  exact herror

end PatternSweep
