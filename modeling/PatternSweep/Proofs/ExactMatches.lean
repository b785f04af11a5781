import PatternSweep.Proofs.Matches
import PatternSweep.Proofs.Realises
import PatternSweep.Query

/-!
# Exact sweeps find the matches

An exact sweep over spans realises the matches of its pattern with the start carried along
(`Sweep.realises_spans`), and one over offsets realises the matches themselves
(`Sweep.realises_offsets`). Both are inductions on the pattern. The body of a lookahead keeps the
entries at which a sweep of its condition, started from these entries, has found some match or none
(`Sweep.yields_lookahead`).
-/

namespace PatternSweep

/-- `R` on the second components; the first ones stay as they are. -/
def Carry (R : Nat → Nat → Prop) (a b : Nat × Nat) : Prop := a.1 = b.1 ∧ R a.2 b.2

section

variable {R S : Nat → Nat → Prop} {a b c : Nat × Nat} {k bound : Nat}

theorem carry_eq : a = b ↔ Carry (fun i j => i = j) a b := Prod.ext_iff

theorem carry_comp : (∃ b, Carry R a b ∧ Carry S b c) ↔
    Carry (fun i j => ∃ m, R i m ∧ S m j) a c := by
  obtain ⟨s, i⟩ := a
  obtain ⟨t, j⟩ := c
  constructor
  · intro hx
    obtain ⟨⟨_, m⟩, ⟨rfl, hR⟩, rfl, hS⟩ := hx
    exact ⟨rfl, m, hR, hS⟩
  · rintro ⟨rfl, m, hR, hS⟩
    exact ⟨(s, m), ⟨rfl, hR⟩, rfl, hS⟩

theorem carry_or : Carry (fun i j => R i j ∨ S i j) a b ↔ Carry R a b ∨ Carry S a b := and_or_left

theorem iter_carry : Iter (Carry R) k a b ↔ Carry (Iter R k) a b := by
  induction k generalizing b with
  | zero => exact carry_eq
  | succ k ih =>
    refine Iff.trans (exists_congr fun m => ?_) (carry_comp (R := Iter R k))
    rw [ih]

theorem climbs_carry (hR : Climbs id bound R) : Climbs Prod.snd bound (Carry R) where
  stays_or_rises h := (hR.stays_or_rises h.2).imp_left fun h₂ => Prod.ext h.1 h₂
  rank_le h ha := hR.rank_le h.2 ha

end

namespace Sweep

variable {s : Sweep} {text : List Char} {p c : Pattern} {ps : List Pattern}

/-! ### Spans -/

/-- An atom makes the spans longer that end before a character that it takes. -/
theorem realises_atomSpans (hs : s.subject.Over text) (a : Atom) :
    Realises s.subject (SpanSet.view (text.length + 1)) (SpanSet.view (text.length + 1))
      (s.atomSpans a) (Carry ((Pattern.atom a).Matches text)) := by
  intro input P hinput
  have hadvance : ∀ hit : Nat → Bool, (∀ j, hit j = true ↔ s.subject.takes a j = true) →
      (SpanSet.view (text.length + 1)).Shows (input.advance hit)
        (Image (Carry ((Pattern.atom a).Matches text)) P) := by
    intro hit hhit
    refine ⟨SpanSet.sized_advance hinput.1, ?_⟩
    rintro ⟨i, j⟩
    show (i, j) ∈ input.advance hit ↔ _
    rw [SpanSet.mem_advance]
    constructor
    · rintro ⟨e, he, htakes, rfl, -⟩
      exact ⟨(i, e), (hinput.2 _).1 he, rfl, rfl, hs.takes_iff.1 ((hhit e).1 htakes)⟩
    · intro hx
      obtain ⟨⟨_, e⟩, he, rfl, rfl, htakes⟩ := hx
      have htakes : s.subject.takes a e = true := hs.takes_iff.2 htakes
      have hsize : input.size = text.length + 1 := hinput.1.1
      refine ⟨e, (hinput.2 _).2 he, (hhit e).2 htakes, rfl, ?_⟩
      have hlt := hs.lt_of_takes htakes
      omega
  unfold atomSpans
  refine yields_atomMask.bind fun mask hmask => ?_
  cases mask with
  | none => exact Yields.pure (hadvance _ fun j => Iff.rfl)
  | some mask =>
    refine Yields.pure (hadvance _ fun j => ?_)
    rw [← OffsetSet.mem_iff]
    exact Subject.mem_mask hs hmask.symm

/-- What is allowed shows the entries that pass, if the spans show the matches from them. -/
theorem mem_allowed {entries : OffsetSet} {matched : SpanSet} {R : Nat → Nat → Prop} {n : Nat}
    (hsized : matched.Sized n) (hmatched : ∀ i j, (i, j) ∈ matched ↔ i ∈ entries ∧ R i j)
    {positive : Bool} {i : Nat} :
    i ∈ allowed positive entries matched ↔ i ∈ entries ∧ Passes R positive i := by
  cases positive with
  | true =>
    simp only [allowed, if_true, SpanSet.mem_starts hsized, hmatched, exists_and_left, Passes]
  | false =>
    simp only [allowed, Bool.false_eq_true, if_false, OffsetSet.mem_diff,
      SpanSet.mem_starts hsized, hmatched, exists_and_left, Passes]
    exact ⟨fun ⟨h, hnot⟩ => ⟨h, fun hR => hnot ⟨h, hR⟩⟩, fun ⟨h, hnot⟩ => ⟨h, fun hR => hnot hR.2⟩⟩

theorem size_allowed {positive : Bool} {entries : OffsetSet} {matched : SpanSet} {n : Nat}
    (hentries : entries.size = n) (hmatched : matched.size = n) :
    (allowed positive entries matched).size = n := by
  unfold allowed
  split
  · exact SpanSet.size_starts.trans hmatched
  · exact hentries

/-- The spans that a condition finds from a set of entries are its matches from these. -/
theorem yields_lifted
    (h : Realises s.subject (SpanSet.view (text.length + 1)) (SpanSet.view (text.length + 1))
      (s.spans c) (Carry (c.Matches text)))
    {entries : OffsetSet} (hsize : entries.size = text.length + 1) :
    Yields s.subject (s.spans c (.lift entries)) fun matched =>
      matched.Sized (text.length + 1) ∧
        ∀ i j, (i, j) ∈ matched ↔ i ∈ entries ∧ c.Matches text i j := by
  refine (h (.lift entries) (fun r => r.1 = r.2 ∧ r.1 ∈ entries)
    ⟨SpanSet.sized_lift hsize, fun r => SpanSet.mem_lift⟩).imp fun matched hmatched => ?_
  refine ⟨hmatched.1, fun i j => ?_⟩
  rw [show (i, j) ∈ matched ↔ _ from hmatched.2 (i, j)]
  constructor
  · intro hx
    obtain ⟨⟨t, e⟩, ⟨hte, he⟩, hti, hm⟩ := hx
    obtain rfl : t = e := hte
    obtain rfl : t = i := hti
    exact ⟨he, hm⟩
  · rintro ⟨hi, hm⟩
    exact ⟨(i, i), ⟨rfl, hi⟩, rfl, hm⟩

/-- **A sweep over spans realises the matches of its pattern**, each start being carried along. -/
theorem realises_spans (hs : s.subject.Over text) (p : Pattern) :
    Realises s.subject (SpanSet.view (text.length + 1)) (SpanSet.view (text.length + 1))
      (s.spans p) (Carry (p.Matches text)) := by
  induction p using Pattern.induct with
  | atom a =>
    intro input P hinput
    rw [spans]
    exact yields_step (realises_atomSpans hs a input P hinput)
  | seq ps ih =>
    intro input P hinput
    rw [spans]
    unfold Pattern.Matches
    apply yields_step
    exact Realises.inTurn (seqSpans s) (fun ps => Carry (Pattern.MatchesAll text ps))
      (fun _ => by rw [seqSpans]) (fun _ _ _ => by rw [seqSpans])
      (fun _ _ => carry_eq) (fun _ _ _ _ => carry_comp) ih input P hinput
  | alt ps ih =>
    intro input P hinput
    rw [spans]
    unfold Pattern.Matches
    apply yields_step
    refine (Realises.among (altSpans s) (fun ps => Carry (Pattern.MatchesAny text ps))
      (Q := fun _ => False) (fun _ _ => by rw [altSpans]) (fun _ _ _ _ => by rw [altSpans]; rfl)
      (fun _ _ h => h.2) (fun _ _ _ _ => carry_or) ih hinput ?_).imp
        fun out hout => hout.congr fun b => or_iff_right id
    exact ⟨hinput.1.1 ▸ SpanSet.sized_empty, fun r => iff_of_false SpanSet.not_mem_empty id⟩
  | repeated e min max ih =>
    intro input P hinput
    rw [spans]
    unfold Pattern.Matches
    apply yields_step
    have hceiling : text.length + 2 ≤ s.subject.length + 2 := by
      have := hs.length_eq
      omega
    refine (ih.repetition (climbs_carry (Pattern.climbs_matches text e)) ?_ hceiling).congr
      (fun a b => ?_) input P hinput
    · intro input r hinput hr
      have hlt : r.2 < text.length + 1 := SpanSet.Sized.end_lt hinput hr
      omega
    · simp only [iter_carry]
      constructor
      · rintro ⟨k, hk, h₁, h₂⟩
        exact ⟨h₁, k, hk, h₂⟩
      · rintro ⟨h₁, k, hk, h₂⟩
        exact ⟨k, hk, h₁, h₂⟩
  | ahead positive c p ihc ihp =>
    intro input P hinput
    rw [spans]
    unfold Pattern.Matches
    apply yields_step
    -- the condition is matched from the ends of the spans, whatever their starts
    have hends : input.ends.size = text.length + 1 := hinput.1.1
    refine (yields_lifted ihc hends).bind ?_
    rintro matched ⟨hsized, hmatched⟩
    have hkept : (SpanSet.view (text.length + 1)).Shows
        (input.keepEnds (allowed positive input.ends matched))
        fun r => P r ∧ Passes (c.Matches text) positive r.2 := by
      refine ⟨SpanSet.sized_keepEnds hinput.1, ?_⟩
      rintro ⟨i, j⟩
      show (i, j) ∈ input.keepEnds _ ↔ _
      rw [SpanSet.mem_keepEnds, mem_allowed hsized hmatched, ← and_assoc]
      refine and_congr_left fun _ => (and_iff_left_of_imp fun hr => ?_).trans (hinput.2 (i, j))
      exact SpanSet.mem_ends.2 ⟨i, hr⟩
    refine (ihp _ _ hkept).imp fun out hout => hout.congr fun b => exists_congr fun a => ?_
    constructor
    · rintro ⟨⟨hP, hpass⟩, h₁, hm⟩
      exact ⟨hP, h₁, hm, hpass⟩
    · rintro ⟨hP, h₁, hm, hpass⟩
      exact ⟨⟨hP, hpass⟩, h₁, hm⟩

/-- A lookahead gives the entries at which its condition has some match, or none. -/
theorem yields_lookahead (hs : s.subject.Over text) (c : Pattern) {entries : OffsetSet}
    (hsize : entries.size = text.length + 1) (positive : Bool) :
    Yields s.subject (s.lookahead c entries positive) fun out =>
      out.size = text.length + 1 ∧
        ∀ i, i ∈ out ↔ i ∈ entries ∧ Passes (c.Matches text) positive i := by
  unfold lookahead
  refine (yields_lifted (realises_spans hs c) hsize).bind fun matched ⟨hsized, hmatched⟩ => ?_
  exact Yields.pure ⟨size_allowed hsize hsized.1, fun i => mem_allowed hsized hmatched⟩

/-! ### Offsets -/

/-- An atom goes on from the offsets before a character that it takes. -/
theorem realises_atomOffsets (hs : s.subject.Over text) (a : Atom) :
    Realises s.subject (OffsetSet.view (text.length + 1)) (OffsetSet.view (text.length + 1))
      (fun input => do return (← s.hits a input).shifted) ((Pattern.atom a).Matches text) := by
  intro input P hinput
  refine (yields_hits input).bind fun hits hhits => Yields.pure ?_
  subst hhits
  have hsize : (s.subject.picked a input).size = text.length + 1 :=
    (Subject.size_picked _ _ _).trans hinput.1
  refine ⟨hsize, fun j => ?_⟩
  show j ∈ OffsetSet.shifted _ ↔ _
  rw [OffsetSet.mem_shifted]
  constructor
  · rintro ⟨i, hi, rfl, -⟩
    obtain ⟨hmem, htakes⟩ := (Subject.mem_picked hs).1 hi
    exact ⟨i, (hinput.2 i).1 hmem, rfl, hs.takes_iff.1 htakes⟩
  · rintro ⟨i, hP, rfl, htakes⟩
    have htakes : s.subject.takes a i = true := hs.takes_iff.2 htakes
    refine ⟨i, (Subject.mem_picked hs).2 ⟨(hinput.2 i).2 hP, htakes⟩, rfl, ?_⟩
    have hlt := hs.lt_of_takes htakes
    omega

/-- **A sweep over offsets realises the matches of its pattern.** -/
theorem realises_offsets (hs : s.subject.Over text) (p : Pattern) :
    Realises s.subject (OffsetSet.view (text.length + 1)) (OffsetSet.view (text.length + 1))
      (s.offsets p) (p.Matches text) := by
  induction p using Pattern.induct with
  | atom a =>
    intro input P hinput
    rw [offsets]
    exact yields_step (realises_atomOffsets hs a input P hinput)
  | seq ps ih =>
    intro input P hinput
    rw [offsets]
    unfold Pattern.Matches
    apply yields_step
    exact Realises.inTurn (seqOffsets s) (Pattern.MatchesAll text) (fun _ => by rw [seqOffsets])
      (fun _ _ _ => by rw [seqOffsets]) (fun _ _ => Iff.rfl) (fun _ _ _ _ => Iff.rfl) ih
      input P hinput
  | alt ps ih =>
    intro input P hinput
    rw [offsets]
    unfold Pattern.Matches
    apply yields_step
    refine (Realises.among (altOffsets s) (Pattern.MatchesAny text)
      (Q := fun _ => False) (fun _ _ => by rw [altOffsets])
      (fun _ _ _ _ => by rw [altOffsets]; rfl) (fun _ _ h => h) (fun _ _ _ _ => Iff.rfl)
      ih hinput ?_).imp fun out hout => hout.congr fun b => or_iff_right id
    exact ⟨hinput.1, fun r => iff_of_false OffsetSet.not_mem_empty id⟩
  | repeated e min max ih =>
    intro input P hinput
    rw [offsets]
    unfold Pattern.Matches
    apply yields_step
    have hceiling : text.length + 2 ≤ s.subject.length + 2 := by
      have := hs.length_eq
      omega
    refine ih.repetition (Pattern.climbs_matches text e) ?_ hceiling input P hinput
    intro input i hsize hi
    have hlt : i < input.size := OffsetSet.lt_size_of_mem hi
    rw [show input.size = text.length + 1 from hsize] at hlt
    show i ≤ text.length
    omega
  | ahead positive c p _ ihp =>
    intro input P hinput
    rw [offsets]
    unfold Pattern.Matches
    apply yields_step
    -- condition and body set out from the same offsets, so their spans are compared by start
    refine (yields_lifted (realises_spans hs c) hinput.1).bind ?_
    rintro matched ⟨hsized, hmatched⟩
    refine (yields_lifted (realises_spans hs p) hinput.1).bind ?_
    rintro body ⟨hbody, hmem⟩
    refine Yields.pure ⟨?_, fun j => SpanSet.mem_ends.trans (exists_congr fun i => ?_)⟩
    · split
      · exact hbody.1
      · exact hbody.1
    · cases positive with
      | true =>
        simp only [if_true]
        rw [SpanSet.mem_whereStarts hsized, hmem]
        simp only [hmatched, exists_and_left, ← hinput.2 i]
        constructor
        · rintro ⟨⟨hi, hm⟩, _, hpass⟩
          exact ⟨hi, hm, hpass⟩
        · rintro ⟨hi, hm, hpass⟩
          exact ⟨⟨hi, hm⟩, hi, hpass⟩
      | false =>
        simp only [Bool.false_eq_true, if_false]
        rw [SpanSet.mem_whereNotStarts hsized, hmem]
        simp only [hmatched, exists_and_left, ← hinput.2 i]
        constructor
        · rintro ⟨⟨hi, hm⟩, hpass⟩
          exact ⟨hi, hm, fun h => hpass ⟨hi, h⟩⟩
        · rintro ⟨hi, hm, hpass⟩
          exact ⟨⟨hi, hm⟩, fun h => hpass h.2⟩

end Sweep

/-! ### The matches of a subject -/

section

variable {s : Subject} {text : List Char} {i j : Nat}

theorem Subject.of_yields_unwatched {β : Type} (run : Sweep → Run β) {P : β → Prop}
    (h : Yields s (run ⟨s, false⟩) P) : P (s.unwatched run) :=
  (h _ (Workspace.sound_empty s)).1

theorem Subject.Over.size_allOffsets (hs : s.Over text) : s.allOffsets.size = text.length + 1 := by
  rw [allOffsets, OffsetSet.size_full, hs.length_eq]

theorem Subject.Over.mem_allOffsets (hs : s.Over text) : i ∈ s.allOffsets ↔ i ≤ text.length := by
  rw [allOffsets, OffsetSet.mem_full, hs.length_eq, Nat.lt_succ_iff]

/-- The ends of the matches are those at which some match ends. -/
theorem Subject.mem_matchEnds (hs : s.Over text) (p : Pattern) :
    j ∈ s.matchEnds p ↔ ∃ i, i ≤ text.length ∧ p.Matches text i j := by
  refine Subject.of_yields_unwatched (s.endSweep p) (P := fun ends => j ∈ ends ↔ _) ?_
  have hall : (OffsetSet.view (text.length + 1)).Shows s.allOffsets (· ≤ text.length) :=
    ⟨hs.size_allOffsets, fun i => hs.mem_allOffsets⟩
  unfold endSweep
  refine (Sweep.realises_offsets (s := ⟨s, false⟩) hs p _ _ hall).bind fun out hout => ?_
  apply Yields.pure
  rw [OffsetSet.mem_toList]
  exact hout.2 j

theorem Subject.pairwise_matchEnds (s : Subject) (p : Pattern) :
    (s.matchEnds p).Pairwise (· < ·) :=
  OffsetSet.pairwise_toList _

/-- The spans that are found are the matches. -/
theorem Subject.mem_matchSpans (hs : s.Over text) (p : Pattern) :
    ⟨i, j⟩ ∈ s.matchSpans p ↔ i ≤ text.length ∧ p.Matches text i j := by
  have hall : Yields s (Sweep.spans ⟨s, false⟩ p (.lift s.allOffsets)) fun out =>
      out.Sized (text.length + 1) ∧ ∀ i j, (i, j) ∈ out ↔ i ∈ s.allOffsets ∧ p.Matches text i j :=
    Sweep.yields_lifted (Sweep.realises_spans (s := ⟨s, false⟩) hs p) hs.size_allOffsets
  have hmem := (Subject.of_yields_unwatched (fun w => w.spans p (.lift s.allOffsets)) hall).2 i j
  rw [hs.mem_allOffsets] at hmem
  unfold matchSpans
  rw [← hmem, List.mem_map]
  constructor
  · rintro ⟨r, hr, h⟩
    cases h
    exact SpanSet.mem_toList.1 hr
  · exact fun h => ⟨(i, j), SpanSet.mem_toList.2 h, rfl⟩

theorem Subject.pairwise_matchSpans (s : Subject) (p : Pattern) :
    (s.matchSpans p).Pairwise fun a b => a.stop < b.stop ∨ a.stop = b.stop ∧ a.start < b.start :=
  List.pairwise_map.2 (SpanSet.pairwise_toList _)

end

/-! ### The matches of a query -/

namespace Query

variable {q : Query} {text : String}

theorem subject_eq (h : text.toList.length ≤ q.limits.maxTextLength) :
    q.subject text = .ok (.plain text.toList) := by
  have hcheck : q.limits.checkLength text.toList.length = .ok () := if_pos h
  show (q.limits.checkLength text.toList.length >>= fun _ =>
    .ok (Subject.plain text.toList)) = Except.ok (Subject.plain text.toList)
  rw [hcheck]
  rfl

theorem matchEnds_eq (h : text.toList.length ≤ q.limits.maxTextLength) :
    q.matchEnds text = .ok ((Subject.plain text.toList).matchEnds q.root) := by
  unfold matchEnds
  rw [subject_eq h]
  rfl

theorem matchSpans_eq (h : text.toList.length ≤ q.limits.maxTextLength) :
    q.matchSpans text = .ok ((Subject.plain text.toList).matchSpans q.root) := by
  unfold matchSpans
  rw [subject_eq h]
  rfl

end Query

/-- **Exact matching is sound and complete.** Through any pattern, an offset set over a text goes to
the ends of the matches that start at its offsets. Hence a query gives, for every text that keeps
the limit, the ends of all matches in strictly ascending order. -/
theorem exact_matching_sound_and_complete :
    (∀ (s : Sweep) (text : List Char), s.subject.Over text →
      ∀ w : Workspace, w.Sound s.subject →
      ∀ (p : Pattern) (input : OffsetSet), input.size = text.length + 1 →
      ∀ j, j ∈ ((s.offsets p input).run w).1 ↔ ∃ i ∈ input, p.Matches text i j) ∧
    ∀ (q : Query) (text : String), text.toList.length ≤ q.limits.maxTextLength →
      ∃ ends, q.matchEnds text = .ok ends ∧ ends.Pairwise (· < ·) ∧
        ∀ j, j ∈ ends ↔ ∃ i, i ≤ text.toList.length ∧ q.root.Matches text.toList i j := by
  constructor
  · intro s text hs w hw p input hsize j
    have hinput : (OffsetSet.view (text.length + 1)).Shows input (· ∈ input) :=
      ⟨hsize, fun _ => Iff.rfl⟩
    exact (Sweep.realises_offsets hs p input _ hinput w hw).1.2 j
  · intro q text hlength
    refine ⟨_, Query.matchEnds_eq hlength, Subject.pairwise_matchEnds _ _, fun j => ?_⟩
    exact Subject.mem_matchEnds (Or.inl rfl) q.root

/-- The matches of `a`, and the ends of those of `a*`, in the text `ba`. -/
theorem exact_matching_in_ba :
    (∀ j, j ∈ ((Sweep.offsets ⟨.plain ['b', 'a'], true⟩ (Pattern.lit 'a') (.full 3)).run
        .empty).1 ↔ ∃ i ∈ OffsetSet.full 3, (Pattern.lit 'a').Matches ['b', 'a'] i j) ∧
    ∃ ends, (Query.ofPattern (.repeated (Pattern.lit 'a') 0 none)).matchEnds "ba" = .ok ends ∧
      ends = [0, 1, 2] ∧ ∀ j, j ∈ ends ↔
        ∃ i, i ≤ 2 ∧ (Pattern.repeated (Pattern.lit 'a') 0 none).Matches ['b', 'a'] i j := by
  obtain ⟨hoffsets, hquery⟩ := exact_matching_sound_and_complete
  refine ⟨hoffsets _ _ (Or.inl rfl) _ (Workspace.sound_empty _) _ _ rfl, ?_⟩
  obtain ⟨ends, hends, -, hmem⟩ :=
    hquery (.ofPattern (.repeated (Pattern.lit 'a') 0 none)) "ba" (by decide)
  have hvalue : (Query.ofPattern (.repeated (Pattern.lit 'a') 0 none)).matchEnds "ba" =
      .ok [0, 1, 2] := by decide
  rw [hvalue] at hends
  cases hends
  exact ⟨_, hvalue, rfl, hmem⟩

/-- **Span tracking is sound and complete.** Through any pattern, a span set over a text goes to the
spans made longer by a match, and a lookahead gives the entries at which its condition has some
match, or else the rest. Hence a query gives, for every text that keeps the limit, every match
once, by end and then by start, and none ends before it starts or past the text. -/
theorem span_tracking_sound_and_complete :
    (∀ (s : Sweep) (text : List Char), s.subject.Over text →
      ∀ w : Workspace, w.Sound s.subject →
      (∀ (p : Pattern) (input : SpanSet), input.Sized (text.length + 1) →
        ∀ start j, (start, j) ∈ ((s.spans p input).run w).1 ↔
          ∃ i, (start, i) ∈ input ∧ p.Matches text i j) ∧
      ∀ (condition : Pattern) (entries : OffsetSet), entries.size = text.length + 1 →
        (∀ i, i ∈ ((s.lookahead condition entries true).run w).1 ↔
          i ∈ entries ∧ ∃ j, condition.Matches text i j) ∧
        ∀ i, i ∈ ((s.lookahead condition entries false).run w).1 ↔
          i ∈ entries ∧ ¬∃ j, condition.Matches text i j) ∧
    ∀ (q : Query) (text : String), text.toList.length ≤ q.limits.maxTextLength →
      ∃ spans, q.matchSpans text = .ok spans ∧
        (spans.Pairwise fun a b => a.stop < b.stop ∨ a.stop = b.stop ∧ a.start < b.start) ∧
        (∀ i j, ⟨i, j⟩ ∈ spans ↔ i ≤ text.toList.length ∧ q.root.Matches text.toList i j) ∧
        ∀ span ∈ spans, span.start ≤ span.stop ∧ span.stop ≤ text.toList.length := by
  constructor
  · intro s text hs w hw
    refine ⟨fun p input hsized start j => ?_, fun c entries hsize => ⟨?_, ?_⟩⟩
    · have hinput : (SpanSet.view (text.length + 1)).Shows input (· ∈ input) :=
        ⟨hsized, fun _ => Iff.rfl⟩
      refine ((Sweep.realises_spans hs p input _ hinput w hw).1.2 (start, j)).trans ?_
      constructor
      · intro hx
        obtain ⟨⟨t, i⟩, hmem, hstart, hm⟩ := hx
        obtain rfl : t = start := hstart
        exact ⟨i, hmem, hm⟩
      · rintro ⟨i, hmem, hm⟩
        exact ⟨(start, i), hmem, rfl, hm⟩
    · exact (Sweep.yields_lookahead hs c hsize true w hw).1.2
    · exact (Sweep.yields_lookahead hs c hsize false w hw).1.2
  · intro q text hlength
    have hmem : ∀ i j, ⟨i, j⟩ ∈ (Subject.plain text.toList).matchSpans q.root ↔
        i ≤ text.toList.length ∧ q.root.Matches text.toList i j :=
      fun i j => Subject.mem_matchSpans (Or.inl rfl) q.root
    refine ⟨_, Query.matchSpans_eq hlength, Subject.pairwise_matchSpans _ _, hmem, ?_⟩
    rintro ⟨i, j⟩ hspan
    obtain ⟨hi, hm⟩ := (hmem i j).1 hspan
    exact ⟨hm.le, hm.le_length hi⟩

/-- At most one character, where no `a` follows, in the text `ba`. -/
theorem span_tracking_in_ba :
    (∀ start j, (start, j) ∈ ((Sweep.spans ⟨.plain ['b', 'a'], true⟩ (Pattern.lit 'a')
        (.lift (.full 3))).run .empty).1 ↔ ∃ i, (start, i) ∈ SpanSet.lift (.full 3) ∧
          (Pattern.lit 'a').Matches ['b', 'a'] i j) ∧
    (∀ i, i ∈ ((Sweep.lookahead ⟨.plain ['b', 'a'], true⟩ (Pattern.lit 'a') (.full 3) true).run
        .empty).1 ↔ i ∈ OffsetSet.full 3 ∧ ∃ j, (Pattern.lit 'a').Matches ['b', 'a'] i j) ∧
    ∃ spans, (Query.ofPattern (.ahead false (Pattern.lit 'a')
        (.repeated (.atom .any) 0 (some 1)))).matchSpans "ba" = .ok spans ∧
      spans = [⟨0, 0⟩, ⟨0, 1⟩, ⟨2, 2⟩] ∧ ∀ i j, ⟨i, j⟩ ∈ spans ↔ i ≤ 2 ∧
        (Pattern.ahead false (Pattern.lit 'a')
          (.repeated (.atom .any) 0 (some 1))).Matches ['b', 'a'] i j := by
  obtain ⟨hsweep, hquery⟩ := span_tracking_sound_and_complete
  obtain ⟨hspans, hlookahead⟩ := hsweep ⟨.plain ['b', 'a'], true⟩ _ (Or.inl rfl) _
    (Workspace.sound_empty _)
  refine ⟨hspans _ _ (SpanSet.sized_lift rfl), (hlookahead _ _ rfl).1, ?_⟩
  obtain ⟨spans, hfound, -, hmem, -⟩ := hquery (.ofPattern (.ahead false (Pattern.lit 'a')
    (.repeated (.atom .any) 0 (some 1)))) "ba" (by decide)
  have hvalue : (Query.ofPattern (.ahead false (Pattern.lit 'a')
      (.repeated (.atom .any) 0 (some 1)))).matchSpans "ba" = .ok [⟨0, 0⟩, ⟨0, 1⟩, ⟨2, 2⟩] := by
    decide
  rw [hvalue] at hfound
  cases hfound
  exact ⟨_, hvalue, rfl, hmem⟩

end PatternSweep
