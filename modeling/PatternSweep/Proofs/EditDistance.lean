import PatternSweep.Proofs.EditSweeps
import PatternSweep.Proofs.EndMembers
import PatternSweep.Proofs.Words

/-!
# Ends and edit distances

Without lookaheads, the distance that is found for an end is the least edit distance between a word
of the pattern and a piece of the text that stops at the end, as long as it keeps the bound
(`Subject.distance?_endDistances`). The states at the end of the axis are what is walked, which may
cost more than an alignment but can also cost no more, so the least costs agree.
-/

namespace PatternSweep

/-- The edit distances between the words of the pattern and the pieces of the text that stop at the
offset `e`. -/
def Pattern.costsTo (p : Pattern) (text : List Char) (e : Nat) : Set Nat :=
  {n | ∃ i, i ≤ e ∧ ∃ w, p.Word w ∧ n = levenshtein w (piece text i e)}

/-- If nothing in `S` is over the bound or below everything in `C`, and all of `C` within the bound
is in `S`, then the least of `S` is the least of `C`, as long as it keeps the bound. -/
theorem isLeast_iff_of_bounded {S C : Set Nat} {m d : Nat}
    (hS : ∀ n ∈ S, n ≤ m ∧ ∃ c ∈ C, c ≤ n) (hC : ∀ c ∈ C, c ≤ m → c ∈ S) :
    IsLeast S d ↔ IsLeast C d ∧ d ≤ m := by
  constructor
  · rintro ⟨hd, hleast⟩
    obtain ⟨hm, c, hc, hle⟩ := hS d hd
    obtain rfl : c = d := Nat.le_antisymm hle (hleast (hC c hc (Nat.le_trans hle hm)))
    refine ⟨⟨hc, fun n hn => ?_⟩, hm⟩
    cases Nat.le_total n m with
    | inl hnm => exact hleast (hC n hn hnm)
    | inr hnm => omega
  · intro hx
    obtain ⟨⟨hd, hleast⟩, hm⟩ := hx
    refine ⟨hC d hd hm, fun n hn => ?_⟩
    obtain ⟨-, c, hc, hle⟩ := hS n hn
    exact Nat.le_trans (hleast hc) hle

namespace Subject

variable {s : Subject} {text : List Char} {p : Pattern} {m e d : Nat}

/-- The pairs of an end and a distance that are found are the places that are reached. -/
theorem mem_pairs_iff_reached (hs : s.Over text) (p : Pattern) :
    (e, d) ∈ EndDistances.pairs (s.editStates p (.of p) m).matchEnds ↔ p.Reached text m (e, d) := by
  obtain ⟨⟨hbounded, -⟩, hmem⟩ := shows_editStates hs p m
  rw [EditStates.mem_pairs_matchEnds, hbounded.2.1]
  exact hmem (e, d)

/-- Without lookaheads the distance of an end is the least cost of an alignment that stops there, if
it keeps the bound. -/
theorem distance?_endDistances (hs : s.Over text) (hp : p.hasLookahead = false)
    (he : e ≤ text.length) : (s.endDistances p (.of p) m).distance? e = some d ↔
      IsLeast (p.costsTo text e) d ∧ d ≤ m := by
  unfold endDistances
  rw [EndDistances.distance?_ofRaw]
  simp only [mem_pairs_iff_reached hs, Pattern.reached_iff_spells hp]
  apply isLeast_iff_of_bounded
  · -- what is walked can be aligned at no greater cost
    rintro n ⟨hreach, i, -, w, hw, hspells⟩
    obtain ⟨hi, c, haligned, hc⟩ := Pattern.aligned_of_spells hspells he
    refine ⟨hreach.2, levenshtein w (piece text i e), ⟨i, hi, w, hw, rfl⟩, ?_⟩
    have hle : levenshtein w (piece text i e) ≤ c := haligned.levenshtein_le
    have hn : 0 + c ≤ n := hc
    omega
  · -- and the cheapest alignment is walked, if the bound allows it
    rintro c ⟨i, hi, w, hw, rfl⟩ hc
    refine ⟨⟨he, hc⟩, i, by omega, w, hw, ?_⟩
    rw [← Nat.zero_add (levenshtein _ _)] at hc ⊢
    exact Pattern.spells_of_aligned (aligned_levenshtein w _) rfl hi he hc

/-- Past the text there is no end. -/
theorem distance?_endDistances_of_lt (hs : s.Over text) (he : text.length < e) :
    (s.endDistances p (.of p) m).distance? e = none := by
  rw [Option.eq_none_iff_forall_ne_some]
  intro d hd
  have hmem : (e, d) ∈ EndDistances.pairs (s.editStates p (.of p) m).matchEnds :=
    (EndDistances.distance?_ofRaw.1 hd).1
  obtain ⟨hreach, -⟩ := (mem_pairs_iff_reached hs p).1 hmem
  have hle : e ≤ text.length := hreach.1
  omega

/-- Both answers about every end. -/
theorem distances_endDistances (hs : s.Over text) (hp : p.hasLookahead = false) (m : Nat) :
    (∀ e, e ≤ text.length →
      (∀ d, (s.endDistances p (.of p) m).distance? e = some d ↔
        IsLeast (p.costsTo text e) d ∧ d ≤ m) ∧
      ((s.endDistances p (.of p) m).distance? e = none ↔
        ¬∃ d, IsLeast (p.costsTo text e) d ∧ d ≤ m)) ∧
    ∀ e, text.length < e → (s.endDistances p (.of p) m).distance? e = none := by
  refine ⟨fun e he => ?_, fun e he => distance?_endDistances_of_lt hs he⟩
  have hsome : ∀ d, (s.endDistances p (.of p) m).distance? e = some d ↔
      IsLeast (p.costsTo text e) d ∧ d ≤ m := fun d => distance?_endDistances hs hp he
  refine ⟨hsome, Option.eq_none_iff_forall_ne_some.trans ?_⟩
  constructor
  · rintro hnone ⟨d, hd⟩
    exact hnone d ((hsome d).2 hd)
  · exact fun hnone d hd => hnone ⟨d, (hsome d).1 hd⟩

end Subject

/-- Within the limits a query looks for matches with edits in the text alone. -/
theorem Query.matchWithin_eq {q : Query} {text : String} {m : Nat} (hm : m ≤ q.limits.maxDistance)
    (h : text.toList.length ≤ q.limits.maxTextLength) : q.matchWithin text m =
      .ok ((Subject.plain text.toList).endDistances q.root (.of q.root) m) := by
  have hcheck : q.limits.checkDistance m = .ok () := if_pos hm
  unfold matchWithin
  rw [hcheck, subject_eq h, q.layout_eq]
  rfl

/-- The ends that a query finds are read off any list that has the pairs of its sweep in order. -/
theorem Query.best_matchWithin {q : Query} {text : String} {m : Nat} {l : List (Nat × Nat)}
    {found : EndDistances} (hfound : q.matchWithin text m = .ok found)
    (hm : m ≤ q.limits.maxDistance) (h : text.toList.length ≤ q.limits.maxTextLength)
    (hperm : (EndDistances.pairs ((Subject.plain text.toList).editStates q.root (.of q.root)
      m).matchEnds).Perm l) (hl : l.Pairwise fun x y => EndDistances.inOrder x y = true) :
    found.best = EndDistances.firstPairs l := by
  rw [matchWithin_eq hm h] at hfound
  cases hfound
  exact EndDistances.best_ofRaw hperm hl

/-- **Matching with edits computes edit distances.** For a pattern without lookaheads and its own
layout, an end has the distance `d` if `d` is the least distance between a word of the pattern and a
piece of the text that stops there, and within the bound; it has none if there is no such least
distance. The distance of a word and a piece is the least cost of an alignment. Within its limits a
query gives the same, and past the text there is no end. -/
theorem matching_with_edits_computes_edit_distance :
    (∀ (w : List Atom) (s : List Char), IsLeast {n | Aligned w s n} (levenshtein w s)) ∧
    (∀ (s : Subject) (text : List Char), s.Over text →
      ∀ p : Pattern, p.hasLookahead = false → ∀ m,
        (∀ e, e ≤ text.length →
          (∀ d, (s.endDistances p (.of p) m).distance? e = some d ↔
            IsLeast (p.costsTo text e) d ∧ d ≤ m) ∧
          ((s.endDistances p (.of p) m).distance? e = none ↔
            ¬∃ d, IsLeast (p.costsTo text e) d ∧ d ≤ m)) ∧
        ∀ e, text.length < e → (s.endDistances p (.of p) m).distance? e = none) ∧
    ∀ (q : Query) (text : String) (m : Nat), q.root.hasLookahead = false →
      m ≤ q.limits.maxDistance → text.toList.length ≤ q.limits.maxTextLength →
      ∃ found, q.matchWithin text m = .ok found ∧
        (∀ e, e ≤ text.toList.length →
          (∀ d, found.distance? e = some d ↔ IsLeast (q.root.costsTo text.toList e) d ∧ d ≤ m) ∧
          (found.distance? e = none ↔ ¬∃ d, IsLeast (q.root.costsTo text.toList e) d ∧ d ≤ m)) ∧
        ∀ e, text.toList.length < e → found.distance? e = none := by
  refine ⟨isLeast_levenshtein, fun s text hs p hp m => Subject.distances_endDistances hs hp m, ?_⟩
  intro q text m hp hm hlength
  exact ⟨_, Query.matchWithin_eq hm hlength, Subject.distances_endDistances (Or.inl rfl) hp m⟩

/-- The pattern `a` in the text `ba`, with at most one edit. -/
theorem matching_with_edits_in_ba :
    IsLeast {n | Aligned [.literal 'a'] ['b', 'a'] n} 1 ∧
    (∀ d, ((Subject.plain ['b', 'a']).endDistances (Pattern.lit 'a') (.of (Pattern.lit 'a')) 1
        ).distance? 1 = some d ↔ IsLeast ((Pattern.lit 'a').costsTo ['b', 'a'] 1) d ∧ d ≤ 1) ∧
    ∃ found, (Query.ofPattern (Pattern.lit 'a')).matchWithin "ba" 1 = .ok found ∧
      found.distance? 2 = some 0 ∧ IsLeast ((Pattern.lit 'a').costsTo ['b', 'a'] 2) 0 := by
  obtain ⟨hword, hsubject, hquery⟩ := matching_with_edits_computes_edit_distance
  refine ⟨hword [.literal 'a'] ['b', 'a'], ?_, ?_⟩
  · exact ((hsubject _ _ (Or.inl rfl) (Pattern.lit 'a') rfl 1).1 1 (by decide)).1
  · obtain ⟨found, hfound, hends, -⟩ :=
      hquery (.ofPattern (Pattern.lit 'a')) "ba" 1 rfl (by decide) (by decide)
    have hleast : IsLeast ((Pattern.lit 'a').costsTo ['b', 'a'] 2) 0 :=
      ⟨⟨1, by decide, [.literal 'a'], rfl, by decide⟩, fun n _ => Nat.zero_le n⟩
    exact ⟨found, hfound, ((hends 2 (by decide)).1 0).2 ⟨hleast, by decide⟩, hleast⟩

end PatternSweep
