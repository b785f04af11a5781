import Mathlib.Data.List.Sort
import PatternSweep.Proofs.EditDistance

/-!
# What the results of matching depend on

The results of matching are determined by the text and by the relations that the pattern stands for,
its matches and its walks: not by what is known of the text before, and not by how the pattern is
put together. Hence the occurrences of an alphabet, whatever its characters are, never change a
result (`occurrences_never_change_results`).
-/

namespace PatternSweep

/-- Spans by end and then by start are determined by which there are: no two come before each
other. -/
theorem Span.eq_of_mem_iff {l l' : List Span}
    (hl : l.Pairwise fun a b => a.stop < b.stop ∨ a.stop = b.stop ∧ a.start < b.start)
    (hl' : l'.Pairwise fun a b => a.stop < b.stop ∨ a.stop = b.stop ∧ a.start < b.start)
    (h : ∀ span, span ∈ l ↔ span ∈ l') : l = l' := by
  have hirrefl : Std.Irrefl fun a b : Span =>
      a.stop < b.stop ∨ a.stop = b.stop ∧ a.start < b.start := ⟨fun a => by omega⟩
  have hantisymm : Std.Antisymm fun a b : Span =>
      a.stop < b.stop ∨ a.stop = b.stop ∧ a.start < b.start := ⟨fun a b hab hba => by omega⟩
  exact hl.eq_of_mem_iff hl' h

namespace Subject

variable {s s' : Subject} {text : List Char} {p q : Pattern} {m : Nat}

theorem matchEnds_congr (hs : s.Over text) (hs' : s'.Over text)
    (h : ∀ i j, p.Matches text i j ↔ q.Matches text i j) : s.matchEnds p = s'.matchEnds q := by
  refine (pairwise_matchEnds s p).eq_of_mem_iff (pairwise_matchEnds s' q) fun j => ?_
  rw [mem_matchEnds hs, mem_matchEnds hs']
  simp only [h]

theorem matchSpans_congr (hs : s.Over text) (hs' : s'.Over text)
    (h : ∀ i j, p.Matches text i j ↔ q.Matches text i j) : s.matchSpans p = s'.matchSpans q := by
  refine Span.eq_of_mem_iff (pairwise_matchSpans s p) (pairwise_matchSpans s' q) ?_
  rintro ⟨i, j⟩
  rw [mem_matchSpans hs, mem_matchSpans hs', h]

/-- The states of two patterns of one length on the axis are the same if their walks are. -/
theorem editStates_congr (hs : s.Over text) (hs' : s'.Over text)
    (hlength : p.axisLength = q.axisLength)
    (h : ∀ x y, p.Walks text m x y ↔ q.Walks text m x y) :
    s.editStates p (.of p) m = s'.editStates q (.of q) m := by
  have hp := shows_editStates hs p m
  have hq := shows_editStates hs' q m
  rw [← hlength] at hq
  refine hp.eq (hq.congr fun y => ?_)
  simp only [Pattern.Reached, h]

theorem endDistances_congr (hs : s.Over text) (hs' : s'.Over text)
    (hlength : p.axisLength = q.axisLength)
    (h : ∀ x y, p.Walks text m x y ↔ q.Walks text m x y) :
    s.endDistances p (.of p) m = s'.endDistances q (.of q) m := by
  unfold endDistances
  rw [editStates_congr hs hs' hlength h]

end Subject

namespace Query

variable {q q' : Query} {text : String}

theorem matchEnds_congr (hlimits : q.limits = q'.limits)
    (h : ∀ i j, q.root.Matches text.toList i j ↔ q'.root.Matches text.toList i j) :
    q.matchEnds text = q'.matchEnds text := by
  have hends := Subject.matchEnds_congr (s := .plain text.toList) (Or.inl rfl) (Or.inl rfl) h
  unfold matchEnds subject
  rw [hlimits]
  simp only [bind_assoc, pure_bind, hends]

theorem matchSpans_congr (hlimits : q.limits = q'.limits)
    (h : ∀ i j, q.root.Matches text.toList i j ↔ q'.root.Matches text.toList i j) :
    q.matchSpans text = q'.matchSpans text := by
  have hspans := Subject.matchSpans_congr (s := .plain text.toList) (Or.inl rfl) (Or.inl rfl) h
  unfold matchSpans subject
  rw [hlimits]
  simp only [bind_assoc, pure_bind, hspans]

theorem matchWithin_congr {m : Nat} (hlimits : q.limits = q'.limits)
    (hlength : q.root.axisLength = q'.root.axisLength)
    (h : ∀ x y, q.root.Walks text.toList m x y ↔ q'.root.Walks text.toList m x y) :
    q.matchWithin text m = q'.matchWithin text m := by
  have hdistances :=
    Subject.endDistances_congr (s := .plain text.toList) (Or.inl rfl) (Or.inl rfl) hlength h
  unfold matchWithin subject
  rw [hlimits, q.layout_eq, q'.layout_eq]
  simp only [bind_assoc, pure_bind, hdistances]

end Query

/-- **The occurrences of an alphabet never change a result.** For every text and every alphabet, a
query gives the same ends or the same error for the text alone and for the occurrences in it; and
for every pattern with its own layout the matches, the states after at most `m` edits and the
distances of the ends are the same. -/
theorem occurrences_never_change_results :
    (∀ (q : Query) (text : String) (alphabet : List Char),
      q.matchEndsIn (.build text.toList alphabet) = q.matchEnds text) ∧
    ∀ (text alphabet : List Char) (p : Pattern),
      (Subject.indexed (.build text alphabet)).matchEnds p = (Subject.plain text).matchEnds p ∧
      (Subject.indexed (.build text alphabet)).matchSpans p = (Subject.plain text).matchSpans p ∧
      ∀ m, (Subject.indexed (.build text alphabet)).editStates p (.of p) m =
          (Subject.plain text).editStates p (.of p) m ∧
        (Subject.indexed (.build text alphabet)).endDistances p (.of p) m =
          (Subject.plain text).endDistances p (.of p) m := by
  have hplain : ∀ text, (Subject.plain text).Over text := fun _ => Or.inl rfl
  have hindexed : ∀ text alphabet, (Subject.indexed (.build text alphabet)).Over text :=
    fun _ alphabet => Or.inr ⟨alphabet, rfl⟩
  constructor
  · intro q text alphabet
    have hends : (Subject.indexed (.build text.toList alphabet)).matchEnds q.root =
        (Subject.plain text.toList).matchEnds q.root :=
      Subject.matchEnds_congr (hindexed _ _) (hplain _) fun _ _ => Iff.rfl
    unfold Query.matchEndsIn Query.matchEnds Query.subject
    rw [hends, bind_assoc]
    rfl
  · intro text alphabet p
    refine ⟨?_, ?_, fun m => ⟨?_, ?_⟩⟩
    · exact Subject.matchEnds_congr (hindexed _ _) (hplain _) fun _ _ => Iff.rfl
    · exact Subject.matchSpans_congr (hindexed _ _) (hplain _) fun _ _ => Iff.rfl
    · exact Subject.editStates_congr (hindexed _ _) (hplain _) rfl fun _ _ => Iff.rfl
    · exact Subject.endDistances_congr (hindexed _ _) (hplain _) rfl fun _ _ => Iff.rfl

end PatternSweep
