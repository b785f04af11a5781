import PatternSweep.OffsetSet.Basic
import PatternSweep.Proofs.Rounds

/-!
# Members of offset sets

The view of an offset set is membership. Every operation has one `mem_` equation, and two sets of
one size with the same members are equal (`OffsetSet.ext_mem`).
-/

namespace PatternSweep

namespace OffsetSet

variable {s t : OffsetSet} {p n : Nat}

theorem mem_union (h : s.size = t.size) : p ∈ s.union t ↔ p ∈ s ∨ p ∈ t := by
  have hlt : p ∈ t → p < s.size := fun hp => h ▸ lt_size_of_mem hp
  simp only [mem_iff, contains_union, Bool.or_eq_true, Bool.and_eq_true, decide_eq_true_eq]
    at hlt ⊢
  exact or_congr_right (and_iff_right_of_imp hlt)

theorem mem_inter : p ∈ s.inter t ↔ p ∈ s ∧ p ∈ t := by
  simp only [mem_iff, contains_inter, Bool.and_eq_true]

theorem mem_diff : p ∈ s.diff t ↔ p ∈ s ∧ p ∉ t := by
  simp only [mem_iff, contains_diff, Bool.and_eq_true, Bool.not_eq_true', Bool.not_eq_true]

theorem mem_insert {q : Nat} : p ∈ s.insert q ↔ p ∈ s ∨ p = q ∧ p < s.size := by
  simp only [mem_iff, contains_insert, Bool.or_eq_true, decide_eq_true_eq]

theorem mem_erase {q : Nat} : p ∈ s.erase q ↔ p ∈ s ∧ p ≠ q := by
  simp only [mem_iff, contains_erase, Bool.and_eq_true, decide_eq_true_eq]

theorem mem_filter {q : Nat → Bool} : p ∈ s.filter q ↔ p ∈ s ∧ q p = true := by
  simp only [mem_iff, contains_filter, Bool.and_eq_true]

theorem mem_shifted : p ∈ s.shifted ↔ ∃ i, i ∈ s ∧ p = i + 1 ∧ p < s.size := by
  simp only [mem_iff, contains_shifted, Bool.and_eq_true, decide_eq_true_eq]
  constructor
  · intro hx
    obtain ⟨⟨h0, hlt⟩, hp⟩ := hx
    exact ⟨p - 1, hp, by omega, hlt⟩
  · rintro ⟨i, hi, rfl, hlt⟩
    exact ⟨⟨by omega, hlt⟩, by simpa using hi⟩

theorem mem_full : p ∈ full n ↔ p < n := by
  rw [mem_iff, contains_full, decide_eq_true_eq]

theorem mem_ofList {ps : List Nat} : p ∈ ofList n ps ↔ p ∈ ps ∧ p < n := by
  rw [mem_iff, contains_ofList, decide_eq_true_eq]

theorem not_mem_empty : p ∉ empty n := by simp [mem_iff]

theorem ext_mem (hs : s.size = t.size) (h : ∀ p, p ∈ s ↔ p ∈ t) : s = t :=
  ext_contains hs fun p => Bool.eq_iff_iff.2 (h p)

/-- Sets of offsets below `n`. -/
def view (n : Nat) : View OffsetSet Nat where
  Dom s := s.size = n
  Mem s p := p ∈ s
  ext hs ht h := ext_mem (hs.trans ht.symm) h
  dom_join hs _ := hs
  mem_join hs ht := mem_union (hs.trans ht.symm)
  isEmpty_iff _ := by simp [JoinSet.isEmpty, isEmpty_iff, mem_iff]

end OffsetSet

end PatternSweep
