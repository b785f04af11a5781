import Mathlib.Data.Finset.Sort
import PatternSweep.Proofs.OffsetMembers

/-!
# Offset sets as finite sets

The members of an offset set form a `Finset`. What can be read off an offset set is what can be
read off its members: `toList` lists them in order, `card` counts them, and two sets of one size
are equal exactly when their members are. A set made from a list is the empty set with the offsets
of the list put in one by one (`foldl_insert_empty`).
-/

namespace PatternSweep

namespace OffsetSet

variable {s t : OffsetSet} {p : Nat}

/-! ### Offsets put in one by one -/

theorem size_foldl_insert (s : OffsetSet) (ps : List Nat) :
    (ps.foldl insert s).size = s.size := by
  induction ps generalizing s with
  | nil => rfl
  | cons q ps ih => rw [List.foldl_cons, ih, size_insert]

theorem mem_foldl_insert {s : OffsetSet} {ps : List Nat} :
    p ∈ ps.foldl insert s ↔ p ∈ s ∨ p ∈ ps ∧ p < s.size := by
  induction ps generalizing s with
  | nil => simp
  | cons q ps ih =>
    rw [List.foldl_cons, ih, size_insert, mem_iff, contains_insert, Bool.or_eq_true,
      decide_eq_true_eq, ← mem_iff, List.mem_cons, or_assoc, or_and_right]

/-- A list of offsets can be put in one by one. -/
theorem foldl_insert_empty (n : Nat) (ps : List Nat) :
    ps.foldl insert (empty n) = ofList n ps := by
  refine ext_mem (size_foldl_insert _ _) fun p => ?_
  rw [mem_foldl_insert, mem_ofList, or_iff_right not_mem_empty, size_empty]

theorem insert_eq_union (s : OffsetSet) (p : Nat) : s.insert p = s.union (ofList s.size [p]) := by
  refine ext_mem rfl fun q => ?_
  rw [mem_insert, mem_union (size_ofList _ _).symm, mem_ofList, List.mem_singleton]

/-! ### The members as a finite set -/

/-- The members as a finite set. -/
def members (s : OffsetSet) : Finset ℕ := {p ∈ Finset.range s.size | p ∈ s}

@[simp] theorem mem_members : p ∈ s.members ↔ p ∈ s := by
  rw [members, Finset.mem_filter, Finset.mem_range]
  exact and_iff_right_of_imp lt_size_of_mem

theorem toList_eq_sort (s : OffsetSet) : s.toList = s.members.sort := by
  refine s.pairwise_toList.eq_of_mem_iff s.members.sortedLT_sort.pairwise fun p => ?_
  rw [mem_toList, Finset.mem_sort, mem_members]

theorem card_eq_card_members (s : OffsetSet) : s.card = s.members.card := by
  rw [card_eq_length_toList, toList_eq_sort, Finset.length_sort]

theorem isEmpty_iff_members : s.isEmpty = true ↔ s.members = ∅ := by
  simp [isEmpty_iff, Finset.eq_empty_iff_forall_notMem, mem_iff]

/-- Sets of one size are equal exactly when their members are. -/
theorem eq_iff_members (h : s.size = t.size) : s = t ↔ s.members = t.members := by
  refine ⟨fun heq => heq ▸ rfl, fun heq => ext_mem h fun p => ?_⟩
  rw [← mem_members, heq, mem_members]

/-- `isSubset` is inclusion, for sets of one size. -/
theorem isSubset_iff : s.isSubset t = true ↔ s.size = t.size ∧ s.members ⊆ t.members := by
  rw [isSubset, Bool.and_eq_true, decide_eq_true_eq, isEmpty_iff]
  refine and_congr_right fun _ => ?_
  simp only [contains_diff, Bool.and_eq_false_iff, Bool.not_eq_false', Finset.subset_iff,
    mem_members, mem_iff]
  exact forall_congr' fun p => by cases s.contains p <;> simp

end OffsetSet

end PatternSweep
