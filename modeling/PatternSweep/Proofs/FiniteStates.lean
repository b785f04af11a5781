import Mathlib.Data.Finset.Image
import Mathlib.Data.List.Nodup
import PatternSweep.Proofs.EditMembers
import PatternSweep.Proofs.PackedWords

/-!
# Sets of edit states as finite sets of triples

The members of a set of edit states form a `Finset` of triples, and what can be read off the set is
what can be read off them: single states and planes, layers, the list and the number of all states.
The list has each state once because a state is filed in one plane only, and the planes are the
planes of a table.
-/

namespace PatternSweep

namespace EditStates

variable {s u : EditStates} {t p q i d e n l m : Nat} {plane : OffsetSet} {x : Nat × Nat × Nat}

/-! ### Putting in -/

theorem bounded_insertPlane (hs : s.Bounded n l m) (p d : Nat) (offsets : OffsetSet) :
    (s.insertPlane p d offsets).Bounded n l m := hs

theorem mem_insertPlane_iff {offsets : OffsetSet} (hs : s.Bounded n l m)
    (hsize : offsets.size = n + 1) : (t, p, d) ∈ s.insertPlane q e offsets ↔
      (t, p, d) ∈ s ∨ (p = q ∧ d = e ∧ t ∈ offsets ∧ q ≤ l ∧ e ≤ m) := by
  obtain ⟨rfl, rfl, rfl⟩ := hs
  rw [mem_insertPlane]
  have hle : t ∈ offsets → t ≤ s.textLength := fun ht => by
    have := OffsetSet.lt_size_of_mem ht
    omega
  grind

theorem bounded_insert (hs : s.Bounded n l m) (t p d : Nat) : (s.insert t p d).Bounded n l m := by
  unfold insert
  split
  · exact hs
  · exact hs

theorem mem_insert (hs : s.Bounded n l m) : (t, p, d) ∈ s.insert i q e ↔
    (t, p, d) ∈ s ∨ ((t, p, d) = (i, q, e) ∧ t ≤ n ∧ p ≤ l ∧ d ≤ m) := by
  unfold insert
  rw [hs.1, hs.2.1, hs.2.2]
  split
  next h =>
    rw [mem_insertPlane_iff hs (OffsetSet.size_ofList _ _), OffsetSet.mem_ofList]
    grind
  next h => grind

theorem bounded_union (hs : s.Bounded n l m) (u : EditStates) : (s.union u).Bounded n l m := hs

/-! ### Planes and layers -/

theorem plane_eq_some_iff : s.plane p d = some plane ↔ (⟨p, d⟩, plane) ∈ s.rows :=
  OffsetTable.row?_eq_some_iff

theorem mem_plane_iff (h : s.plane p d = some plane) : t ∈ plane ↔ (t, p, d) ∈ s :=
  (OffsetTable.holds_of_mem_rows (plane_eq_some_iff.1 h)).symm

theorem mem_iff_plane : (t, p, d) ∈ s ↔ ∃ plane, s.plane p d = some plane ∧ t ∈ plane := by
  simp only [plane_eq_some_iff]
  exact OffsetTable.holds_iff

theorem contains_iff : s.contains t p d = true ↔ (t, p, d) ∈ s := by
  rw [contains, Option.any_eq_true, mem_iff_plane]
  rfl

theorem isEmpty_of_plane (h : s.plane p d = some plane) : plane.isEmpty = false :=
  s.table.inhabited _ (plane_eq_some_iff.1 h)

theorem size_plane (hs : s.Bounded n l m) (h : s.plane p d = some plane) : plane.size = n + 1 :=
  hs.1 ▸ s.size_eq _ (plane_eq_some_iff.1 h)

theorem mem_layer_iff_plane : (d, plane) ∈ s.layer p ↔ s.plane p d = some plane :=
  mem_layer.trans plane_eq_some_iff.symm

theorem pairwise_layer (s : EditStates) (p : Nat) :
    (s.layer p).Pairwise fun a b => a.1 < b.1 := by
  refine List.Pairwise.filterMap _ ?_ s.table.ascending
  intro a b hab x hx y hy
  simp only [Option.ite_none_right_eq_some, Option.some.injEq] at hx hy
  obtain ⟨ha, rfl⟩ := hx
  obtain ⟨hb, rfl⟩ := hy
  simpa [Key.before, ha, hb] using hab

/-! ### The list of all states -/

theorem mem_toList : x ∈ s.toList ↔ x ∈ s := by
  obtain ⟨t, p, d⟩ := x
  simp only [toList, List.mem_mergeSort, List.mem_flatMap, List.mem_map, OffsetSet.mem_toList,
    Prod.mk.injEq]
  constructor
  · rintro ⟨⟨c, plane⟩, hplane, t, ht, rfl, rfl, rfl⟩
    exact ⟨plane, hplane, ht⟩
  · rintro ⟨plane, hplane, ht⟩
    exact ⟨_, hplane, t, ht, rfl, rfl, rfl⟩

theorem nodup_toList (s : EditStates) : s.toList.Nodup := by
  refine (List.mergeSort_perm _ _).nodup_iff.2 (List.nodup_flatMap.2 ⟨fun r _ => ?_, ?_⟩)
  · have hplane : r.2.toList.Nodup := r.2.pairwise_toList.imp Nat.ne_of_lt
    exact hplane.map fun _ _ h => congrArg Prod.fst h
  · -- states of different planes differ in what they are filed under
    refine s.table.ascending.imp fun {a b} hab y ha hb => ?_
    obtain ⟨t, -, rfl⟩ := List.mem_map.1 ha
    obtain ⟨t', -, heq⟩ := List.mem_map.1 hb
    obtain ⟨⟨p, e⟩, _⟩ := a
    obtain ⟨⟨p', e'⟩, _⟩ := b
    cases heq
    exact Key.ne_of_before hab rfl

theorem inOrder_iff {a b : Nat × Nat × Nat} : inOrder a b = true ↔
    a.1 < b.1 ∨ a.1 = b.1 ∧ (a.2.1 < b.2.1 ∨ a.2.1 = b.2.1 ∧ a.2.2 ≤ b.2.2) := by
  simp [inOrder]

theorem pairwise_toList (s : EditStates) : s.toList.Pairwise fun a b =>
    a.1 < b.1 ∨ a.1 = b.1 ∧ (a.2.1 < b.2.1 ∨ a.2.1 = b.2.1 ∧ a.2.2 < b.2.2) := by
  have hsorted : s.toList.Pairwise fun a b => inOrder a b = true := by
    refine List.pairwise_mergeSort ?_ ?_ _
    · intro a b c hab hbc
      simp only [inOrder_iff] at *
      omega
    · intro a b
      simp only [Bool.or_eq_true, inOrder_iff]
      omega
  refine (hsorted.and s.nodup_toList).imp fun {a b} ⟨hle, hne⟩ => ?_
  rw [inOrder_iff] at hle
  have hdiffer : a.1 = b.1 → a.2.1 = b.2.1 → a.2.2 ≠ b.2.2 := fun h₁ h₂ h₃ =>
    hne (Prod.ext h₁ (Prod.ext h₂ h₃))
  omega

theorem card_eq_length_toList (s : EditStates) : s.card = s.toList.length := by
  rw [toList, List.length_mergeSort]
  exact s.table.card_eq_length fun c text => (text, c.pattern, c.distance)

/-! ### The members -/

/-- The members as a finite set. -/
def members (s : EditStates) : Finset (ℕ × ℕ × ℕ) := s.toList.toFinset

@[simp] theorem mem_members : x ∈ s.members ↔ x ∈ s := by
  rw [members, List.mem_toFinset, mem_toList]

@[simp] theorem members_empty : (empty n l m).members = ∅ := by
  rw [Finset.eq_empty_iff_forall_notMem]
  exact fun x hx => not_mem_empty (mem_members.1 hx)

theorem card_eq_card_members (s : EditStates) : s.card = s.members.card := by
  rw [card_eq_length_toList, members, List.toFinset_card_of_nodup s.nodup_toList]

theorem isEmpty_iff_members : s.isEmpty = true ↔ s.members = ∅ := by
  rw [isEmpty_iff, Finset.eq_empty_iff_forall_notMem]
  simp only [mem_members]

/-- Sets with the same bounds are equal exactly when their members are. -/
theorem eq_iff_members (hs : s.Bounded n l m) (hu : u.Bounded n l m) :
    s = u ↔ s.members = u.members := by
  refine ⟨fun h => h ▸ rfl, fun h => ext_mem hs hu fun x => ?_⟩
  rw [← mem_members, h, mem_members]

end EditStates

end PatternSweep
