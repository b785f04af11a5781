import PatternSweep.EditStates
import PatternSweep.Proofs.Tables

/-!
# Members of sets of edit states

The view of a set of edit states is membership: `(t, p, d) ∈ s` says that the text offset `t` is
filed under the pattern offset `p` and the distance `d`. A set is `Bounded n l m` if these are its
bounds; two such sets with the same members are equal (`EditStates.ext_mem`), and every operation
has one `mem_` equation.

Closing a layer under deletions goes through the distances in ascending order, so a state gets as
far along the diagonal as the bounds allow (`EditStates.mem_applyDeletions`).
-/

namespace PatternSweep

namespace EditStates

variable {s u : EditStates} {t p q d n l m : Nat}

instance : Membership (Nat × Nat × Nat) EditStates :=
  ⟨fun s x => s.table.Holds ⟨x.2.1, x.2.2⟩ x.1⟩

theorem mem_def : (t, p, d) ∈ s ↔ s.table.Holds ⟨p, d⟩ t := Iff.rfl

/-- The bounds of the set are `n`, `l` and `m`. -/
def Bounded (n l m : Nat) (s : EditStates) : Prop :=
  s.textLength = n ∧ s.patternLength = l ∧ s.maxDistance = m

theorem sized_table (s : EditStates) : s.table.Sized (s.textLength + 1) := s.size_eq

/-- A member lies within the bounds of its set. -/
theorem le_of_mem (h : (t, p, d) ∈ s) :
    t ≤ s.textLength ∧ p ≤ s.patternLength ∧ d ≤ s.maxDistance := by
  obtain ⟨plane, hplane, ht⟩ := OffsetTable.holds_iff.1 h
  have hsize : plane.size = s.textLength + 1 := s.size_eq _ hplane
  have hlt : t < plane.size := OffsetSet.lt_size_of_mem ht
  exact ⟨by omega, s.cell_le _ hplane⟩

theorem Bounded.le_of_mem (hs : s.Bounded n l m) (h : (t, p, d) ∈ s) : t ≤ n ∧ p ≤ l ∧ d ≤ m := by
  obtain ⟨rfl, rfl, rfl⟩ := hs
  exact EditStates.le_of_mem h

/-- Sets of states with the same bounds are equal if they have the same members. -/
theorem ext_mem (hs : s.Bounded n l m) (hu : u.Bounded n l m) (h : ∀ x, x ∈ s ↔ x ∈ u) :
    s = u := by
  have hsize : s.textLength = u.textLength := hs.1.trans hu.1.symm
  have hpattern : s.patternLength = u.patternLength := hs.2.1.trans hu.2.1.symm
  have hmax : s.maxDistance = u.maxDistance := hs.2.2.trans hu.2.2.symm
  have htable : s.table = u.table :=
    OffsetTable.ext_holds s.sized_table (hsize ▸ u.sized_table) fun c t =>
      h (t, c.pattern, c.distance)
  cases s
  cases u
  cases htable
  cases hsize
  cases hpattern
  cases hmax
  rfl

/-! ### Sets made of tables -/

theorem mem_within {table : OffsetTable Cell} : (t, p, d) ∈ s.within table ↔
    table.Holds ⟨p, d⟩ t ∧ t ≤ s.textLength ∧ p ≤ s.patternLength ∧ d ≤ s.maxDistance := by
  rw [mem_def, within, OffsetTable.holds_revise]
  have hresize : ∀ plane : OffsetSet, t ∈ plane.resize (s.textLength + 1) ↔
      t ≤ s.textLength ∧ t ∈ plane := fun plane => by
    rw [OffsetSet.mem_iff, OffsetSet.contains_resize, Bool.and_eq_true, decide_eq_true_eq,
      Nat.lt_succ_iff]
    rfl
  simp only [hresize, OffsetTable.mem_rows_select, Bool.and_eq_true, decide_eq_true_eq]
  constructor
  · intro hx
    obtain ⟨plane, ⟨hplane, hp, hd⟩, ht, hmem⟩ := hx
    exact ⟨⟨plane, hplane, hmem⟩, ht, hp, hd⟩
  · intro hx
    obtain ⟨⟨plane, hplane, hmem⟩, ht, hp, hd⟩ := hx
    exact ⟨plane, ⟨hplane, hp, hd⟩, ht, hmem⟩

theorem not_mem_empty {x : Nat × Nat × Nat} : x ∉ empty n l m := OffsetTable.holds_empty.1

theorem not_mem_emptyLike {x : Nat × Nat × Nat} : x ∉ s.emptyLike := not_mem_empty

theorem bounded_emptyLike (hs : s.Bounded n l m) : s.emptyLike.Bounded n l m := hs

theorem mem_insertPlane {offsets : OffsetSet} {e : Nat} : (t, p, d) ∈ s.insertPlane q e offsets ↔
    (t, p, d) ∈ s ∨ (p = q ∧ d = e ∧ t ∈ offsets ∧
      t ≤ s.textLength ∧ q ≤ s.patternLength ∧ e ≤ s.maxDistance) := by
  rw [insertPlane, mem_within,
    OffsetTable.holds_add s.sized_table (OffsetSet.size_resize _ _), Cell.mk.injEq,
    OffsetSet.mem_iff, OffsetSet.contains_resize, Bool.and_eq_true, decide_eq_true_eq]
  constructor
  · intro hx
    rcases hx with ⟨h | ⟨⟨rfl, rfl⟩, -, hmem⟩, hbounds⟩
    · exact Or.inl h
    · exact Or.inr ⟨rfl, rfl, hmem, hbounds⟩
  · intro hx
    rcases hx with h | ⟨rfl, rfl, hmem, hbounds⟩
    · exact ⟨Or.inl h, le_of_mem h⟩
    · exact ⟨Or.inr ⟨⟨rfl, rfl⟩, by omega, hmem⟩, hbounds⟩

theorem mem_seeded : (t, p, d) ∈ seeded n l m ↔ t ≤ n ∧ p = 0 ∧ d = 0 := by
  rw [seeded, mem_insertPlane, or_iff_right not_mem_empty]
  constructor
  · rintro ⟨rfl, rfl, -, ht, -⟩
    exact ⟨ht, rfl, rfl⟩
  · rintro ⟨ht, rfl, rfl⟩
    exact ⟨rfl, rfl, OffsetSet.mem_full.2 (by omega), ht, Nat.zero_le _, Nat.zero_le _⟩

theorem bounded_seeded : (seeded n l m).Bounded n l m := ⟨rfl, rfl, rfl⟩

theorem mem_union (hs : s.Bounded n l m) (hu : u.Bounded n l m) {x : Nat × Nat × Nat} :
    x ∈ s.union u ↔ x ∈ s ∨ x ∈ u := by
  obtain ⟨t, p, d⟩ := x
  have hsize : u.textLength = s.textLength := hu.1.trans hs.1.symm
  rw [union, mem_within, OffsetTable.holds_union s.sized_table (hsize ▸ u.sized_table)]
  refine and_iff_left_of_imp ?_
  obtain ⟨rfl, rfl, rfl⟩ := hs
  intro hx
  cases hx with
  | inl h => exact le_of_mem h
  | inr h => exact hu.le_of_mem h

/-! ### Layers -/

theorem mem_layer {plane : OffsetSet} : (d, plane) ∈ s.layer p ↔ (⟨p, d⟩, plane) ∈ s.rows := by
  simp only [layer, List.mem_filterMap, Option.ite_none_right_eq_some, Option.some.injEq,
    Prod.mk.injEq]
  constructor
  · intro hx
    obtain ⟨⟨c, _⟩, hc, rfl, rfl, rfl⟩ := hx
    exact hc
  · exact fun h => ⟨_, h, rfl, rfl, rfl⟩

theorem mem_layerOffsets : t ∈ s.layerOffsets p ↔ ∃ d, (t, p, d) ∈ s := by
  have hfold : ∀ (planes : List (Nat × OffsetSet)) (all : OffsetSet),
      (∀ r ∈ planes, r.2.size = s.textLength + 1) → all.size = s.textLength + 1 →
      (t ∈ planes.foldl (fun all r => all.union r.2) all ↔
        t ∈ all ∨ ∃ r ∈ planes, t ∈ r.2) := by
    intro planes
    induction planes with
    | nil => simp
    | cons r planes ih =>
      intro all hplanes hall
      obtain ⟨hr, hrest⟩ := List.forall_mem_cons.1 hplanes
      rw [List.foldl_cons, ih (all.union r.2) hrest hall, OffsetSet.mem_union (hall.trans hr.symm)]
      simp only [or_assoc, List.mem_cons, exists_eq_or_imp]
  rw [layerOffsets, hfold _ _ (fun r hr => s.size_eq _ (mem_layer.1 hr)) rfl,
    or_iff_right OffsetSet.not_mem_empty]
  constructor
  · intro hx
    obtain ⟨⟨d, plane⟩, hplane, ht⟩ := hx
    exact ⟨d, plane, mem_layer.1 hplane, ht⟩
  · rintro ⟨d, plane, hplane, ht⟩
    exact ⟨(d, plane), mem_layer.2 hplane, ht⟩

theorem size_layerOffsets : (s.layerOffsets p).size = s.textLength + 1 := by
  have hfold : ∀ (planes : List (Nat × OffsetSet)) (all : OffsetSet),
      (planes.foldl (fun all r => all.union r.2) all).size = all.size := by
    intro planes
    induction planes with
    | nil => exact fun _ => rfl
    | cons r planes ih => exact fun all => ih _
  exact hfold _ _

theorem mem_relocate {source target : Nat} : (t, p, d) ∈ s.relocate source target ↔
    p = target ∧ target ≤ s.patternLength ∧ (t, source, d) ∈ s := by
  rw [relocate, mem_within, OffsetTable.holds_rekey]
  simp only [OffsetTable.holds_select, Cell.mk.injEq, decide_eq_true_eq]
  constructor
  · intro hx
    obtain ⟨⟨c, ⟨rfl, rfl⟩, hmem, rfl⟩, -, hp, -⟩ := hx
    exact ⟨rfl, hp, hmem⟩
  · rintro ⟨rfl, hp, hmem⟩
    obtain ⟨ht, -, hd⟩ := le_of_mem hmem
    exact ⟨⟨⟨source, d⟩, ⟨rfl, rfl⟩, hmem, rfl⟩, ht, hp, hd⟩

theorem bounded_relocate (hs : s.Bounded n l m) (source target : Nat) :
    (s.relocate source target).Bounded n l m := hs

theorem mem_restrictLayer {allowed : OffsetSet} : (t, p, d) ∈ s.restrictLayer q allowed ↔
    (t, p, d) ∈ s ∧ (p = q → t ∈ allowed) := by
  rw [restrictLayer, mem_within, OffsetTable.holds_revise]
  have hplane : ∀ plane : OffsetSet, t ∈ (if p = q then plane.inter allowed else plane) ↔
      t ∈ plane ∧ (p = q → t ∈ allowed) := by
    intro plane
    by_cases hp : p = q
    · rw [if_pos hp, OffsetSet.mem_inter]
      simp [hp]
    · rw [if_neg hp]
      simp [hp]
  simp only [hplane]
  constructor
  · intro hx
    obtain ⟨⟨plane, hmem, ht, hallowed⟩, -⟩ := hx
    exact ⟨⟨plane, hmem, ht⟩, hallowed⟩
  · rintro ⟨hmem, hallowed⟩
    obtain ⟨plane, hplane, ht⟩ := OffsetTable.holds_iff.1 hmem
    exact ⟨⟨plane, hplane, ht, hallowed⟩, le_of_mem hmem⟩

theorem bounded_restrictLayer (hs : s.Bounded n l m) (allowed : OffsetSet) :
    (s.restrictLayer q allowed).Bounded n l m := hs

/-! ### Deletions -/

theorem mem_deleteAt {e : Nat} : (t, p, d) ∈ deleteAt q s e ↔
    (t, p, d) ∈ s ∨ (p = q ∧ d = e + 1 ∧ (∃ i, t = i + 1 ∧ (i, q, e) ∈ s) ∧
      t ≤ s.textLength ∧ d ≤ s.maxDistance) := by
  unfold deleteAt plane
  cases hrow : s.table.row? ⟨q, e⟩ with
  | some plane =>
    have hrow : (⟨q, e⟩, plane) ∈ s.table.rows := OffsetTable.row?_eq_some_iff.1 hrow
    have hsize : plane.size = s.textLength + 1 := s.size_eq _ hrow
    have hmem : ∀ i, (i, q, e) ∈ s ↔ i ∈ plane := fun i => OffsetTable.holds_of_mem_rows hrow
    simp only [mem_insertPlane, OffsetSet.mem_shifted, hmem, hsize]
    refine or_congr_right ⟨?_, ?_⟩
    · intro hx
      obtain ⟨rfl, rfl, ⟨i, hi, rfl, -⟩, ht, -, he⟩ := hx
      exact ⟨rfl, rfl, ⟨i, rfl, hi⟩, ht, he⟩
    · intro hx
      obtain ⟨rfl, rfl, ⟨i, rfl, hi⟩, ht, he⟩ := hx
      exact ⟨rfl, rfl, ⟨i, hi, rfl, by omega⟩, ht, (s.cell_le _ hrow).1, he⟩
  | none =>
    refine (or_iff_left ?_).symm
    intro hx
    obtain ⟨-, -, ⟨i, -, plane, hplane, -⟩, -⟩ := hx
    rw [OffsetTable.row?_eq_some_iff.2 hplane] at hrow
    cases hrow

theorem bounded_deleteAt (hs : s.Bounded n l m) (e : Nat) : (deleteAt q s e).Bounded n l m := by
  unfold deleteAt
  split
  · exact hs
  · exact hs

/-- After the deletions at the distances below `e`, the layer holds what lies on a diagonal behind
one of its states, as long as no deletion before was made at the distance `e` or later. -/
theorem mem_foldl_deleteAt (hs : s.Bounded n l m) (e : Nat) :
    ((List.range e).foldl (deleteAt q) s).Bounded n l m ∧
      ∀ t p d, (t, p, d) ∈ (List.range e).foldl (deleteAt q) s ↔
        (t, p, d) ∈ s ∨ (p = q ∧ d ≤ e ∧ t ≤ n ∧ d ≤ m ∧
          ∃ i k c, (i, q, c) ∈ s ∧ t = i + k ∧ d = c + k) := by
  induction e with
  | zero =>
    refine ⟨hs, fun t p d => (or_iff_left_of_imp ?_).symm⟩
    rintro ⟨rfl, hd, -, -, i, k, c, hmem, rfl, hc⟩
    obtain ⟨rfl, rfl, rfl⟩ : d = 0 ∧ c = 0 ∧ k = 0 := by omega
    exact hmem
  | succ e ih =>
    obtain ⟨hbounded, hmem⟩ := ih
    rw [List.range_succ, List.foldl_append]
    refine ⟨bounded_deleteAt hbounded e, fun t p d => ?_⟩
    rw [List.foldl_cons, List.foldl_nil, mem_deleteAt, hbounded.1, hbounded.2.2]
    simp only [hmem, Nat.le_refl, true_and]
    constructor
    · intro hx
      rcases hx with (h | ⟨rfl, hd, ht, hm, h⟩) | ⟨rfl, rfl, ⟨i, rfl, hi⟩, ht, hm⟩
      · exact Or.inl h
      · exact Or.inr ⟨rfl, by omega, ht, hm, h⟩
      · refine Or.inr ⟨rfl, Nat.le_refl _, ht, hm, ?_⟩
        rcases hi with hi | ⟨-, -, j, k, c, hj, rfl, rfl⟩
        · exact ⟨i, 1, e, hi, rfl, rfl⟩
        · exact ⟨j, k + 1, c, hj, rfl, rfl⟩
    · intro hx
      rcases hx with h | ⟨rfl, hd, ht, hm, i, k, c, hi, rfl, rfl⟩
      · exact Or.inl (Or.inl h)
      · cases k with
        | zero => exact Or.inl (Or.inl hi)
        | succ k =>
          -- the step that reaches distance `e + 1` is the last one, the others come before
          cases Nat.lt_or_ge (c + k) e with
          | inl hlt => exact Or.inl (Or.inr ⟨rfl, by omega, ht, hm, i, k + 1, c, hi, rfl, rfl⟩)
          | inr hge =>
            obtain rfl : e = c + k := by omega
            refine Or.inr ⟨rfl, rfl, ⟨i + k, rfl, Or.inr ?_⟩, ht, hm⟩
            exact ⟨by omega, by omega, i, k, c, hi, rfl, rfl⟩

/-- The closure of a layer under deletions holds what lies on a diagonal behind a state of it. -/
theorem mem_applyDeletions (hs : s.Bounded n l m) : (t, p, d) ∈ s.applyDeletions q ↔
    (t, p, d) ∈ s ∨ (p = q ∧ t ≤ n ∧ d ≤ m ∧
      ∃ i k c, (i, q, c) ∈ s ∧ t = i + k ∧ d = c + k) := by
  unfold applyDeletions
  rw [(mem_foldl_deleteAt hs _).2, hs.2.2]
  refine or_congr_right ⟨?_, ?_⟩
  · rintro ⟨hp, -, h⟩
    exact ⟨hp, h⟩
  · rintro ⟨hp, ht, hd, h⟩
    exact ⟨hp, hd, ht, hd, h⟩

theorem bounded_applyDeletions (hs : s.Bounded n l m) (q : Nat) :
    (s.applyDeletions q).Bounded n l m :=
  (mem_foldl_deleteAt hs _).1

theorem isEmpty_iff : s.isEmpty = true ↔ ∀ x, x ∉ s := by
  unfold isEmpty
  rw [OffsetTable.isEmpty_iff]
  constructor
  · exact fun h x => h ⟨x.2.1, x.2.2⟩ x.1
  · exact fun h c t => h (t, c.pattern, c.distance)

end EditStates

end PatternSweep
