import PatternSweep.Proofs.Tables

/-!
# Members of span sets

The view of a span set is membership of pairs: `(i, j) ∈ t` says that the start `i` is recorded for
the end `j`. A span set is `Sized n` if its ends and all its start sets range over `n` offsets; two
such sets with the same members are equal (`SpanSet.ext_mem`), and every operation has one `mem_`
equation.
-/

namespace PatternSweep

namespace SpanSet

variable {t u : SpanSet} {i j n : Nat}

instance : Membership (Nat × Nat) SpanSet := ⟨fun t r => t.table.Holds r.2 r.1⟩

theorem mem_def {r : Nat × Nat} : r ∈ t ↔ t.table.Holds r.2 r.1 := Iff.rfl

theorem mem_iff : (i, j) ∈ t ↔ ∃ s, (j, s) ∈ t.rows ∧ i ∈ s := Iff.rfl

/-- Ends and starts range over the offsets below `n`. -/
def Sized (n : Nat) (t : SpanSet) : Prop := t.size = n ∧ t.table.Sized n

theorem end_lt_of_mem (h : (i, j) ∈ t) : j < t.size := by
  obtain ⟨s, hs, -⟩ := mem_iff.1 h
  exact t.end_lt _ hs

theorem Sized.end_lt (ht : t.Sized n) (h : (i, j) ∈ t) : j < n := ht.1 ▸ end_lt_of_mem h

/-- Span sets of one size are equal if they have the same members. -/
theorem ext_mem (ht : t.Sized n) (hu : u.Sized n) (h : ∀ r, r ∈ t ↔ r ∈ u) : t = u := by
  have htable : t.table = u.table := OffsetTable.ext_holds ht.2 hu.2 fun k p => h (p, k)
  have hsize : t.size = u.size := ht.1.trans hu.1.symm
  cases t
  cases u
  cases htable
  cases hsize
  rfl

theorem mem_below {table : OffsetTable Nat} : (i, j) ∈ below n table ↔ table.Holds j i ∧ j < n := by
  rw [mem_def, below, OffsetTable.holds_select, decide_eq_true_eq]

theorem sized_below {table : OffsetTable Nat} {m : Nat} (hm : m = n) (h : table.Sized n) :
    (below m table).Sized n :=
  ⟨hm, fun r hr => h r (OffsetTable.mem_rows_select.1 hr).1⟩

@[simp] theorem not_mem_empty {r : Nat × Nat} : r ∉ empty n := by
  rw [mem_def, empty, OffsetTable.holds_empty]
  exact id

theorem sized_empty : (empty n).Sized n := ⟨rfl, by simp [empty, OffsetTable.empty, Rows.Sized,
  OffsetTable.Sized]⟩

theorem mem_lift {s : OffsetSet} : (i, j) ∈ lift s ↔ i = j ∧ i ∈ s := by
  simp only [mem_iff, rows, lift, List.mem_map, Prod.mk.injEq]
  constructor
  · intro hx
    obtain ⟨_, ⟨p, hp, rfl, rfl⟩, hi⟩ := hx
    obtain ⟨hi, -⟩ := OffsetSet.mem_ofList.1 hi
    obtain rfl := List.mem_singleton.1 hi
    exact ⟨rfl, OffsetSet.mem_toList.1 hp⟩
  · rintro ⟨rfl, hi⟩
    refine ⟨_, ⟨i, OffsetSet.mem_toList.2 hi, rfl, rfl⟩, OffsetSet.mem_ofList.2 ⟨by simp, ?_⟩⟩
    exact OffsetSet.lt_size_of_mem hi

theorem sized_lift {s : OffsetSet} (h : s.size = n) : (lift s).Sized n := by
  refine ⟨h, fun r hr => ?_⟩
  obtain ⟨p, -, rfl⟩ := List.mem_map.1 hr
  exact h

theorem mem_ends : j ∈ t.ends ↔ ∃ i, (i, j) ∈ t := by
  simp only [ends, OffsetSet.mem_ofList, List.mem_map]
  constructor
  · intro hx
    obtain ⟨⟨r, hr, rfl⟩, -⟩ := hx
    obtain ⟨i, hi⟩ := OffsetTable.exists_holds_of_mem_rows (k := r.1) (s := r.2) hr
    exact ⟨i, hi⟩
  · rintro ⟨i, hi⟩
    obtain ⟨s, hs, -⟩ := mem_iff.1 hi
    exact ⟨⟨_, hs, rfl⟩, end_lt_of_mem hi⟩

theorem mem_union (ht : t.Sized n) (hu : u.Sized n) {r : Nat × Nat} :
    r ∈ t.union u ↔ r ∈ t ∨ r ∈ u := by
  obtain ⟨i, j⟩ := r
  rw [union, mem_below, OffsetTable.holds_union ht.2 hu.2, and_iff_left_of_imp]
  · rfl
  · intro hx
    cases hx with
    | inl h => exact end_lt_of_mem h
    | inr h => exact ht.1 ▸ hu.end_lt h

theorem sized_union (ht : t.Sized n) (hu : u.Sized n) : (t.union u).Sized n :=
  sized_below ht.1 (OffsetTable.sized_union ht.2 hu.2)

theorem mem_keepEnds {allowed : OffsetSet} :
    (i, j) ∈ t.keepEnds allowed ↔ (i, j) ∈ t ∧ j ∈ allowed := by
  rw [keepEnds, mem_below, OffsetTable.holds_select]
  exact ⟨fun h => h.1, fun h => ⟨h, end_lt_of_mem h.1⟩⟩

theorem sized_keepEnds {allowed : OffsetSet} (ht : t.Sized n) : (t.keepEnds allowed).Sized n :=
  sized_below ht.1 fun r hr => ht.2 r (OffsetTable.mem_rows_select.1 hr).1

/-- A change of all start sets that keeps the starts with a property. -/
theorem mem_revise {f : OffsetSet → OffsetSet} {q : Nat → Prop}
    (hf : ∀ s i, i ∈ f s ↔ i ∈ s ∧ q i) : (i, j) ∈ t.revise f ↔ (i, j) ∈ t ∧ q i := by
  rw [revise, mem_below, OffsetTable.holds_revise]
  constructor
  · intro hx
    obtain ⟨⟨s, hs, hi⟩, -⟩ := hx
    exact ⟨⟨s, hs, ((hf s i).1 hi).1⟩, ((hf s i).1 hi).2⟩
  · intro hx
    obtain ⟨⟨s, hs, hi⟩, hq⟩ := hx
    exact ⟨⟨s, hs, (hf s i).2 ⟨hi, hq⟩⟩, t.end_lt _ hs⟩

theorem mem_keepStarts {allowed : OffsetSet} :
    (i, j) ∈ t.keepStarts allowed ↔ (i, j) ∈ t ∧ i ∈ allowed :=
  mem_revise fun _ _ => OffsetSet.mem_inter

theorem mem_dropStarts {denied : OffsetSet} :
    (i, j) ∈ t.dropStarts denied ↔ (i, j) ∈ t ∧ i ∉ denied :=
  mem_revise fun _ _ => OffsetSet.mem_diff

theorem mem_starts (ht : t.Sized n) : i ∈ t.starts ↔ ∃ j, (i, j) ∈ t := by
  have hfold : ∀ (rows : List (Nat × OffsetSet)) (all : OffsetSet), Rows.Sized n rows →
      all.size = n → (i ∈ rows.foldl (fun all r => all.union r.2) all ↔
        i ∈ all ∨ ∃ j, Rows.Holds rows j i) := by
    intro rows
    induction rows with
    | nil => simp
    | cons r rows ih =>
      intro all hrows hall
      have hr : all.size = r.2.size := hall.trans (hrows r (by simp)).symm
      have hrest : Rows.Sized n rows := fun x hx => hrows x (List.mem_cons_of_mem _ hx)
      rw [List.foldl_cons, ih (all.union r.2) hrest hall, OffsetSet.mem_union hr, or_assoc]
      simp only [Rows.holds_cons, exists_or, exists_eq_left]
  unfold starts rows
  rw [hfold _ _ ht.2 ht.1, or_iff_right OffsetSet.not_mem_empty]
  rfl

@[simp] theorem size_starts : t.starts.size = t.size := by
  have hfold : ∀ (rows : List (Nat × OffsetSet)) (all : OffsetSet),
      (rows.foldl (fun all r => all.union r.2) all).size = all.size := by
    intro rows
    induction rows with
    | nil => exact fun _ => rfl
    | cons r rows ih => exact fun all => ih _
  exact hfold _ _

theorem mem_whereStarts (hu : u.Sized n) :
    (i, j) ∈ t.whereStarts u ↔ (i, j) ∈ t ∧ ∃ e, (i, e) ∈ u := by
  rw [whereStarts, mem_keepStarts, mem_starts hu]

theorem mem_whereNotStarts (hu : u.Sized n) :
    (i, j) ∈ t.whereNotStarts u ↔ (i, j) ∈ t ∧ ¬∃ e, (i, e) ∈ u := by
  rw [whereNotStarts, mem_dropStarts, mem_starts hu]

theorem mem_advance {hit : Nat → Bool} :
    (i, j) ∈ t.advance hit ↔ ∃ e, (i, e) ∈ t ∧ hit e = true ∧ j = e + 1 ∧ j < t.size := by
  rw [advance, mem_below, OffsetTable.holds_rekey]
  simp only [OffsetTable.holds_select]
  constructor
  · intro h
    obtain ⟨⟨e, rfl, he, hhit⟩, hlt⟩ := h
    exact ⟨e, he, hhit, rfl, hlt⟩
  · rintro ⟨e, he, hhit, rfl, hlt⟩
    exact ⟨⟨e, rfl, he, hhit⟩, hlt⟩

theorem sized_advance {hit : Nat → Bool} (ht : t.Sized n) : (t.advance hit).Sized n := by
  refine sized_below ht.1 fun r hr => ?_
  obtain ⟨x, hx, rfl⟩ := List.mem_map.1 hr
  exact ht.2 x (OffsetTable.mem_rows_select.1 hx).1

theorem mem_toList {r : Nat × Nat} : r ∈ t.toList ↔ r ∈ t := by
  obtain ⟨i, j⟩ := r
  simp only [toList, List.mem_flatMap, List.mem_map, Prod.mk.injEq, mem_iff]
  constructor
  · rintro ⟨x, hx, i', hi, rfl, rfl⟩
    exact ⟨x.2, hx, OffsetSet.mem_toList.1 hi⟩
  · rintro ⟨s, hs, hi⟩
    exact ⟨(j, s), hs, i, OffsetSet.mem_toList.2 hi, rfl, rfl⟩

/-- The members are listed by end and then by start, each once. -/
theorem pairwise_toList (t : SpanSet) :
    t.toList.Pairwise fun a b => a.2 < b.2 ∨ a.2 = b.2 ∧ a.1 < b.1 := by
  unfold toList
  -- within a row the starts ascend, from one row to the next the ends do
  refine List.pairwise_flatMap.2 ⟨fun r _ => ?_, ?_⟩
  · refine List.pairwise_map.2 (r.2.pairwise_toList.imp fun h => Or.inr ⟨rfl, h⟩)
  · refine t.table.ascending.imp fun h x hx y hy => ?_
    obtain ⟨_, _, rfl⟩ := List.mem_map.1 hx
    obtain ⟨_, _, rfl⟩ := List.mem_map.1 hy
    exact Or.inl (of_decide_eq_true h)

/-- Sets of spans between offsets below `n`. -/
def view (n : Nat) : View SpanSet (Nat × Nat) where
  Dom := Sized n
  Mem t r := r ∈ t
  ext := ext_mem
  dom_join := sized_union
  mem_join ht hu := mem_union ht hu
  isEmpty_iff _ := by
    rw [Prod.forall, forall_comm]
    exact OffsetTable.isEmpty_iff

end SpanSet

end PatternSweep
