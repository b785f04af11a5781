import PatternSweep.Proofs.FiniteSpans

/-!
# Ends kept beside the rows

The ends of a span set can be kept as a set of their own, next to the rows and changed by separate
statements: `IndexedSpans` is such a record, of which nothing is asked. A row that is put in turns
its end on, and a row that loses its last start is taken out and turns its end off. From the ends
and the rows of a span set every operation leads to the ends and the rows of what the same operation
makes of the span set (`SpanSet.indexed`). So whatever is done to it, such a record is `Sound`: its
ends are exactly the keys of its rows, and no row is empty.
-/

namespace PatternSweep

namespace Rows

/-- The set `s` filed under `k`, in place of what was filed there before. -/
def put (k : Nat) (s : OffsetSet) : List (Nat × OffsetSet) → List (Nat × OffsetSet)
  | [] => [(k, s)]
  | r :: rows =>
    if k < r.1 then (k, s) :: r :: rows
    else if r.1 < k then r :: put k s rows
    else (k, s) :: rows

theorem put_eq_file (k : Nat) (s : OffsetSet) (rows : List (Nat × OffsetSet)) :
    put k s rows = file k s rows := by
  induction rows with
  | nil => rfl
  | cons r rows ih => simp [put, file, Key.before, ih]

end Rows

/-- The ends of spans as a set of their own, and the starts filed under them. -/
structure IndexedSpans where
  ends : OffsetSet
  rows : List (Nat × OffsetSet)
  deriving DecidableEq

namespace IndexedSpans

/-- No spans between the offsets below `n`. -/
def empty (n : Nat) : IndexedSpans := ⟨.empty n, []⟩

/-- A span is put in if it is in range; it is new if its row does not have its start. -/
def insert (x : IndexedSpans) (start stop : Nat) : IndexedSpans × Bool :=
  if start < x.ends.size ∧ stop < x.ends.size then
    let row := (x.rows.lookup stop).getD (.empty x.ends.size)
    (⟨x.ends.insert stop, Rows.put stop (row.insert start) x.rows⟩, row.adds start)
  else (x, false)

/-- Starts are put into the row of an end in range, or make a row of their own. -/
def insertStarts (x : IndexedSpans) (starts : OffsetSet) (stop : Nat) :
    Except SizeMismatch (IndexedSpans × Bool) :=
  if stop < x.ends.size ∧ starts.isEmpty = false then
    match x.rows.lookup stop with
    | some row => (row.union? starts).map fun u =>
      (⟨x.ends.insert stop, Rows.put stop u x.rows⟩, row.gains starts)
    | none => .ok (⟨x.ends.insert stop, Rows.put stop starts x.rows⟩, true)
  else .ok (x, false)

/-- The empty spans at the offsets of a set. -/
def lift (s : OffsetSet) : IndexedSpans :=
  s.toList.foldl (fun x p => (x.insert p p).1) (empty s.size)

/-- A row is put in; what it adds counts with what was added before. -/
def insertRow (now : IndexedSpans × Bool) (r : Nat × OffsetSet) :
    Except SizeMismatch (IndexedSpans × Bool) :=
  (now.1.insertStarts r.2 r.1).map fun next => (next.1, now.2 || next.2)

/-- The rows of another record are put in, one after the other. -/
def union (x y : IndexedSpans) : Except SizeMismatch (IndexedSpans × Bool) :=
  y.rows.foldlM insertRow (x, false)

/-- A row is changed and kept; if it is left empty it is taken out, and its end with it. -/
def reviseRow (f : OffsetSet → Except SizeMismatch OffsetSet) (x : IndexedSpans)
    (r : Nat × OffsetSet) : Except SizeMismatch IndexedSpans :=
  (f r.2).map fun s =>
    if s.isEmpty then ⟨x.ends.erase r.1, x.rows⟩ else ⟨x.ends, x.rows ++ [(r.1, s)]⟩

/-- All rows are changed. -/
def revise (f : OffsetSet → Except SizeMismatch OffsetSet) (x : IndexedSpans) :
    Except SizeMismatch IndexedSpans :=
  x.rows.foldlM (reviseRow f) ⟨x.ends, []⟩

/-- The spans whose start is allowed. -/
def keepStarts (x : IndexedSpans) (allowed : OffsetSet) : Except SizeMismatch IndexedSpans :=
  x.revise (·.inter? allowed)

/-- The spans whose start is not denied. -/
def dropStarts (x : IndexedSpans) (denied : OffsetSet) : Except SizeMismatch IndexedSpans :=
  x.revise (·.diff? denied)

/-- The spans whose end is allowed: first the ends go, then the rows that have lost theirs. -/
def keepEnds (x : IndexedSpans) (allowed : OffsetSet) : Except SizeMismatch IndexedSpans :=
  (x.ends.inter? allowed).map fun ends => ⟨ends, x.rows.filter fun r => ends.contains r.1⟩

/-- The starts of all spans. -/
def starts (x : IndexedSpans) : Except SizeMismatch OffsetSet :=
  x.rows.foldlM (fun all r => all.union? r.2) (.empty x.ends.size)

/-- The ends are the keys of the rows, each key stands once, and no row is empty. -/
structure Sound (x : IndexedSpans) : Prop where
  mem_ends : ∀ j, j ∈ x.ends ↔ ∃ s, (j, s) ∈ x.rows
  ascending : x.rows.Pairwise fun a b => a.1 < b.1
  inhabited : ∀ r ∈ x.rows, r.2.isEmpty = false

end IndexedSpans

namespace SpanSet

variable {t u : SpanSet} {s : OffsetSet} {i j k n : Nat}

/-- The ends and the rows of a span set. -/
def indexed (t : SpanSet) : IndexedSpans := ⟨t.ends, t.rows⟩

@[simp] theorem size_ends : t.ends.size = t.size := rfl

theorem mem_ends_iff_rows : j ∈ t.ends ↔ ∃ s, (j, s) ∈ t.rows := by
  simp only [mem_ends_iff_startsOf, startsOf_eq_some_iff]

theorem sound_indexed (t : SpanSet) : t.indexed.Sound where
  mem_ends _ := mem_ends_iff_rows
  ascending := t.table.ascending.imp of_decide_eq_true
  inhabited := t.table.inhabited

theorem indexed_inj (h : t.size = u.size) : t.indexed = u.indexed ↔ t = u := by
  refine ⟨fun heq => ?_, congrArg indexed⟩
  obtain ⟨n, ⟨rows, _, _⟩, _⟩ := t
  obtain ⟨m, ⟨rows', _, _⟩, _⟩ := u
  cases h
  cases (IndexedSpans.mk.inj heq).2
  rfl

theorem indexed_empty (n : Nat) : (empty n).indexed = IndexedSpans.empty n := by
  refine congrArg (IndexedSpans.mk · []) (OffsetSet.ext_mem rfl fun j => ?_)
  simp [mem_ends, OffsetSet.not_mem_empty]

/-! ### Putting in -/

/-- Rows below a size are all that is kept. -/
theorem rows_below {table : OffsetTable Nat} (h : ∀ r ∈ table.rows, r.1 < n) :
    (below n table).rows = table.rows :=
  List.filter_eq_self.2 fun r hr => decide_eq_true (h r hr)

theorem rows_insertStarts (hk : k < t.size) (hs : s.isEmpty = false) :
    (t.insertStarts s k).rows = Rows.put k ((t.startsOf k).elim s (·.union s)) t.rows := by
  have hadd : (t.table.add k s).rows = Rows.merge t.rows [(k, s)] := by
    simp [OffsetTable.add, OffsetTable.union, OffsetTable.single, hs, rows]
  rw [insertStarts, rows_below, hadd]
  · rw [Rows.put_eq_file]
    exact Rows.merge_single t.table.ascending
  · rw [hadd]
    refine Rows.forall_mem_merge (P := fun r => r.1 < t.size) (fun _ _ _ h => h) t.end_lt ?_
    simpa using hk

theorem ends_insertStarts (ht : t.Sized n) (hsize : s.size = n) (hk : k < n)
    (hs : s.isEmpty = false) : (t.insertStarts s k).ends = t.ends.insert k := by
  refine OffsetSet.ext_mem rfl fun j => ?_
  obtain ⟨i, hi⟩ := OffsetSet.isEmpty_eq_false_iff.1 hs
  simp only [mem_ends, OffsetSet.mem_insert, mem_insertStarts ht hsize, exists_or, size_ends, ht.1]
  refine or_congr_right ⟨?_, ?_⟩
  · rintro ⟨_, ⟨rfl, -⟩, hj⟩
    exact ⟨rfl, hj⟩
  · rintro ⟨rfl, hj⟩
    exact ⟨i, ⟨rfl, hi⟩, hj⟩

theorem indexed_insertStarts_of_lt (ht : t.Sized n) (hsize : s.size = n) (hk : k < n)
    (hs : s.isEmpty = false) : (t.insertStarts s k).indexed =
      ⟨t.ends.insert k, Rows.put k ((t.startsOf k).elim s (·.union s)) t.rows⟩ := by
  rw [indexed, ends_insertStarts ht hsize hk hs, rows_insertStarts (ht.1.symm ▸ hk) hs]

/-- Starts that are out of range, or none at all, change nothing. -/
theorem insertStarts_eq_self (ht : t.Sized n) (hsize : s.size = n)
    (h : ¬(k < n ∧ s.isEmpty = false)) : t.insertStarts s k = t := by
  refine ext_mem (sized_insertStarts ht hsize) ht fun r => ?_
  rw [mem_insertStarts ht hsize, or_iff_left]
  rintro ⟨⟨hk, hi⟩, hlt⟩
  exact h ⟨hk ▸ hlt, OffsetSet.isEmpty_eq_false_iff.2 ⟨r.1, hi⟩⟩

theorem indexed_insertStarts (ht : t.Sized n) (hsize : s.size = n) :
    t.indexed.insertStarts s k = .ok ((t.insertStarts s k).indexed, t.gainsAt s k) := by
  have hends : t.indexed.ends.size = n := ht.1
  unfold IndexedSpans.insertStarts
  rw [hends]
  by_cases h : k < n ∧ s.isEmpty = false
  · have hlookup : t.indexed.rows.lookup k = t.startsOf k := rfl
    rw [if_pos h, indexed_insertStarts_of_lt ht hsize h.1 h.2, gainsAt, ht.1, h.2, hlookup]
    cases hrow : t.startsOf k with
    | none => simp [h.1, indexed]
    | some row =>
      have heq : row.size = s.size := (ht.size_startsOf hrow).trans hsize.symm
      simp [h.1, indexed, OffsetSet.union?, OffsetSet.sameSize, heq, Except.map]
  · have hgain : t.gainsAt s k = false := by
      rw [← Bool.not_eq_true, gainsAt_iff ht hsize]
      rintro ⟨hk, i, hi, -⟩
      exact h ⟨hk, OffsetSet.isEmpty_eq_false_iff.2 ⟨i, hi⟩⟩
    rw [if_neg h, insertStarts_eq_self ht hsize h, hgain]

theorem indexed_insert (ht : t.Sized n) :
    t.indexed.insert i j = ((t.insert i j).indexed, t.adds i j) := by
  have hends : t.indexed.ends.size = n := ht.1
  -- one start out of range makes an empty set of starts, which is not recorded
  have hone : (OffsetSet.ofList n [i]).isEmpty = false ↔ i < n := by
    simp [OffsetSet.isEmpty_eq_false_iff, OffsetSet.mem_ofList]
  unfold IndexedSpans.insert
  rw [insert, adds, ht.1, hends]
  by_cases h : i < n ∧ j < n
  · have hlookup : t.indexed.rows.lookup j = t.startsOf j := rfl
    rw [if_pos h, indexed_insertStarts_of_lt ht rfl h.2 (hone.2 h.1), hlookup]
    cases hrow : t.startsOf j with
    | none =>
      have hrow : (OffsetSet.empty n).insert i = OffsetSet.ofList n [i] :=
        OffsetSet.foldl_insert_empty n [i]
      simp [h, indexed, hrow, OffsetSet.adds]
    | some row =>
      have hrow : row.insert i = row.union (OffsetSet.ofList n [i]) :=
        ht.size_startsOf hrow ▸ row.insert_eq_union i
      simp [h, indexed, hrow]
  · have hsame : t.insertStarts (OffsetSet.ofList n [i]) j = t :=
      insertStarts_eq_self ht rfl fun hc => h ⟨hone.1 hc.2, hc.1⟩
    have hadd : (decide (i < n) && decide (j < n)) = false := by
      rw [← Bool.decide_and, decide_eq_false h]
    rw [if_neg h, hsame, hadd, Bool.false_and]

/-! ### Rows and spans put in one after the other -/

/-- All rows of a list are put in. -/
def insertRows (t : SpanSet) (rows : List (Nat × OffsetSet)) : SpanSet :=
  rows.foldl (fun t r => t.insertStarts r.2 r.1) t

theorem sized_insertRows {rows : List (Nat × OffsetSet)} (ht : t.Sized n)
    (hsize : Rows.Sized n rows) : (t.insertRows rows).Sized n := by
  induction rows generalizing t with
  | nil => exact ht
  | cons r rows ih =>
    obtain ⟨hr, hrows⟩ := List.forall_mem_cons.1 hsize
    exact ih (sized_insertStarts ht hr) hrows

theorem mem_insertRows {rows : List (Nat × OffsetSet)} (ht : t.Sized n)
    (hsize : Rows.Sized n rows) (hlt : ∀ r ∈ rows, r.1 < n) :
    (i, j) ∈ t.insertRows rows ↔ (i, j) ∈ t ∨ Rows.Holds rows j i := by
  induction rows generalizing t with
  | nil => simp [insertRows]
  | cons r rows ih =>
    obtain ⟨hr, hrows⟩ := List.forall_mem_cons.1 hsize
    obtain ⟨hr', hrows'⟩ := List.forall_mem_cons.1 hlt
    have hj : j = r.1 ∧ i ∈ r.2 → j < n := fun h => h.1 ▸ hr'
    rw [insertRows, List.foldl_cons, ← insertRows, ih (sized_insertStarts ht hr) hrows hrows',
      mem_insertStarts ht hr, and_iff_left_of_imp hj, Rows.holds_cons, or_assoc]

/-- A union puts in the rows of the other set. -/
theorem insertRows_rows (ht : t.Sized n) (hu : u.Sized n) : t.insertRows u.rows = t.union u := by
  have hrows : Rows.Sized n u.rows := hu.2
  refine ext_mem (sized_insertRows ht hrows) (sized_union ht hu) fun r => ?_
  rw [mem_insertRows ht hrows fun r hr => hu.1 ▸ u.end_lt r hr, mem_union ht hu]
  rfl

/-- Starts recorded for one end do not count for another. -/
theorem gainsAt_insertStarts {s' : OffsetSet} {k' : Nat} (ht : t.Sized n) (hs : s.size = n)
    (hs' : s'.size = n) (hk : k ≠ k') :
    (t.insertStarts s k).gainsAt s' k' = t.gainsAt s' k' := by
  rw [Bool.eq_iff_iff, gainsAt_iff (sized_insertStarts ht hs) hs', gainsAt_iff ht hs']
  simp [mem_insertStarts ht hs, hk.symm]

/-- While the rows come with ascending ends, what they add can be told beforehand. -/
theorem indexed_insertRows {rows : List (Nat × OffsetSet)} (ht : t.Sized n)
    (hsize : Rows.Sized n rows) (hasc : Rows.Ascending rows) (b : Bool) :
    rows.foldlM IndexedSpans.insertRow (t.indexed, b) =
      .ok ((t.insertRows rows).indexed, b || rows.any fun r => t.gainsAt r.2 r.1) := by
  induction rows generalizing t b with
  | nil => simp [insertRows, pure, Except.pure]
  | cons r rows ih =>
    obtain ⟨hr, hrows⟩ := List.forall_mem_cons.1 hsize
    obtain ⟨hfirst, hrest⟩ := List.pairwise_cons.1 hasc
    -- the later rows have other ends, so the first one does not change what they add
    have hlater : (rows.any fun x => (t.insertStarts r.2 r.1).gainsAt x.2 x.1) =
        rows.any fun x => t.gainsAt x.2 x.1 := by
      rw [Bool.eq_iff_iff, List.any_eq_true, List.any_eq_true]
      refine exists_congr fun x => and_congr_right fun hx => ?_
      have hlt : r.1 < x.1 := of_decide_eq_true (hfirst x hx)
      rw [gainsAt_insertStarts ht hr (hrows x hx) hlt.ne]
    rw [List.foldlM_cons, IndexedSpans.insertRow, indexed_insertStarts ht hr]
    refine (ih (sized_insertStarts ht hr) hrows hrest _).trans ?_
    rw [hlater, List.any_cons, Bool.or_assoc]
    rfl

theorem indexed_union (ht : t.Sized n) (hu : u.Sized n) :
    t.indexed.union u.indexed = .ok ((t.union u).indexed, t.gains u) := by
  have hrows : Rows.Sized n u.rows := hu.2
  refine (indexed_insertRows ht hrows u.table.ascending false).trans ?_
  rw [insertRows_rows ht hu, Bool.false_or, gains]

/-- The empty spans at all offsets of a list are put in. -/
def insertEmpties (t : SpanSet) (ps : List Nat) : SpanSet :=
  ps.foldl (fun t p => t.insert p p) t

theorem sized_insertEmpties (ht : t.Sized n) (ps : List Nat) : (t.insertEmpties ps).Sized n := by
  induction ps generalizing t with
  | nil => exact ht
  | cons p ps ih => exact ih (sized_insert ht)

theorem mem_insertEmpties (ht : t.Sized n) {ps : List Nat} :
    (i, j) ∈ t.insertEmpties ps ↔ (i, j) ∈ t ∨ (i = j ∧ i ∈ ps) ∧ i < n := by
  induction ps generalizing t with
  | nil => simp [insertEmpties]
  | cons p ps ih =>
    rw [insertEmpties, List.foldl_cons, ← insertEmpties, ih (sized_insert ht), mem_insert ht,
      List.mem_cons]
    grind

theorem indexed_insertEmpties (ht : t.Sized n) (ps : List Nat) :
    ps.foldl (fun x p => (x.insert p p).1) t.indexed = (t.insertEmpties ps).indexed := by
  induction ps generalizing t with
  | nil => rfl
  | cons p ps ih =>
    rw [List.foldl_cons, indexed_insert ht, ih (sized_insert ht)]
    rfl

theorem indexed_lift (s : OffsetSet) : IndexedSpans.lift s = (lift s).indexed := by
  have hsized := sized_empty (n := s.size)
  rw [IndexedSpans.lift, ← indexed_empty, indexed_insertEmpties hsized]
  refine congrArg indexed (ext_mem (sized_insertEmpties hsized _) (sized_lift rfl) fun r => ?_)
  rw [mem_insertEmpties hsized, or_iff_right not_mem_empty, OffsetSet.mem_toList, mem_lift]
  exact and_iff_left_of_imp fun h => OffsetSet.lt_size_of_mem h.2

/-! ### Taking out -/

theorem rows_revise (f : OffsetSet → OffsetSet) :
    (t.revise f).rows = Rows.revise (fun _ s => f s) t.rows := by
  refine rows_below fun x hx => ?_
  obtain ⟨r, hr, -, rfl⟩ := OffsetTable.mem_rows_revise.1 hx
  exact t.end_lt r hr

/-- The ends without those whose row is left empty. -/
def dropEnds (f : OffsetSet → OffsetSet) (ends : OffsetSet) (rows : List (Nat × OffsetSet)) :
    OffsetSet :=
  rows.foldl (fun ends r => if (f r.2).isEmpty then ends.erase r.1 else ends) ends

theorem mem_dropEnds {f : OffsetSet → OffsetSet} {ends : OffsetSet}
    {rows : List (Nat × OffsetSet)} :
    j ∈ dropEnds f ends rows ↔ j ∈ ends ∧ ∀ r ∈ rows, (f r.2).isEmpty = true → j ≠ r.1 := by
  induction rows generalizing ends with
  | nil => simp [dropEnds]
  | cons r rows ih =>
    rw [dropEnds, List.foldl_cons, ← dropEnds, ih, List.forall_mem_cons]
    by_cases hr : (f r.2).isEmpty = true <;> simp [hr, OffsetSet.mem_erase, and_assoc]

theorem size_dropEnds (f : OffsetSet → OffsetSet) (ends : OffsetSet)
    (rows : List (Nat × OffsetSet)) : (dropEnds f ends rows).size = ends.size := by
  induction rows generalizing ends with
  | nil => rfl
  | cons r rows ih =>
    rw [dropEnds, List.foldl_cons, ← dropEnds, ih]
    split <;> rfl

/-- What is left of the ends is where something is left of the row. -/
theorem ends_revise (f : OffsetSet → OffsetSet) :
    (t.revise f).ends = dropEnds f t.ends t.rows := by
  refine OffsetSet.ext_mem (size_dropEnds f t.ends t.rows).symm fun j => ?_
  rw [mem_ends_iff_rows, rows_revise, mem_dropEnds, mem_ends_iff_rows]
  simp only [Rows.mem_revise]
  constructor
  · -- the row that is left is the only one of its end, so no row of that end was left empty
    rintro ⟨_, r, hr, hleft, heq⟩
    obtain ⟨rfl, rfl⟩ := Prod.mk.inj heq
    refine ⟨⟨r.2, hr⟩, fun x hx hempty hkey => ?_⟩
    have hsame : r.2 = x.2 := t.table.ascending.unique hr (hkey ▸ hx)
    rw [hsame, hempty] at hleft
    cases hleft
  · rintro ⟨⟨s, hs⟩, hleft⟩
    exact ⟨f s, (j, s), hs, by simpa using fun h => hleft _ hs h rfl, rfl⟩

/-- Row after row is changed and kept, or taken out together with its end. -/
theorem foldlM_revise {f : OffsetSet → OffsetSet} {f? : OffsetSet → Except SizeMismatch OffsetSet}
    {rows : List (Nat × OffsetSet)} (h : ∀ r ∈ rows, f? r.2 = .ok (f r.2)) (x : IndexedSpans) :
    rows.foldlM (IndexedSpans.reviseRow f?) x =
      .ok ⟨dropEnds f x.ends rows, x.rows ++ Rows.revise (fun _ s => f s) rows⟩ := by
  induction rows generalizing x with
  | nil => simp [dropEnds, Rows.revise, pure, Except.pure]
  | cons r rows ih =>
    obtain ⟨hr, hrows⟩ := List.forall_mem_cons.1 h
    rw [List.foldlM_cons, IndexedSpans.reviseRow, hr]
    refine (ih hrows _).trans ?_
    by_cases hempty : (f r.2).isEmpty = true <;> simp [dropEnds, Rows.revise, hempty]

theorem indexed_revise {f : OffsetSet → OffsetSet} {f? : OffsetSet → Except SizeMismatch OffsetSet}
    (h : ∀ r ∈ t.rows, f? r.2 = .ok (f r.2)) :
    t.indexed.revise f? = .ok (t.revise f).indexed := by
  have hleft : (t.revise f).indexed =
      ⟨dropEnds f t.ends t.rows, Rows.revise (fun _ s => f s) t.rows⟩ := by
    rw [indexed, ends_revise, rows_revise]
  rw [hleft]
  exact foldlM_revise h ⟨t.ends, []⟩

theorem indexed_keepStarts (ht : t.Sized n) (hs : s.size = n) :
    t.indexed.keepStarts s = .ok (t.keepStarts s).indexed :=
  indexed_revise fun r hr => if_pos ((ht.2 r hr).trans hs.symm)

theorem indexed_dropStarts (ht : t.Sized n) (hs : s.size = n) :
    t.indexed.dropStarts s = .ok (t.dropStarts s).indexed :=
  indexed_revise fun r hr => if_pos ((ht.2 r hr).trans hs.symm)

theorem indexed_keepEnds (ht : t.Sized n) (hs : s.size = n) :
    t.indexed.keepEnds s = .ok (t.keepEnds s).indexed := by
  have hsize : t.ends.size = s.size := ht.1.trans hs.symm
  have hends : t.ends.inter s = (t.keepEnds s).ends := by
    refine OffsetSet.ext_mem rfl fun j => ?_
    simp only [OffsetSet.mem_inter, mem_ends, mem_keepEnds, exists_and_right]
  have hrows : t.rows.filter (fun r => (t.ends.inter s).contains r.1) = (t.keepEnds s).rows := by
    rw [keepEnds, rows_below fun r hr => t.end_lt r (OffsetTable.mem_rows_select.1 hr).1]
    refine List.filter_congr fun r hr => ?_
    have hmem : t.ends.contains r.1 = true := mem_ends_iff_rows.2 ⟨r.2, hr⟩
    rw [OffsetSet.contains_inter, hmem, Bool.true_and]
  have hinter : t.ends.inter? s = .ok (t.ends.inter s) := if_pos hsize
  rw [IndexedSpans.keepEnds, indexed, hinter, indexed, ← hends, ← hrows]
  rfl

theorem indexed_starts (ht : t.Sized n) : t.indexed.starts = .ok t.starts := by
  have hfold : ∀ (rows : List (Nat × OffsetSet)) (all : OffsetSet), Rows.Sized n rows →
      all.size = n → rows.foldlM (fun all r => all.union? r.2) all =
        .ok (rows.foldl (fun all r => all.union r.2) all) := by
    intro rows
    induction rows with
    | nil => exact fun _ _ _ => rfl
    | cons r rows ih =>
      intro all hrows hall
      obtain ⟨hr, hrest⟩ := List.forall_mem_cons.1 hrows
      have hunion : all.union? r.2 = .ok (all.union r.2) := if_pos (hall.trans hr.symm)
      rw [List.foldlM_cons, hunion]
      exact ih _ hrest hall
  exact hfold t.rows _ ht.2 ht.1

end SpanSet

end PatternSweep
