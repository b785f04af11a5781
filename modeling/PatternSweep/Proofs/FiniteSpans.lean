import Mathlib.Data.Finset.Image
import PatternSweep.Proofs.PackedWords
import PatternSweep.Proofs.SpanMembers

/-!
# Span sets as finite sets of pairs

The members of a span set form a `Finset` of pairs, and what can be read off a span set is what can
be read off them: the starts of an end, the ends, the list and the number of all pairs. Whether a
change adds a member is told from the row of one end (`gainsAt_iff`, `adds_iff`, `gains_iff`).
Between sets of one size no operation is refused.
-/

namespace PatternSweep

namespace SpanSet

variable {t u : SpanSet} {s : OffsetSet} {i j k n : Nat}

/-! ### What can be read off -/

/-- The members as a finite set. -/
def members (t : SpanSet) : Finset (ℕ × ℕ) := t.toList.toFinset

@[simp] theorem mem_members {r : ℕ × ℕ} : r ∈ t.members ↔ r ∈ t := by
  rw [members, List.mem_toFinset, mem_toList]

theorem nodup_toList (t : SpanSet) : t.toList.Nodup :=
  t.pairwise_toList.imp fun h heq => by
    subst heq
    simp at h

theorem card_eq_length_toList (t : SpanSet) : t.card = t.toList.length :=
  t.table.card_eq_length fun stop start => (start, stop)

theorem card_eq_card_members (t : SpanSet) : t.card = t.members.card := by
  rw [card_eq_length_toList, members, List.toFinset_card_of_nodup t.nodup_toList]

theorem isEmpty_iff_members : t.isEmpty = true ↔ t.members = ∅ := by
  rw [isEmpty, OffsetTable.isEmpty_iff, Finset.eq_empty_iff_forall_notMem, Prod.forall, forall_comm]
  simp only [mem_members]
  rfl

/-- Sets of one size are equal exactly when their members are. -/
theorem eq_iff_members (ht : t.Sized n) (hu : u.Sized n) : t = u ↔ t.members = u.members := by
  refine ⟨fun h => h ▸ rfl, fun h => ext_mem ht hu fun r => ?_⟩
  rw [← mem_members, h, mem_members]

theorem startsOf_eq_some_iff : t.startsOf j = some s ↔ (j, s) ∈ t.rows :=
  OffsetTable.row?_eq_some_iff

theorem mem_iff_startsOf : (i, j) ∈ t ↔ ∃ s, t.startsOf j = some s ∧ i ∈ s := by
  simp only [startsOf_eq_some_iff, mem_iff]

/-- An end is where starts are recorded. -/
theorem mem_ends_iff_startsOf : j ∈ t.ends ↔ ∃ s, t.startsOf j = some s := by
  simp only [startsOf_eq_some_iff, mem_ends]
  constructor
  · rintro ⟨i, s, hs, -⟩
    exact ⟨s, hs⟩
  · rintro ⟨s, hs⟩
    exact OffsetTable.exists_holds_of_mem_rows hs

theorem isEmpty_of_startsOf (h : t.startsOf j = some s) : s.isEmpty = false :=
  t.table.inhabited _ (startsOf_eq_some_iff.1 h)

theorem Sized.start_lt (ht : t.Sized n) (h : (i, j) ∈ t) : i < n := by
  obtain ⟨s, hs, hi⟩ := mem_iff.1 h
  exact ht.2 _ hs ▸ OffsetSet.lt_size_of_mem hi

theorem Sized.size_startsOf (ht : t.Sized n) (h : t.startsOf j = some s) : s.size = n :=
  ht.2 _ (startsOf_eq_some_iff.1 h)

/-! ### Starts that are recorded for an end -/

theorem mem_insertStarts (ht : t.Sized n) (hs : s.size = n) :
    (i, j) ∈ t.insertStarts s k ↔ (i, j) ∈ t ∨ (j = k ∧ i ∈ s) ∧ j < n := by
  rw [insertStarts, ht.1, mem_below, OffsetTable.holds_add ht.2 hs, or_and_right]
  exact or_congr_left (and_iff_left_of_imp ht.end_lt)

theorem sized_insertStarts (ht : t.Sized n) (hs : s.size = n) : (t.insertStarts s k).Sized n :=
  sized_below ht.1 (OffsetTable.sized_union ht.2 (OffsetTable.sized_single hs))

theorem mem_insert (ht : t.Sized n) {a b : Nat} :
    (i, j) ∈ t.insert a b ↔ (i, j) ∈ t ∨ ((i, j) = (a, b) ∧ i < n) ∧ j < n := by
  rw [insert, mem_insertStarts ht ht.1, OffsetSet.mem_ofList, ht.1, List.mem_singleton,
    Prod.mk.injEq, ← and_assoc (a := j = b), and_comm (a := j = b)]

theorem sized_insert (ht : t.Sized n) {a b : Nat} : (t.insert a b).Sized n :=
  sized_insertStarts ht ht.1

theorem sized_revise {f : OffsetSet → OffsetSet} (ht : t.Sized n)
    (hf : ∀ s, (f s).size = s.size) : (t.revise f).Sized n := by
  refine sized_below ht.1 fun x hx => ?_
  obtain ⟨r, hr, -, rfl⟩ := OffsetTable.mem_rows_revise.1 hx
  exact (hf r.2).trans (ht.2 r hr)

/-- Recording starts adds a member if one of them is not yet recorded. -/
theorem gainsAt_iff (ht : t.Sized n) (hs : s.size = n) :
    t.gainsAt s k = true ↔ k < n ∧ ∃ i, i ∈ s ∧ (i, k) ∉ t := by
  rw [gainsAt, ht.1, Bool.and_eq_true, Bool.and_eq_true, decide_eq_true_eq, Bool.not_eq_true',
    and_assoc]
  refine and_congr_right fun _ => ?_
  cases hrow : t.startsOf k with
  | none =>
    have hnone : ∀ i, (i, k) ∉ t := by simp [mem_iff_startsOf, hrow]
    simp [OffsetSet.isEmpty_eq_false_iff, hnone]
  | some row =>
    have hmem : ∀ i, (i, k) ∈ t ↔ i ∈ row := by simp [mem_iff_startsOf, hrow]
    have hsize : row.size = s.size := (ht.size_startsOf hrow).trans hs.symm
    rw [Option.all_some, OffsetSet.gains_iff hsize, OffsetSet.isEmpty_eq_false_iff]
    simp only [hmem]
    exact and_iff_right_of_imp fun ⟨i, hi, _⟩ => ⟨i, hi⟩

theorem adds_iff (ht : t.Sized n) : t.adds i j = true ↔ (i < n ∧ j < n) ∧ (i, j) ∉ t := by
  rw [adds, ht.1, Bool.and_eq_true, Bool.and_eq_true, decide_eq_true_eq, decide_eq_true_eq]
  refine and_congr_right fun hlt => ?_
  cases hrow : t.startsOf j with
  | none => simp [mem_iff_startsOf, hrow]
  | some row =>
    rw [Option.all_some, OffsetSet.adds_iff, ht.size_startsOf hrow]
    simp [mem_iff_startsOf, hrow, hlt.1]

/-- A union adds a member if one row of the other set does. -/
theorem gains_iff (ht : t.Sized n) (hu : u.Sized n) : t.gains u = true ↔ ∃ r, r ∈ u ∧ r ∉ t := by
  rw [gains, List.any_eq_true]
  constructor
  · rintro ⟨r, hr, hgain⟩
    obtain ⟨-, i, hi, hnew⟩ := (gainsAt_iff ht (hu.2 r hr)).1 hgain
    exact ⟨(i, r.1), ⟨r.2, hr, hi⟩, hnew⟩
  · rintro ⟨⟨i, j⟩, ⟨s, hs, hi⟩, hnew⟩
    have hj : j < n := hu.1 ▸ u.end_lt _ hs
    exact ⟨(j, s), hs, (gainsAt_iff ht (hu.2 _ hs)).2 ⟨hj, i, hi, hnew⟩⟩

/-! ### Sets of one size are never refused -/

theorem requireSize_self (n : Nat) : requireSize n n = .ok () := if_pos rfl

theorem requireRow_of_sized (ht : t.Sized n) (hs : s.size = n) : t.requireRow s k = .ok () := by
  unfold requireRow
  split
  next row hrow =>
    rw [ht.size_startsOf hrow, hs, requireSize_self, ite_self]
  next => rfl

theorem forM_eq_ok_iff {α ε : Type} {f : α → Except ε Unit} {l : List α} :
    l.forM f = .ok () ↔ ∀ a ∈ l, f a = .ok () := by
  induction l with
  | nil => exact iff_of_true rfl (by simp)
  | cons a l ih =>
    rw [List.forall_mem_cons, ← ih]
    show (f a >>= fun _ => l.forM f) = .ok () ↔ _
    cases f a with
    | error e => exact iff_of_false (fun h => nomatch h) fun h => nomatch h.1
    | ok _ => exact (and_iff_right rfl).symm

theorem insertStarts?_eq (ht : t.Sized n) (hs : s.size = n) :
    t.insertStarts? s k = .ok (t.insertStarts s k) := by
  rw [insertStarts?, requireRow_of_sized ht hs]
  rfl

theorem union?_eq (ht : t.Sized n) (hu : u.Sized n) : t.union? u = .ok (t.union u) := by
  have hrows : ∀ r ∈ u.rows, t.requireRow r.2 r.1 = .ok () := fun r hr =>
    requireRow_of_sized ht (hu.2 r hr)
  rw [union?, forM_eq_ok_iff.2 hrows]
  rfl

theorem starts?_eq (ht : t.Sized n) : t.starts? = .ok t.starts := by
  rw [starts?, forM_eq_ok_iff.2 fun r hr => by rw [ht.1, ht.2 r hr, requireSize_self]]
  rfl

theorem keepStarts?_eq (ht : t.Sized n) (hs : s.size = n) :
    t.keepStarts? s = .ok (t.keepStarts s) := by
  rw [keepStarts?, forM_eq_ok_iff.2 fun r hr => by rw [ht.2 r hr, hs, requireSize_self]]
  rfl

theorem dropStarts?_eq (ht : t.Sized n) (hs : s.size = n) :
    t.dropStarts? s = .ok (t.dropStarts s) := by
  rw [dropStarts?, forM_eq_ok_iff.2 fun r hr => by rw [ht.2 r hr, hs, requireSize_self]]
  rfl

theorem keepEnds?_eq (ht : t.Sized n) (hs : s.size = n) : t.keepEnds? s = .ok (t.keepEnds s) := by
  rw [keepEnds?, ht.1, hs, requireSize_self]
  rfl

theorem whereStarts?_eq (ht : t.Sized n) (hu : u.Sized n) :
    t.whereStarts? u = .ok (t.whereStarts u) := by
  rw [whereStarts?, starts?_eq hu]
  exact keepStarts?_eq ht (size_starts.trans hu.1)

theorem whereNotStarts?_eq (ht : t.Sized n) (hu : u.Sized n) :
    t.whereNotStarts? u = .ok (t.whereNotStarts u) := by
  rw [whereNotStarts?, starts?_eq hu]
  exact dropStarts?_eq ht (size_starts.trans hu.1)

end SpanSet

end PatternSweep
