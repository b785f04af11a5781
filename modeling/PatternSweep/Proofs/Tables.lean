import Mathlib.Logic.Basic
import PatternSweep.OffsetTable
import PatternSweep.Proofs.OffsetMembers

/-!
# What a table holds

A table is seen by the pairs of a key and an offset that it `Holds`. There is one equation for each
operation, and `OffsetTable.ext_holds` says that a table whose sets have one size is no more than
these pairs.
-/

namespace PatternSweep

/-- In a list that has each key once, looking up a key finds the value that it stands with. -/
theorem lookup_eq_some_iff_mem {κ β : Type} [DecidableEq κ] {l : List (κ × β)} {k : κ} {v : β}
    (h : l.Pairwise fun a b => a.1 ≠ b.1) : l.lookup k = some v ↔ (k, v) ∈ l := by
  induction l with
  | nil => simp
  | cons r l ih =>
    obtain ⟨hr, hl⟩ := List.pairwise_cons.1 h
    rw [List.lookup_cons, List.mem_cons]
    by_cases hk : k = r.1
    · have hlater : (k, v) ∉ l := fun hm => hr _ hm hk.symm
      simp [hk ▸ hlater, hk, Prod.ext_iff, eq_comm]
    · have hbeq : (k == r.1) = false := by simpa using hk
      simp [hbeq, hk, ih hl, Prod.ext_iff]

/-- Dropping repeated entries leaves each entry once. -/
theorem nodup_eraseDups {α : Type} [DecidableEq α] (l : List α) : l.eraseDups.Nodup := by
  match l with
  | [] => exact List.nodup_nil
  | a :: l =>
    rw [List.eraseDups_cons, List.nodup_cons]
    refine ⟨fun ha => ?_, nodup_eraseDups _⟩
    simpa using (List.mem_filter.1 (List.mem_eraseDups.1 ha)).2
termination_by l.length
decreasing_by exact Nat.lt_succ_of_le (List.length_filter_le _ _)

variable {κ : Type} [Key κ]

namespace Key

variable {a b : κ}

theorem not_before (h : before a b = true) : before b a = false := by
  rw [← Bool.not_eq_true]
  intro h'
  have := irrefl a
  rw [trans h h'] at this
  cases this

theorem ne_of_before (h : before a b = true) : a ≠ b := by
  rintro rfl
  rw [irrefl] at h
  cases h

end Key

namespace Rows

variable {rows xs ys : List (κ × OffsetSet)} {k l : κ} {p n : Nat} {s t : OffsetSet}

/-- Offset `p` is filed under `k`. -/
def Holds (rows : List (κ × OffsetSet)) (k : κ) (p : Nat) : Prop := ∃ s, (k, s) ∈ rows ∧ p ∈ s

/-- All sets have the size `n`. -/
def Sized (n : Nat) (rows : List (κ × OffsetSet)) : Prop := ∀ r ∈ rows, r.2.size = n

omit [Key κ] in
@[simp] theorem holds_nil : Holds ([] : List (κ × OffsetSet)) k p ↔ False := by simp [Holds]

omit [Key κ] in
theorem holds_cons {r : κ × OffsetSet} :
    Holds (r :: rows) k p ↔ (k = r.1 ∧ p ∈ r.2) ∨ Holds rows k p := by
  simp only [Holds, List.mem_cons, or_and_right, exists_or, Prod.ext_iff]
  refine or_congr ⟨?_, ?_⟩ Iff.rfl
  · intro hx
    obtain ⟨s, ⟨rfl, rfl⟩, hp⟩ := hx
    exact ⟨rfl, hp⟩
  · rintro ⟨rfl, hp⟩
    exact ⟨r.2, ⟨rfl, rfl⟩, hp⟩

/-- A key stands in one row only. -/
theorem Ascending.unique (h : Ascending rows) (hs : (k, s) ∈ rows) (ht : (k, t) ∈ rows) :
    s = t := by
  induction rows with
  | nil => simp at hs
  | cons r rows ih =>
    obtain ⟨hr, hrest⟩ := List.pairwise_cons.1 h
    rcases List.mem_cons.1 hs with rfl | hs' <;> rcases List.mem_cons.1 ht with ht' | ht'
    · exact (Prod.ext_iff.1 ht').2.symm
    · have := hr _ ht'
      simp [Key.irrefl] at this
    · subst ht'
      have := hr _ hs'
      simp [Key.irrefl] at this
    · exact ih hrest hs' ht'

theorem sized_merge (hx : Sized n xs) (hy : Sized n ys) : Sized n (merge xs ys) :=
  forall_mem_merge (P := fun r => r.2.size = n) (fun _ _ _ h => h) hx hy

/-- Merging loses nothing and adds nothing. -/
theorem holds_merge (hx : Sized n xs) (hy : Sized n ys) :
    Holds (merge xs ys) k p ↔ Holds xs k p ∨ Holds ys k p := by
  induction xs generalizing ys with
  | nil => simp [merge]
  | cons r rs ih =>
    have hrs : Sized n rs := fun x h => hx x (List.mem_cons_of_mem _ h)
    rw [holds_cons]
    -- the inner induction follows `absorb`, which places `r` among the rows of `ys`
    induction ys with
    | nil => rw [merge, absorb, holds_cons, ih hrs hy, or_assoc]
    | cons s rest ihs =>
      have hrest : Sized n rest := fun y h => hy y (List.mem_cons_of_mem _ h)
      rw [merge, absorb]
      split
      next => rw [holds_cons, ih hrs hy, or_assoc]
      next hlt =>
        split
        next =>
          have hsub : Holds (absorb r (merge rs) rest) k p ↔ _ := ihs hrest
          rw [holds_cons, hsub, holds_cons, or_left_comm]
        next hgt =>
          have hkey : r.1 = s.1 := Key.total (by simpa using hlt) (by simpa using hgt)
          have hsize : r.2.size = s.2.size := (hx r (by simp)).trans (hy s (by simp)).symm
          rw [holds_cons, ih hrs hrest, holds_cons, ← hkey, OffsetSet.mem_union hsize, and_or_left]
          exact or_or_or_comm

/-! ### One row more -/

/-- The set `s` filed under `k`, in place of what was filed there before. -/
def file (k : κ) (s : OffsetSet) : List (κ × OffsetSet) → List (κ × OffsetSet)
  | [] => [(k, s)]
  | r :: rows =>
    if Key.before k r.1 then (k, s) :: r :: rows
    else if Key.before r.1 k then r :: file k s rows
    else (k, s) :: rows

theorem merge_nil (rows : List (κ × OffsetSet)) : merge rows [] = rows := by
  induction rows with
  | nil => rfl
  | cons r rows ih => rw [merge, absorb, ih]

/-- Where everything comes after `k`, nothing is filed under it. -/
theorem lookup_eq_none [DecidableEq κ] (h : ∀ r ∈ rows, Key.before k r.1 = true) :
    rows.lookup k = none := by
  rw [List.lookup_eq_none_iff]
  intro r hr
  simpa using Key.ne_of_before (h r hr)

/-- A single row is merged by filing what it makes of the row that is there. -/
theorem merge_single [DecidableEq κ] (h : Ascending rows) :
    merge rows [(k, s)] = file k ((rows.lookup k).elim s (·.union s)) rows := by
  induction rows with
  | nil => rfl
  | cons r rows ih =>
    obtain ⟨hr, hrows⟩ := List.pairwise_cons.1 h
    rw [merge, absorb, file, List.lookup_cons]
    -- before the first row, further on, or into it
    by_cases hlt : Key.before k r.1 = true
    · have hne : (k == r.1) = false := by simpa using Key.ne_of_before hlt
      have hnone : rows.lookup k = none :=
        lookup_eq_none fun x hx => Key.trans hlt (hr x hx)
      simp [hlt, Key.not_before hlt, hne, absorb, merge_nil, hnone]
    · by_cases hgt : Key.before r.1 k = true
      · have hne : (k == r.1) = false := by simpa using (Key.ne_of_before hgt).symm
        simp [hlt, hgt, hne, ih hrows]
      · obtain rfl : k = r.1 := Key.total (by simpa using hlt) (by simpa using hgt)
        simp [Key.irrefl, merge_nil]

omit [Key κ] in
/-- A change that leaves all sets as they are changes nothing. -/
theorem revise_eq_self {f : κ → OffsetSet → OffsetSet}
    (h : ∀ r ∈ rows, r.2.isEmpty = false ∧ f r.1 r.2 = r.2) : revise f rows = rows := by
  induction rows with
  | nil => rfl
  | cons r rows ih =>
    obtain ⟨⟨hne, hsame⟩, hrows⟩ := List.forall_mem_cons.1 h
    have hrest : rows.filterMap (fun r => if (f r.1 r.2).isEmpty then none else
        some (r.1, f r.1 r.2)) = rows := ih hrows
    simp [revise, hsame, hne, hrest]

end Rows

namespace OffsetTable

variable {t u : OffsetTable κ} {k l : κ} {p n : Nat} {s : OffsetSet}

/-- Offset `p` is filed under `k`. -/
def Holds (t : OffsetTable κ) (k : κ) (p : Nat) : Prop := Rows.Holds t.rows k p

/-- All sets have the size `n`. -/
def Sized (n : Nat) (t : OffsetTable κ) : Prop := Rows.Sized n t.rows

theorem holds_iff : t.Holds k p ↔ ∃ s, (k, s) ∈ t.rows ∧ p ∈ s := Iff.rfl

@[simp] theorem holds_empty : (empty : OffsetTable κ).Holds k p ↔ False := Rows.holds_nil

theorem holds_of_mem_rows (h : (k, s) ∈ t.rows) : t.Holds k p ↔ p ∈ s := by
  constructor
  · rintro ⟨s', h', hp⟩
    exact t.ascending.unique h' h ▸ hp
  · exact fun hp => ⟨s, h, hp⟩

theorem exists_holds_of_mem_rows (h : (k, s) ∈ t.rows) : ∃ p, t.Holds k p := by
  obtain ⟨p, hp⟩ := OffsetSet.isEmpty_eq_false_iff.1 (t.inhabited _ h)
  exact ⟨p, s, h, hp⟩

theorem mem_rows_of_holds (hn : t.Sized n) (hm : u.Sized n)
    (h : ∀ k p, t.Holds k p ↔ u.Holds k p) (hk : (k, s) ∈ t.rows) : (k, s) ∈ u.rows := by
  obtain ⟨p, hp⟩ := exists_holds_of_mem_rows hk
  obtain ⟨s', hs', -⟩ := (h k p).1 hp
  have : s = s' := by
    refine OffsetSet.ext_contains ((hn _ hk).trans (hm _ hs').symm) fun q => ?_
    have := (holds_of_mem_rows hk).symm.trans ((h k q).trans (holds_of_mem_rows hs'))
    exact Bool.eq_iff_iff.2 this
  exact this ▸ hs'

/-- Tables with sets of one size are equal if they hold the same. -/
theorem ext_holds (hn : t.Sized n) (hm : u.Sized n) (h : ∀ k p, t.Holds k p ↔ u.Holds k p) :
    t = u := by
  have asymm : ∀ a b : κ × OffsetSet, Key.before a.1 b.1 = true → Key.before b.1 a.1 = true →
      a = b := fun a b hab hba => by
    have := Key.trans hab hba
    simp [Key.irrefl] at this
  have nodup : ∀ v : OffsetTable κ, v.rows.Nodup := fun v =>
    v.ascending.imp fun hab => by
      rintro rfl
      simp [Key.irrefl] at hab
  have hperm : t.rows.Perm u.rows :=
    (List.perm_ext_iff_of_nodup (nodup t) (nodup u)).2 fun r =>
      ⟨mem_rows_of_holds hn hm h, mem_rows_of_holds hm hn fun k p => (h k p).symm⟩
  -- the rows are the same and stand in the same order
  have hrows : t.rows = u.rows :=
    hperm.eq_of_pairwise (fun a b _ _ => asymm a b) t.ascending u.ascending
  cases t
  cases u
  cases hrows
  rfl

theorem row?_eq_some_iff [DecidableEq κ] : t.row? k = some s ↔ (k, s) ∈ t.rows := by
  exact lookup_eq_some_iff_mem (t.ascending.imp Key.ne_of_before)

theorem isEmpty_iff : t.isEmpty = true ↔ ∀ k p, ¬t.Holds k p := by
  unfold isEmpty
  rw [List.isEmpty_iff]
  constructor
  · rintro h k p ⟨s, hs, -⟩
    simp [h] at hs
  · intro h
    refine List.eq_nil_iff_forall_not_mem.2 fun r hr => ?_
    obtain ⟨p, hp⟩ := exists_holds_of_mem_rows (k := r.1) (s := r.2) hr
    exact h _ _ hp

/-- All offsets are counted, however they are written down. -/
theorem card_eq_length {β : Type} (t : OffsetTable κ) (g : κ → Nat → β) :
    t.card = (t.rows.flatMap fun r => r.2.toList.map (g r.1)).length := by
  have hfold : ∀ (rows : List (κ × OffsetSet)) (m : Nat),
      rows.foldl (fun n r => n + r.2.card) m =
        m + (rows.flatMap fun r => r.2.toList.map (g r.1)).length := by
    intro rows
    induction rows with
    | nil => exact fun _ => rfl
    | cons r rows ih =>
      intro m
      rw [List.foldl_cons, ih, OffsetSet.card_eq_length_toList, List.flatMap_cons,
        List.length_append, List.length_map, Nat.add_assoc]
  exact (hfold t.rows 0).trans (Nat.zero_add _)

/-! ### What each operation holds -/

theorem holds_single : (single k s).Holds l p ↔ l = k ∧ p ∈ s := by
  unfold single
  split
  next => simp [Holds, Rows.holds_cons]
  next h =>
    have : p ∉ s := fun hp => h (OffsetSet.isEmpty_eq_false_iff.2 ⟨p, hp⟩)
    simp [this]

theorem sized_single (h : s.size = n) : (single k s).Sized n := by
  unfold single
  split
  · simpa [Sized, Rows.Sized] using h
  · simp [Sized, Rows.Sized, empty]

theorem holds_union (ht : t.Sized n) (hu : u.Sized n) :
    (t.union u).Holds k p ↔ t.Holds k p ∨ u.Holds k p :=
  Rows.holds_merge ht hu

theorem sized_union (ht : t.Sized n) (hu : u.Sized n) : (t.union u).Sized n :=
  Rows.sized_merge ht hu

theorem holds_add (ht : t.Sized n) (hs : s.size = n) :
    (t.add k s).Holds l p ↔ t.Holds l p ∨ (l = k ∧ p ∈ s) := by
  rw [add, holds_union ht (sized_single hs), holds_single]

theorem holds_revise {f : κ → OffsetSet → OffsetSet} :
    (t.revise f).Holds k p ↔ ∃ s, (k, s) ∈ t.rows ∧ p ∈ f k s := by
  simp only [holds_iff, mem_rows_revise, Prod.ext_iff]
  constructor
  · intro hx
    obtain ⟨_, ⟨r, hr, -, rfl, rfl⟩, hp⟩ := hx
    exact ⟨r.2, hr, hp⟩
  · rintro ⟨s, hs, hp⟩
    exact ⟨f k s, ⟨(k, s), hs, OffsetSet.isEmpty_eq_false_iff.2 ⟨p, hp⟩, rfl, rfl⟩, hp⟩

theorem holds_select {q : κ → Bool} : (t.select q).Holds k p ↔ t.Holds k p ∧ q k = true := by
  simp only [holds_iff, mem_rows_select]
  constructor
  · intro hx
    obtain ⟨s, ⟨hs, hq⟩, hp⟩ := hx
    exact ⟨⟨s, hs, hp⟩, hq⟩
  · intro hx
    obtain ⟨⟨s, hs, hp⟩, hq⟩ := hx
    exact ⟨s, ⟨hs, hq⟩, hp⟩

theorem holds_rekey {ι : Type} [Key ι] {f : κ → ι} {mono} {i : ι} :
    (t.rekey f mono).Holds i p ↔ ∃ k, f k = i ∧ t.Holds k p := by
  simp only [holds_iff, rekey, List.mem_map, Prod.ext_iff]
  constructor
  · intro hx
    obtain ⟨_, ⟨r, hr, rfl, rfl⟩, hp⟩ := hx
    exact ⟨r.1, rfl, r.2, hr, hp⟩
  · rintro ⟨k, rfl, s, hs, hp⟩
    exact ⟨s, ⟨(k, s), hs, rfl, rfl⟩, hp⟩

end OffsetTable

end PatternSweep
