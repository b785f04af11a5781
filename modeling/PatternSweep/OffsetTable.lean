import PatternSweep.OffsetSet.Basic

/-!
# Offset sets filed under keys

An `OffsetTable κ` files offset sets under keys of `κ` as a list of rows in strictly ascending key
order; no row holds an empty set. Hence a table is determined by its rows, and two tables are
equal exactly when they have the same rows. `union` merges two tables row by row, `revise` changes
every set and drops the rows that become empty, `select` keeps the rows of some keys.
-/

namespace PatternSweep

/-- A strict total order on keys. -/
class Key (κ : Type) where
  /-- Whether the first key comes before the second. -/
  before : κ → κ → Bool
  irrefl : ∀ a, before a a = false
  trans : ∀ {a b c}, before a b = true → before b c = true → before a c = true
  total : ∀ {a b}, before a b = false → before b a = false → a = b

instance : Key Nat where
  before a b := a < b
  irrefl a := by simp
  trans h₁ h₂ := by
    simp only [decide_eq_true_eq] at *
    exact Nat.lt_trans h₁ h₂
  total h₁ h₂ := by
    simp only [decide_eq_false_iff_not] at *
    omega

namespace Rows

variable {κ : Type} [Key κ]

/-- Rows in strictly ascending key order. -/
def Ascending (rows : List (κ × OffsetSet)) : Prop :=
  rows.Pairwise fun a b => Key.before a.1 b.1 = true

/-- Places row `r` among ascending rows; `next` does the same for the rows that follow `r`. -/
def absorb (r : κ × OffsetSet) (next : List (κ × OffsetSet) → List (κ × OffsetSet)) :
    List (κ × OffsetSet) → List (κ × OffsetSet)
  | [] => r :: next []
  | s :: rest =>
    if Key.before r.1 s.1 then r :: next (s :: rest)
    else if Key.before s.1 r.1 then s :: absorb r next rest
    else (r.1, r.2.union s.2) :: next rest

/-- All rows of both lists in one ascending list; rows under one key become their union. -/
def merge : List (κ × OffsetSet) → List (κ × OffsetSet) → List (κ × OffsetSet)
  | [], rows => rows
  | r :: rs, rows => absorb r (merge rs) rows

/-- `f k s` in place of every set, without the rows that are empty then. -/
def revise (f : κ → OffsetSet → OffsetSet) (rows : List (κ × OffsetSet)) : List (κ × OffsetSet) :=
  rows.filterMap fun r => if (f r.1 r.2).isEmpty then none else some (r.1, f r.1 r.2)

/-- Every property that all rows have and that unions keep holds of all merged rows. -/
theorem forall_mem_merge {P : κ × OffsetSet → Prop} (hP : ∀ k s t, P (k, s) → P (k, s.union t))
    {xs ys : List (κ × OffsetSet)} (hx : ∀ x ∈ xs, P x) (hy : ∀ y ∈ ys, P y) :
    ∀ z ∈ merge xs ys, P z := by
  induction xs generalizing ys with
  | nil => exact hy
  | cons r rs ih =>
    have hr : P r := hx r (by simp)
    have hrs : ∀ x ∈ rs, P x := fun x h => hx x (by simp [h])
    induction ys with
    | nil =>
      intro z hz
      rw [merge, absorb] at hz
      rcases List.mem_cons.1 hz with rfl | hz
      · exact hr
      · exact ih hrs (by simp) z hz
    | cons s rest ihs =>
      have hrest : ∀ y ∈ rest, P y := fun y h => hy y (by simp [h])
      intro z hz
      rw [merge, absorb] at hz
      split at hz
      · rcases List.mem_cons.1 hz with rfl | hz
        · exact hr
        · exact ih hrs hy z hz
      · split at hz
        · rcases List.mem_cons.1 hz with rfl | hz
          · exact hy z (by simp)
          · exact ihs hrest z hz
        · rcases List.mem_cons.1 hz with rfl | hz
          · exact hP _ _ _ hr
          · exact ih hrs hrest z hz

/-- Merging ascending rows gives ascending rows. -/
theorem ascending_merge {xs ys : List (κ × OffsetSet)} (hx : Ascending xs) (hy : Ascending ys) :
    Ascending (merge xs ys) := by
  induction xs generalizing ys with
  | nil => exact hy
  | cons r rs ih =>
    obtain ⟨hr, hrs⟩ := List.pairwise_cons.1 hx
    induction ys with
    | nil =>
      refine List.pairwise_cons.2 ⟨?_, ih hrs List.Pairwise.nil⟩
      exact forall_mem_merge (P := fun z => Key.before r.1 z.1 = true) (fun _ _ _ h => h) hr
        (by simp)
    | cons s rest ihs =>
      obtain ⟨hs, hrest⟩ := List.pairwise_cons.1 hy
      rw [merge, absorb]
      split
      next hlt =>
        refine List.pairwise_cons.2 ⟨?_, ih hrs hy⟩
        refine forall_mem_merge (P := fun z => Key.before r.1 z.1 = true) (fun _ _ _ h => h) hr ?_
        intro y hm
        rcases List.mem_cons.1 hm with rfl | hm
        · exact hlt
        · exact Key.trans hlt (hs y hm)
      next hlt =>
        split
        next hgt =>
          refine List.pairwise_cons.2 ⟨?_, ihs hrest⟩
          have hrs' : ∀ x ∈ r :: rs, Key.before s.1 x.1 = true := by
            intro x hm
            rcases List.mem_cons.1 hm with rfl | hm
            · exact hgt
            · exact Key.trans hgt (hr x hm)
          exact forall_mem_merge (P := fun z => Key.before s.1 z.1 = true) (fun _ _ _ h => h)
            hrs' hs
        next hgt =>
          have heq : r.1 = s.1 := Key.total (by simpa using hlt) (by simpa using hgt)
          refine List.pairwise_cons.2 ⟨?_, ih hrs hrest⟩
          refine forall_mem_merge (P := fun z => Key.before r.1 z.1 = true) (fun _ _ _ h => h) hr ?_
          intro y hm
          exact heq ▸ hs y hm

omit [Key κ] in
theorem mem_revise {f : κ → OffsetSet → OffsetSet} {rows : List (κ × OffsetSet)}
    {x : κ × OffsetSet} :
    x ∈ revise f rows ↔ ∃ r ∈ rows, (f r.1 r.2).isEmpty = false ∧ x = (r.1, f r.1 r.2) := by
  simp only [revise, List.mem_filterMap, Option.ite_none_left_eq_some, Bool.not_eq_true,
    Option.some.injEq, eq_comm (a := x)]

theorem ascending_revise {f : κ → OffsetSet → OffsetSet} {rows : List (κ × OffsetSet)}
    (h : Ascending rows) : Ascending (revise f rows) := by
  refine List.Pairwise.filterMap _ ?_ h
  intro a b hab x hx y hy
  simp only [Option.ite_none_left_eq_some, Option.some.injEq] at hx hy
  rw [← hx.2, ← hy.2]
  exact hab

end Rows

/-- Offset sets filed under keys, each key once and with at least one offset. -/
structure OffsetTable (κ : Type) [Key κ] where
  /-- The keys with their sets, in ascending key order. -/
  rows : List (κ × OffsetSet)
  ascending : Rows.Ascending rows
  inhabited : ∀ r ∈ rows, r.2.isEmpty = false
  deriving DecidableEq

namespace OffsetTable

variable {κ : Type} [Key κ]

/-- The table without rows. -/
def empty : OffsetTable κ := ⟨[], List.Pairwise.nil, by simp⟩

/-- The table of one row, or of none if the set is empty. -/
def single (k : κ) (s : OffsetSet) : OffsetTable κ :=
  if h : s.isEmpty = false then ⟨[(k, s)], List.pairwise_singleton _ _, by simpa using h⟩
  else empty

/-- The set filed under `k`. -/
def row? [DecidableEq κ] (t : OffsetTable κ) (k : κ) : Option OffsetSet := t.rows.lookup k

/-- All rows of both tables; rows under one key become their union. -/
def union (t u : OffsetTable κ) : OffsetTable κ where
  rows := Rows.merge t.rows u.rows
  ascending := Rows.ascending_merge t.ascending u.ascending
  inhabited := Rows.forall_mem_merge (fun _ _ _ h => OffsetSet.isEmpty_union_eq_false h)
    t.inhabited u.inhabited

/-- The offsets of `s` added under `k`. -/
def add (t : OffsetTable κ) (k : κ) (s : OffsetSet) : OffsetTable κ := t.union (single k s)

/-- `f k s` in place of every set, without the rows that are empty then. -/
def revise (f : κ → OffsetSet → OffsetSet) (t : OffsetTable κ) : OffsetTable κ where
  rows := Rows.revise f t.rows
  ascending := Rows.ascending_revise t.ascending
  inhabited x hx := by
    obtain ⟨r, _, hr, rfl⟩ := Rows.mem_revise.1 hx
    exact hr

/-- The rows whose key satisfies `q`. -/
def select (q : κ → Bool) (t : OffsetTable κ) : OffsetTable κ where
  rows := t.rows.filter fun r => q r.1
  ascending := t.ascending.filter _
  inhabited r hr := t.inhabited r (List.mem_filter.1 hr).1

/-- Every key `k` replaced by `f k`, where `f` keeps the order of the keys there are. -/
def rekey {ι : Type} [Key ι] (f : κ → ι) (t : OffsetTable κ)
    (mono : ∀ a ∈ t.rows, ∀ b ∈ t.rows,
      Key.before a.1 b.1 = true → Key.before (f a.1) (f b.1) = true) : OffsetTable ι where
  rows := t.rows.map fun r => (f r.1, r.2)
  ascending := by
    refine List.pairwise_map.2 (t.ascending.imp_of_mem ?_)
    exact fun ha hb hab => mono _ ha _ hb hab
  inhabited x hx := by
    obtain ⟨r, hr, rfl⟩ := List.mem_map.1 hx
    exact t.inhabited r hr

theorem mem_rows_revise {f : κ → OffsetSet → OffsetSet} {t : OffsetTable κ} {x : κ × OffsetSet} :
    x ∈ (t.revise f).rows ↔ ∃ r ∈ t.rows, (f r.1 r.2).isEmpty = false ∧ x = (r.1, f r.1 r.2) :=
  Rows.mem_revise

theorem mem_rows_select {q : κ → Bool} {t : OffsetTable κ} {x : κ × OffsetSet} :
    x ∈ (t.select q).rows ↔ x ∈ t.rows ∧ q x.1 = true :=
  List.mem_filter

/-- Whether there is no row. -/
def isEmpty (t : OffsetTable κ) : Bool := t.rows.isEmpty

/-- The number of offsets in all rows. -/
def card (t : OffsetTable κ) : Nat := t.rows.foldl (fun n r => n + r.2.card) 0

end OffsetTable
end PatternSweep
