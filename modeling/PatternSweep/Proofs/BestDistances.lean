import Mathlib.Data.Finset.Card
import Mathlib.Data.List.Sort
import Mathlib.Order.Lattice.Nat
import Mathlib.Tactic.Tauto
import PatternSweep.Proofs.EndMembers

/-!
# Every end once, under its best distance

An `EndDistances` made from lists of ends keeps every end once, whatever the lists repeat. Filed by
distance it is `Orderly`: the distances ascend, and so do the ends under each, of which there is at
least one. Orderly rows are determined by their pairs of an end and a distance (`Orderly.eq`). So it
makes no difference whether the pairs are sorted and the first of each end is taken, or the rows are
gone through by distance while the ends seen before are left out (`filed_eq_toList`); and reading
back what was filed gives the same again (`ofRaw_toList`).
-/

namespace PatternSweep

/-- Rows in ascending key order are determined by which there are. -/
theorem eq_of_ascending_keys {β : Type} {xs ys : List (Nat × β)}
    (hx : xs.Pairwise fun a b => a.1 < b.1) (hy : ys.Pairwise fun a b => a.1 < b.1)
    (h : ∀ r, r ∈ xs ↔ r ∈ ys) : xs = ys := by
  have hirrefl : Std.Irrefl fun a b : Nat × β => a.1 < b.1 := ⟨fun a => Nat.lt_irrefl a.1⟩
  have hantisymm : Std.Antisymm fun a b : Nat × β => a.1 < b.1 :=
    ⟨fun a b hab hba => (Nat.lt_asymm hab hba).elim⟩
  exact hx.eq_of_mem_iff hy h

namespace EndDistances

variable {m m' : EndDistances} {stop d : Nat} {ends seen : List Nat}
  {raw xs ys : List (Nat × List Nat)}

/-! ### What is read off -/

/-- End distances are determined by the distance of each end. -/
theorem ext_distance? (h : ∀ stop d, m.distance? stop = some d ↔ m'.distance? stop = some d) :
    m = m' := by
  have hbest : m.best = m'.best := eq_of_ascending_keys m.ascending m'.ascending fun r => by
    rw [← distance?_eq_some_iff, h, distance?_eq_some_iff]
  cases m
  cases m'
  cases hbest
  rfl

theorem distance?_ofRaw_eq_none_iff :
    (ofRaw raw).distance? stop = none ↔ ∀ d, (stop, d) ∉ pairs raw := by
  constructor
  · intro hnone d hd
    -- of the distances at which the end is given, one is the least
    have hleast : IsLeast {n | (stop, n) ∈ pairs raw} (sInf {n | (stop, n) ∈ pairs raw}) :=
      ⟨Nat.sInf_mem ⟨d, hd⟩, fun _ => Nat.sInf_le⟩
    rw [distance?_ofRaw.2 hleast] at hnone
    cases hnone
  · refine fun h => Option.eq_none_iff_forall_ne_some.2 fun d hd => ?_
    exact h d (distance?_ofRaw.1 hd).1

theorem pairwise_distances (m : EndDistances) : m.distances.Pairwise (· < ·) := by
  have hsorted : m.distances.Pairwise fun a b => decide (a ≤ b) = true :=
    List.pairwise_mergeSort (by simpa using fun _ _ _ => Nat.le_trans)
      (by simpa using Nat.le_total) _
  have hnodup : m.distances.Nodup := (List.mergeSort_perm _ _).nodup_iff.2 (nodup_eraseDups _)
  exact hsorted.imp₂ (fun a b hle hne => Nat.lt_of_le_of_ne (of_decide_eq_true hle) hne) hnodup

theorem mem_distances_iff : d ∈ m.distances ↔ m.endsAt d ≠ [] := by
  simp only [mem_distances, ← mem_endsAt]
  constructor
  · rintro ⟨stop, hstop⟩
    exact List.ne_nil_of_mem hstop
  · exact List.exists_mem_of_ne_nil _

theorem nodup_ends (m : EndDistances) : (m.best.map (·.1)).Nodup :=
  List.pairwise_map.2 (m.ascending.imp fun hlt => Nat.ne_of_lt hlt)

theorem length_ofRaw : (ofRaw raw).length = (raw.flatMap (·.2)).toFinset.card := by
  have hends : ((ofRaw raw).best.map (·.1)).toFinset = (raw.flatMap (·.2)).toFinset := by
    ext stop
    have hkept : (∃ d, (ofRaw raw).distance? stop = some d) ↔ ∃ d, (stop, d) ∈ pairs raw := by
      rw [← Option.isSome_iff_exists, Option.isSome_iff_ne_none, Ne,
        distance?_ofRaw_eq_none_iff, not_forall_not]
    simpa [distance?_eq_some_iff, mem_pairs] using hkept
  rw [← hends, List.toFinset_card_of_nodup (nodup_ends _), List.length_map, length]

/-! ### Orderly rows -/

/-- Ascending distances, under each of which stand some ends, ascending too. -/
structure Orderly (rows : List (Nat × List Nat)) : Prop where
  ascending : rows.Pairwise fun a b => a.1 < b.1
  inhabited : ∀ r ∈ rows, r.2 ≠ []
  sorted : ∀ r ∈ rows, r.2.Pairwise (· < ·)

namespace Orderly

theorem nil : Orderly [] := ⟨List.Pairwise.nil, by simp, by simp⟩

theorem cons {r : Nat × List Nat} (hrows : Orderly xs) (hfirst : ∀ x ∈ xs, r.1 < x.1)
    (hne : r.2 ≠ []) (hsorted : r.2.Pairwise (· < ·)) : Orderly (r :: xs) where
  ascending := List.pairwise_cons.2 ⟨hfirst, hrows.ascending⟩
  inhabited := List.forall_mem_cons.2 ⟨hne, hrows.inhabited⟩
  sorted := List.forall_mem_cons.2 ⟨hsorted, hrows.sorted⟩

/-- A distance stands in one row only. -/
theorem mem_pairs_iff (hx : Orderly xs) (hrow : (d, ends) ∈ xs) :
    (stop, d) ∈ pairs xs ↔ stop ∈ ends := by
  rw [mem_pairs]
  constructor
  · rintro ⟨ends', hrow', hstop⟩
    have hkeys : xs.Pairwise fun a b => a.1 ≠ b.1 := hx.ascending.imp fun hlt => Nat.ne_of_lt hlt
    have hlookup := (lookup_eq_some_iff_mem hkeys).2 hrow
    rw [(lookup_eq_some_iff_mem hkeys).2 hrow'] at hlookup
    exact Option.some.inj hlookup ▸ hstop
  · exact fun hstop => ⟨ends, hrow, hstop⟩

theorem mem_of_mem (hx : Orderly xs) (hy : Orderly ys) (h : ∀ p, p ∈ pairs xs ↔ p ∈ pairs ys)
    {r : Nat × List Nat} (hr : r ∈ xs) : r ∈ ys := by
  obtain ⟨d, ends⟩ := r
  obtain ⟨stop, hstop⟩ := List.exists_mem_of_ne_nil _ (hx.inhabited _ hr)
  obtain ⟨ends', hr', -⟩ := mem_pairs.1 ((h _).1 ((hx.mem_pairs_iff hr).2 hstop))
  have hends : ends = ends' := by
    refine (hx.sorted _ hr).eq_of_mem_iff (hy.sorted _ hr') fun e => ?_
    rw [← hx.mem_pairs_iff hr, h, hy.mem_pairs_iff hr']
  exact hends ▸ hr'

/-- Orderly rows are determined by their pairs of an end and a distance. -/
theorem eq (hx : Orderly xs) (hy : Orderly ys) (h : ∀ p, p ∈ pairs xs ↔ p ∈ pairs ys) : xs = ys :=
  eq_of_ascending_keys hx.ascending hy.ascending fun _ =>
    ⟨hx.mem_of_mem hy h, hy.mem_of_mem hx fun p => (h p).symm⟩

end Orderly

theorem orderly_toList (m : EndDistances) : Orderly m.toList where
  ascending := List.pairwise_map.2 m.pairwise_distances
  inhabited := by
    intro r hr
    obtain ⟨d, hd, rfl⟩ := List.mem_map.1 hr
    exact mem_distances_iff.1 hd
  sorted := by
    intro r hr
    obtain ⟨d, -, rfl⟩ := List.mem_map.1 hr
    exact m.pairwise_endsAt d

theorem mem_pairs_toList : (stop, d) ∈ pairs m.toList ↔ m.distance? stop = some d := by
  simp only [mem_pairs, toList, List.mem_map, Prod.mk.injEq]
  constructor
  · rintro ⟨_, ⟨_, -, rfl, rfl⟩, hstop⟩
    exact mem_endsAt.1 hstop
  · intro h
    exact ⟨_, ⟨d, mem_distances.2 ⟨stop, h⟩, rfl, rfl⟩, mem_endsAt.2 h⟩

/-- What has been filed by distance can be read back. -/
theorem ofRaw_toList (m : EndDistances) : ofRaw m.toList = m := by
  refine ext_distance? fun stop d => ?_
  simp only [distance?_ofRaw, mem_pairs_toList]
  constructor
  · exact fun h => h.1
  · intro h
    refine ⟨h, fun n hn => ?_⟩
    exact Nat.le_of_eq (Option.some.inj (h.symm.trans hn))

/-! ### What is read off the rows -/

/-- The distance of the first row that has an end. -/
def rowDistance? (rows : List (Nat × List Nat)) (stop : Nat) : Option Nat :=
  (rows.find? fun r => r.2.contains stop).map (·.1)

/-- The ends of the rows up to a distance, in ascending order. -/
def rowsWithin (rows : List (Nat × List Nat)) (d : Nat) : List Nat :=
  ((rows.filter (·.1 ≤ d)).flatMap (·.2)).mergeSort

/-- A row has the ends whose distance it is filed under. -/
theorem distance?_of_mem_toList {r : Nat × List Nat} (hr : r ∈ m.toList) (hstop : stop ∈ r.2) :
    m.distance? stop = some r.1 :=
  mem_pairs_toList.1 (mem_pairs.2 ⟨r.2, hr, hstop⟩)

theorem rowDistance?_toList (m : EndDistances) (stop : Nat) :
    rowDistance? m.toList stop = m.distance? stop := by
  unfold rowDistance?
  -- whichever row is found, the end has only one distance
  cases hfind : m.toList.find? fun r => r.2.contains stop with
  | some r =>
    have hstop : stop ∈ r.2 := by simpa using List.find?_some hfind
    exact (distance?_of_mem_toList (List.mem_of_find?_eq_some hfind) hstop).symm
  | none =>
    refine (Option.eq_none_iff_forall_ne_some.2 fun d hd => ?_).symm
    obtain ⟨ends, hrow, hstop⟩ := mem_pairs.1 (mem_pairs_toList.2 hd)
    simpa [hstop] using List.find?_eq_none.1 hfind _ hrow

theorem lookup_toList (m : EndDistances) (d : Nat) :
    (m.toList.lookup d).getD [] = m.endsAt d := by
  have hkeys : m.toList.Pairwise fun a b => a.1 ≠ b.1 :=
    m.orderly_toList.ascending.imp fun hlt => Nat.ne_of_lt hlt
  by_cases hd : d ∈ m.distances
  · rw [(lookup_eq_some_iff_mem hkeys).2 (List.mem_map.2 ⟨d, hd, rfl⟩), Option.getD_some]
  · have hnone : m.toList.lookup d = none := by
      refine Option.eq_none_iff_forall_ne_some.2 fun ends hends => hd ?_
      obtain ⟨_, hmem, heq⟩ := List.mem_map.1 ((lookup_eq_some_iff_mem hkeys).1 hends)
      exact (Prod.mk.inj heq).1 ▸ hmem
    rw [hnone, Option.getD_none]
    exact (not_not.1 (mt mem_distances_iff.2 hd)).symm

/-- No end stands in two rows. -/
theorem nodup_flatMap_toList (m : EndDistances) : (m.toList.flatMap (·.2)).Nodup := by
  refine List.nodup_flatMap.2 ⟨fun r hr => ?_, ?_⟩
  · exact (m.orderly_toList.sorted r hr).imp fun hlt => Nat.ne_of_lt hlt
  · refine m.orderly_toList.ascending.imp_of_mem fun {a b} ha hb hlt stop hsa hsb => ?_
    have hsame := (distance?_of_mem_toList ha hsa).symm.trans (distance?_of_mem_toList hb hsb)
    exact Nat.ne_of_lt hlt (Option.some.inj hsame)

theorem rowsWithin_toList (m : EndDistances) (d : Nat) : rowsWithin m.toList d = m.within d := by
  have hrows : (m.toList.filter (·.1 ≤ d)).Sublist m.toList := List.filter_sublist
  have hnodup : (rowsWithin m.toList d).Nodup :=
    (List.mergeSort_perm _ _).nodup_iff.2 (m.nodup_flatMap_toList.sublist (hrows.flatMap _))
  have hsorted : (rowsWithin m.toList d).Pairwise (· < ·) :=
    (List.pairwise_mergeSort' (· ≤ ·) _).imp₂ (fun a b hle hne => Nat.lt_of_le_of_ne hle hne) hnodup
  refine hsorted.eq_of_mem_iff (m.pairwise_within d) fun stop => ?_
  rw [rowsWithin, List.mem_mergeSort, List.mem_flatMap, mem_within]
  constructor
  · rintro ⟨r, hr, hstop⟩
    obtain ⟨hr, hle⟩ := List.mem_filter.1 hr
    exact ⟨r.1, of_decide_eq_true hle, distance?_of_mem_toList hr hstop⟩
  · rintro ⟨n, hle, hn⟩
    obtain ⟨ends, hrow, hstop⟩ := mem_pairs.1 (mem_pairs_toList.2 hn)
    exact ⟨(n, ends), List.mem_filter.2 ⟨hrow, decide_eq_true hle⟩, hstop⟩

theorem length_flatMap_toList (m : EndDistances) : (m.toList.flatMap (·.2)).length = m.length := by
  have hperm : (m.toList.flatMap (·.2)).Perm (m.best.map (·.1)) := by
    refine (List.perm_ext_iff_of_nodup m.nodup_flatMap_toList m.nodup_ends).2 fun stop => ?_
    have hrows : stop ∈ m.toList.flatMap (·.2) ↔ ∃ d, (stop, d) ∈ pairs m.toList := by
      simp [mem_pairs]
    simp [hrows, mem_pairs_toList, distance?_eq_some_iff]
  rw [hperm.length_eq, List.length_map, length]

/-! ### Rows filed one after the other -/

/-- The ends of a list that have not been seen before, each once; and all that have been seen after
it. -/
def fresh (seen : List Nat) : List Nat → List Nat × List Nat
  | [] => ([], seen)
  | e :: ends =>
    if e ∈ seen then fresh seen ends
    else (e :: (fresh (e :: seen) ends).1, (fresh (e :: seen) ends).2)

/-- The rows with the ends that no earlier row has, in ascending order; a row that is left without
an end is dropped. -/
def filed (seen : List Nat) : List (Nat × List Nat) → List (Nat × List Nat)
  | [] => []
  | r :: raw =>
    if (fresh seen r.2).1 = [] then filed (fresh seen r.2).2 raw
    else (r.1, (fresh seen r.2).1.mergeSort) :: filed (fresh seen r.2).2 raw

theorem mem_fresh {e : Nat} : e ∈ (fresh seen ends).1 ↔ e ∈ ends ∧ e ∉ seen := by
  induction ends generalizing seen with
  | nil => simp [fresh]
  | cons x ends ih =>
    rw [fresh]
    split
    next hx =>
      have hne : e ∉ seen → e ≠ x := fun he heq => he (heq ▸ hx)
      rw [ih, List.mem_cons]
      exact ⟨fun h => ⟨Or.inr h.1, h.2⟩, fun h => ⟨h.1.resolve_left (hne h.2), h.2⟩⟩
    next hx =>
      by_cases he : e = x
      · simp [he, hx]
      · simp [ih, he]

theorem mem_seen_fresh {e : Nat} : e ∈ (fresh seen ends).2 ↔ e ∈ seen ∨ e ∈ ends := by
  induction ends generalizing seen with
  | nil => simp [fresh]
  | cons x ends ih =>
    rw [fresh]
    split
    next hx =>
      have hmem : e = x → e ∈ seen := fun heq => heq ▸ hx
      rw [ih, List.mem_cons, ← or_assoc, or_iff_left_of_imp hmem]
    next => simp [ih, or_assoc, or_left_comm]

theorem nodup_fresh (seen ends : List Nat) : (fresh seen ends).1.Nodup := by
  induction ends generalizing seen with
  | nil => exact List.nodup_nil
  | cons x ends ih =>
    rw [fresh]
    split
    next => exact ih seen
    next => exact List.nodup_cons.2 ⟨fun hx => (mem_fresh.1 hx).2 List.mem_cons_self, ih _⟩

theorem exists_key_of_mem_filed {r : Nat × List Nat} (hr : r ∈ filed seen raw) :
    ∃ x ∈ raw, x.1 = r.1 := by
  induction raw generalizing seen with
  | nil => exact (List.not_mem_nil hr).elim
  | cons x raw ih =>
    rw [filed] at hr
    split at hr
    next =>
      obtain ⟨y, hy, hkey⟩ := ih hr
      exact ⟨y, List.mem_cons_of_mem _ hy, hkey⟩
    next =>
      rcases List.mem_cons.1 hr with rfl | hr
      · exact ⟨x, List.mem_cons_self, rfl⟩
      · obtain ⟨y, hy, hkey⟩ := ih hr
        exact ⟨y, List.mem_cons_of_mem _ hy, hkey⟩

theorem orderly_filed (h : raw.Pairwise fun a b => a.1 < b.1) : Orderly (filed seen raw) := by
  induction raw generalizing seen with
  | nil => exact Orderly.nil
  | cons r raw ih =>
    obtain ⟨hr, hraw⟩ := List.pairwise_cons.1 h
    rw [filed]
    split
    next => exact ih hraw
    next hne =>
      refine (ih hraw).cons (fun x hx => ?_) ?_ ?_
      · obtain ⟨y, hy, hkey⟩ := exists_key_of_mem_filed hx
        exact hkey ▸ hr y hy
      · obtain ⟨e, he⟩ := List.exists_mem_of_ne_nil _ hne
        exact List.ne_nil_of_mem (List.mem_mergeSort.2 he)
      · have hnodup : (fresh seen r.2).1.mergeSort.Nodup :=
          (List.mergeSort_perm _ _).nodup_iff.2 (nodup_fresh _ _)
        exact (List.pairwise_mergeSort' (· ≤ ·) _).imp₂
          (fun a b hle hne => Nat.lt_of_le_of_ne hle hne) hnodup

theorem mem_pairs_cons {r : Nat × List Nat} :
    (stop, d) ∈ pairs (r :: raw) ↔ d = r.1 ∧ stop ∈ r.2 ∨ (stop, d) ∈ pairs raw := by
  simp only [pairs, List.flatMap_cons, List.mem_append, List.mem_map, Prod.mk.injEq]
  refine or_congr_left ⟨?_, ?_⟩
  · rintro ⟨_, he, rfl, rfl⟩
    exact ⟨rfl, he⟩
  · rintro ⟨rfl, he⟩
    exact ⟨stop, he, rfl, rfl⟩

theorem mem_pairs_filed_cons {r : Nat × List Nat} :
    (stop, d) ∈ pairs (filed seen (r :: raw)) ↔
      d = r.1 ∧ stop ∈ r.2 ∧ stop ∉ seen ∨
        (stop, d) ∈ pairs (filed (fresh seen r.2).2 raw) := by
  rw [filed]
  split
  next hnil =>
    have hnone : ¬(stop ∈ r.2 ∧ stop ∉ seen) := by
      rw [← mem_fresh, hnil]
      exact List.not_mem_nil
    exact (or_iff_right fun h => hnone h.2).symm
  next => rw [mem_pairs_cons, List.mem_mergeSort, mem_fresh]

/-- If the first row has an end, its distance is the least; else the end is left to the other rows.
-/
theorem isLeast_pairs_cons {r : Nat × List Nat} (hr : ∀ x ∈ raw, r.1 < x.1) :
    IsLeast {n | (stop, n) ∈ pairs (r :: raw)} d ↔
      d = r.1 ∧ stop ∈ r.2 ∨ stop ∉ r.2 ∧ IsLeast {n | (stop, n) ∈ pairs raw} d := by
  by_cases hstop : stop ∈ r.2
  · have hleast : IsLeast {n | (stop, n) ∈ pairs (r :: raw)} r.1 := by
      refine ⟨mem_pairs_cons.2 (Or.inl ⟨rfl, hstop⟩), fun n hn => ?_⟩
      rcases mem_pairs_cons.1 hn with ⟨rfl, -⟩ | hn
      · exact Nat.le_refl _
      · obtain ⟨ends, hrow, -⟩ := mem_pairs.1 hn
        exact Nat.le_of_lt (hr _ hrow)
    rw [or_iff_left fun h => h.1 hstop, and_iff_left hstop]
    exact ⟨fun hd => hd.unique hleast, fun hd => hd ▸ hleast⟩
  · simp only [mem_pairs_cons, hstop, and_false, false_or, not_false_eq_true, true_and]

/-- An end is filed in the first row that has it, unless it was seen before. -/
theorem mem_pairs_filed (h : raw.Pairwise fun a b => a.1 < b.1) :
    (stop, d) ∈ pairs (filed seen raw) ↔
      stop ∉ seen ∧ IsLeast {n | (stop, n) ∈ pairs raw} d := by
  induction raw generalizing seen with
  | nil => simp [filed, pairs, IsLeast]
  | cons r raw ih =>
    obtain ⟨hr, hraw⟩ := List.pairwise_cons.1 h
    rw [mem_pairs_filed_cons, ih hraw, mem_seen_fresh, isLeast_pairs_cons hr, not_or]
    tauto

/-- Rows in ascending order of distance are filed as their end distances are. -/
theorem filed_eq_toList (h : raw.Pairwise fun a b => a.1 < b.1) :
    filed [] raw = (ofRaw raw).toList := by
  refine (orderly_filed h).eq (orderly_toList _) fun p => ?_
  obtain ⟨stop, d⟩ := p
  rw [mem_pairs_filed h, mem_pairs_toList, distance?_ofRaw]
  simp

end EndDistances

/-- **Each end is kept under its best distance.** Made from any lists of ends with distances, end
distances give an end the least distance at which it was given, and none to an end that was not
given. The ends at a distance and those within one are listed in ascending order, each once; the
distances are, ascending, those at which some end is; and the length counts the different ends.
Filed by distance they are the rows that are left when, in ascending order of distance, every end
seen before is left out. The rows say the same when they are searched for an end or a distance, put
together up to a distance, or counted; and made from what was filed they are the same again. -/
theorem each_end_is_kept_under_its_best_distance (raw : List (Nat × List Nat)) :
    let m : EndDistances := .ofRaw raw
    (∀ stop d, m.distance? stop = some d ↔
        IsLeast {n | ∃ ends, (n, ends) ∈ raw ∧ stop ∈ ends} d) ∧
      (∀ stop, m.distance? stop = none ↔ ∀ r ∈ raw, stop ∉ r.2) ∧
      (∀ d, (m.endsAt d).Pairwise (· < ·) ∧
        ∀ stop, stop ∈ m.endsAt d ↔ m.distance? stop = some d) ∧
      m.distances.Pairwise (· < ·) ∧
      (∀ d, d ∈ m.distances ↔ m.endsAt d ≠ []) ∧
      (∀ d, (m.within d).Pairwise (· < ·) ∧
        ∀ stop, stop ∈ m.within d ↔ ∃ n, n ≤ d ∧ m.distance? stop = some n) ∧
      m.length = (raw.flatMap (·.2)).toFinset.card ∧
      (raw.Pairwise (fun a b => a.1 < b.1) → m.toList = EndDistances.filed [] raw) ∧
      (m.toList.map (·.1) = m.distances ∧
        (∀ stop, EndDistances.rowDistance? m.toList stop = m.distance? stop) ∧
        (∀ d, (m.toList.lookup d).getD [] = m.endsAt d) ∧
        (∀ d, EndDistances.rowsWithin m.toList d = m.within d) ∧
        (m.toList.flatMap (·.2)).length = m.length) ∧
      EndDistances.ofRaw m.toList = m := by
  intro m
  refine ⟨fun stop d => ?_, fun stop => ?_,
    fun d => ⟨m.pairwise_endsAt d, fun _ => EndDistances.mem_endsAt⟩, m.pairwise_distances,
    fun d => EndDistances.mem_distances_iff,
    fun d => ⟨m.pairwise_within d, fun _ => EndDistances.mem_within⟩, EndDistances.length_ofRaw,
    fun h => (EndDistances.filed_eq_toList h).symm,
    ⟨?_, m.rowDistance?_toList, m.lookup_toList, m.rowsWithin_toList, m.length_flatMap_toList⟩,
    m.ofRaw_toList⟩
  · simp only [m, EndDistances.distance?_ofRaw, EndDistances.mem_pairs]
  · rw [EndDistances.distance?_ofRaw_eq_none_iff]
    simp only [EndDistances.mem_pairs, not_exists, not_and, Prod.forall]
  · simp [EndDistances.toList, Function.comp_def]

/-- An end that comes twice and at two distances is kept once, under the lesser one; the distance
that has no other end is dropped. -/
example : (EndDistances.ofRaw [(0, [4, 2, 4]), (1, [2]), (3, [7, 4, 1])]).toList =
    [(0, [2, 4]), (3, [1, 7])] := by cbv

end PatternSweep
