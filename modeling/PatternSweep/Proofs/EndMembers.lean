import Mathlib.Order.Bounds.Basic
import PatternSweep.EndDistances
import PatternSweep.Proofs.EditMembers

/-!
# The distance of an end

Of all pairs of an end and a distance that were reached, an `EndDistances` keeps for each end the
one with the least distance (`EndDistances.distance?_ofRaw`): in a list in order it stands first.
-/

namespace PatternSweep

namespace EndDistances

variable {a : Nat × Nat} {l : List (Nat × Nat)} {stop d : Nat} {raw : List (Nat × List Nat)}

theorem mem_pairs : (stop, d) ∈ pairs raw ↔ ∃ ends, (d, ends) ∈ raw ∧ stop ∈ ends := by
  simp only [pairs, List.mem_flatMap, List.mem_map, Prod.exists, Prod.mk.injEq]
  constructor
  · rintro ⟨_, ends, hraw, _, hstop, rfl, rfl⟩
    exact ⟨ends, hraw, hstop⟩
  · rintro ⟨ends, hraw, hstop⟩
    exact ⟨d, ends, hraw, stop, hstop, rfl, rfl⟩

theorem inOrder_iff {a b : Nat × Nat} :
    inOrder a b = true ↔ a.1 < b.1 ∨ a.1 = b.1 ∧ a.2 ≤ b.2 := by
  simp [inOrder]

/-- The first pair of an end comes at no greater distance than any other. -/
theorem exists_le_mem_firsts (h : (a :: l).Pairwise fun x y => inOrder x y = true)
    {x : Nat × Nat} (hx : x ∈ a :: l) : ∃ d, (x.1, d) ∈ firsts a l ∧ d ≤ x.2 := by
  induction l generalizing a x with
  | nil =>
    obtain rfl := List.mem_singleton.1 hx
    exact ⟨x.2, List.mem_singleton.2 rfl, Nat.le_refl _⟩
  | cons b rest ih =>
    obtain ⟨ha, hb⟩ := List.pairwise_cons.1 h
    rw [firsts]
    split
    next heq =>
      have hrest : (a :: rest).Pairwise fun x y => inOrder x y = true :=
        List.pairwise_cons.2 ⟨fun y hy => ha y (List.mem_cons_of_mem _ hy), hb.of_cons⟩
      rcases List.mem_cons.1 hx with rfl | hx
      · exact ih hrest List.mem_cons_self
      rcases List.mem_cons.1 hx with rfl | hx
      · -- `b` has the end of `a` and comes after it
        have hle := inOrder_iff.1 (ha x List.mem_cons_self)
        obtain ⟨d, hd, hda⟩ := ih hrest List.mem_cons_self
        exact ⟨d, heq ▸ hd, by omega⟩
      · exact ih hrest (List.mem_cons_of_mem _ hx)
    next =>
      rcases List.mem_cons.1 hx with rfl | hx
      · exact ⟨x.2, List.mem_cons_self, Nat.le_refl _⟩
      · obtain ⟨d, hd, hle⟩ := ih hb hx
        exact ⟨d, List.mem_cons_of_mem _ hd, hle⟩

/-- Of a list in order, the first pair of an end has its least distance. -/
theorem mem_firstPairs_iff (h : l.Pairwise fun x y => inOrder x y = true) :
    (stop, d) ∈ firstPairs l ↔ IsLeast {n | (stop, n) ∈ l} d := by
  cases l with
  | nil => exact iff_of_false List.not_mem_nil fun h => List.not_mem_nil h.1
  | cons a l =>
    have hunique : ∀ {d n}, (stop, d) ∈ firsts a l → (stop, n) ∈ firsts a l → d = n := by
      intro d n hd hn
      have hends : (firsts a l).Pairwise fun x y => x.1 ≠ y.1 :=
        (pairwise_firsts h).imp fun hlt => Nat.ne_of_lt hlt
      have hlookup := (lookup_eq_some_iff_mem hends).2 hd
      rw [(lookup_eq_some_iff_mem hends).2 hn] at hlookup
      exact (Option.some.inj hlookup).symm
    show (stop, d) ∈ firsts a l ↔ _
    constructor
    · intro hd
      refine ⟨List.mem_cons.2 (mem_firsts hd), fun n hn => ?_⟩
      obtain ⟨m, hm, hle⟩ := exists_le_mem_firsts h hn
      exact hunique hd hm ▸ hle
    · rintro ⟨hd, hleast⟩
      obtain ⟨m, hm, hle⟩ := exists_le_mem_firsts h hd
      have hdm : d ≤ m := hleast (List.mem_cons.2 (mem_firsts hm))
      exact Nat.le_antisymm hdm hle ▸ hm

theorem distance?_eq_some_iff {m : EndDistances} :
    m.distance? stop = some d ↔ (stop, d) ∈ m.best :=
  lookup_eq_some_iff_mem (m.ascending.imp fun hlt => Nat.ne_of_lt hlt)

section

variable {q : Nat → Prop} [DecidablePred q] {m : EndDistances}

/-- The ends picked by their distance are those that have such a distance. -/
theorem mem_filterMap_best :
    stop ∈ m.best.filterMap (fun r => if q r.2 then some r.1 else none) ↔
      ∃ d, q d ∧ m.distance? stop = some d := by
  simp only [List.mem_filterMap, Option.ite_none_right_eq_some, Option.some.injEq, Prod.exists,
    distance?_eq_some_iff]
  constructor
  · rintro ⟨_, d, hr, hd, rfl⟩
    exact ⟨d, hd, hr⟩
  · rintro ⟨d, hd, hr⟩
    exact ⟨stop, d, hr, hd, rfl⟩

theorem pairwise_filterMap_best :
    (m.best.filterMap fun r => if q r.2 then some r.1 else none).Pairwise (· < ·) := by
  refine m.ascending.filterMap _ fun a b hab x hx y hy => ?_
  simp only [Option.ite_none_right_eq_some, Option.some.injEq] at hx hy
  obtain ⟨-, rfl⟩ := hx
  obtain ⟨-, rfl⟩ := hy
  exact hab

end

/-- The ends at a distance are those that have it. -/
theorem mem_endsAt {m : EndDistances} : stop ∈ m.endsAt d ↔ m.distance? stop = some d := by
  rw [endsAt, mem_filterMap_best (q := (· = d)), exists_eq_left]

theorem pairwise_endsAt (m : EndDistances) (d : Nat) : (m.endsAt d).Pairwise (· < ·) :=
  pairwise_filterMap_best (q := (· = d))

/-- The ends within a distance are those that have it or a lesser one. -/
theorem mem_within {m : EndDistances} :
    stop ∈ m.within d ↔ ∃ n, n ≤ d ∧ m.distance? stop = some n :=
  mem_filterMap_best (q := (· ≤ d))

theorem pairwise_within (m : EndDistances) (d : Nat) : (m.within d).Pairwise (· < ·) :=
  pairwise_filterMap_best (q := (· ≤ d))

theorem mem_distances {m : EndDistances} : d ∈ m.distances ↔ ∃ stop, m.distance? stop = some d := by
  simp [distances, distance?_eq_some_iff]

/-- The distance of an end is the least at which it is given. -/
theorem distance?_ofRaw :
    (ofRaw raw).distance? stop = some d ↔ IsLeast {n | (stop, n) ∈ pairs raw} d := by
  have hsorted := pairwise_mergeSort (pairs raw)
  rw [distance?_eq_some_iff]
  show (stop, d) ∈ firstPairs ((pairs raw).mergeSort inOrder) ↔ _
  rw [mem_firstPairs_iff hsorted]
  simp only [List.mem_mergeSort]

/-- However the pairs are given, the ends are read off a list that has them in order. -/
theorem best_ofRaw {l : List (Nat × Nat)} (hperm : (pairs raw).Perm l)
    (hl : l.Pairwise fun x y => inOrder x y = true) : (ofRaw raw).best = firstPairs l := by
  have hanti : ∀ x y, x ∈ (pairs raw).mergeSort inOrder → y ∈ l → inOrder x y = true →
      inOrder y x = true → x = y := by
    intro x y _ _ hxy hyx
    simp only [inOrder, Bool.or_eq_true, Bool.and_eq_true, decide_eq_true_eq] at hxy hyx
    exact Prod.ext (by omega) (by omega)
  have hsort : (pairs raw).mergeSort inOrder = l :=
    ((List.mergeSort_perm _ _).trans hperm).eq_of_pairwise hanti (pairwise_mergeSort _) hl
  rw [← hsort]
  rfl

end EndDistances

/-- The ends of a set of states are its states at the end of the axis. -/
theorem EditStates.mem_pairs_matchEnds {s : EditStates} {t d : Nat} :
    (t, d) ∈ EndDistances.pairs s.matchEnds ↔ (t, s.patternLength, d) ∈ s := by
  rw [EndDistances.mem_pairs]
  simp only [matchEnds, List.mem_map, Prod.mk.injEq]
  constructor
  · intro hx
    obtain ⟨_, ⟨r, hr, rfl, rfl⟩, ht⟩ := hx
    exact ⟨r.2, mem_layer.1 hr, OffsetSet.mem_toList.1 ht⟩
  · rintro ⟨plane, hplane, ht⟩
    exact ⟨_, ⟨(d, plane), mem_layer.2 hplane, rfl, rfl⟩, OffsetSet.mem_toList.2 ht⟩

end PatternSweep
