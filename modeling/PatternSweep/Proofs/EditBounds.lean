import PatternSweep.Proofs.Invariance

/-!
# The bound on the edits

The bound on the number of edits does nothing but end walks. The edits never become fewer along a
walk, so under a greater bound the walks to a place that keeps the smaller one are the same
(`Pattern.agreeInto_walks`): more edits only add places, and no end moves to another distance
(`raising_the_bound_only_adds`). Without any edit a walk is a match (`Pattern.levels_walks`), so
whatever the bound is, the ends at the distance `0` are the ends of the matches
(`edits_keep_exact_ends`).
-/

namespace PatternSweep

/-! ### Relations that agree in the places they lead to -/

/-- Into places with `V` both relations lead in the same ways, and `S` from such places alone. -/
structure AgreeInto {α : Type} (V : α → Prop) (R S : α → α → Prop) : Prop where
  iff : ∀ {a b}, V b → (R a b ↔ S a b)
  back : ∀ {a b}, S a b → V b → V a

namespace AgreeInto

variable {α : Type} {V : α → Prop} {R R' S S' : α → α → Prop}

theorem eq : AgreeInto V (· = ·) (· = ·) where
  iff _ := Iff.rfl
  back h hb := h ▸ hb

theorem false : AgreeInto V (fun _ _ => False) fun _ _ => False where
  iff _ := Iff.rfl
  back h := h.elim

theorem or (h : AgreeInto V R S) (h' : AgreeInto V R' S') :
    AgreeInto V (fun a b => R a b ∨ R' a b) fun a b => S a b ∨ S' a b where
  iff hb := or_congr (h.iff hb) (h'.iff hb)
  back hab hb := hab.elim (fun hS => h.back hS hb) fun hS => h'.back hS hb

/-- In between lies a place with `V`, since the second step leads back to one. -/
theorem comp (h : AgreeInto V R S) (h' : AgreeInto V R' S') :
    AgreeInto V (fun a c => ∃ b, R a b ∧ R' b c) fun a c => ∃ b, S a b ∧ S' b c where
  iff := by
    intro a c hc
    refine exists_congr fun b => ?_
    rw [h'.iff hc]
    exact and_congr_left fun hS => h.iff (h'.back hS hc)
  back := by
    rintro a c ⟨b, hab, hbc⟩ hc
    exact h.back hab (h'.back hbc hc)

theorem iter (h : AgreeInto V R S) (k : Nat) : AgreeInto V (Iter R k) (Iter S k) := by
  induction k with
  | zero => exact eq
  | succ k ih => exact ih.comp h

/-- Any number of steps, if the relations agree for each number. -/
theorem union {T U : Nat → α → α → Prop} (h : ∀ k, AgreeInto V (T k) (U k)) (q : Nat → Prop) :
    AgreeInto V (fun a b => ∃ k, q k ∧ T k a b) fun a b => ∃ k, q k ∧ U k a b where
  iff hb := exists_congr fun k => and_congr_right fun _ => (h k).iff hb
  back := fun ⟨k, _, hk⟩ hb => (h k).back hk hb

/-- Starts may be left out on both sides. -/
theorem filter (h : AgreeInto V R S) (q : α → Prop) :
    AgreeInto V (fun a b => R a b ∧ q a) fun a b => S a b ∧ q a where
  iff hb := and_congr_left fun _ => h.iff hb
  back hab hb := h.back hab.1 hb

end AgreeInto

/-- From a place without edits `S` leads to places without edits alone, and there it does what `R`
does with offsets. -/
def Levels (R : Nat → Nat → Prop) (S : Nat × Nat → Nat × Nat → Prop) : Prop :=
  ∀ i y, S (i, 0) y ↔ y.2 = 0 ∧ R i y.1

namespace Levels

variable {R R' : Nat → Nat → Prop} {S S' : Nat × Nat → Nat × Nat → Prop}

theorem eq : Levels (· = ·) (· = ·) := by
  intro i y
  constructor
  · rintro rfl
    exact ⟨rfl, rfl⟩
  · rintro ⟨hy, hi⟩
    exact Prod.ext hi hy.symm

theorem comp (h : Levels R S) (h' : Levels R' S') :
    Levels (fun i k => ∃ j, R i j ∧ R' j k) fun x z => ∃ y, S x y ∧ S' y z := by
  intro i z
  constructor
  · rintro ⟨⟨j, d⟩, hxy, hyz⟩
    obtain ⟨rfl, hR⟩ := (h i (j, d)).1 hxy
    obtain ⟨hz, hR'⟩ := (h' j z).1 hyz
    exact ⟨hz, j, hR, hR'⟩
  · rintro ⟨hz, j, hR, hR'⟩
    exact ⟨(j, 0), (h i _).2 ⟨rfl, hR⟩, (h' j z).2 ⟨hz, hR'⟩⟩

theorem iter (h : Levels R S) (k : Nat) : Levels (Iter R k) (Iter S k) := by
  induction k with
  | zero => exact eq
  | succ k ih => exact ih.comp h

end Levels

namespace Pattern

variable {text : List Char} {m m' : Nat} {p : Pattern} {x y : Nat × Nat}

/-! ### Walks under two bounds -/

/-- Under a smaller bound the walks are those that keep it. -/
theorem agreeInto_walks (text : List Char) (hm : m ≤ m') (p : Pattern) :
    AgreeInto (fun x => x.2 ≤ m) (p.Walks text m) (p.Walks text m') := by
  induction p using Pattern.induct with
  | atom a =>
    unfold Walks
    constructor
    · rintro x y (hy : y.2 ≤ m)
      have hreach : InReach text m y ↔ InReach text m' y :=
        and_congr_right fun _ => iff_of_true hy (Nat.le_trans hy hm)
      rw [hreach]
    · rintro x y ⟨⟨k, huses⟩, -⟩ (hy : y.2 ≤ m)
      obtain ⟨-, hle⟩ := huses.le
      show x.2 ≤ m
      simp only at hle
      omega
  | seq ps ih =>
    unfold Walks
    induction ps with
    | nil => exact .eq
    | cons p ps ihps =>
      exact (ih p (by simp)).comp (ihps fun q hq => ih q (List.mem_cons_of_mem _ hq))
  | alt ps ih =>
    unfold Walks
    induction ps with
    | nil => exact .false
    | cons p ps ihps =>
      exact (ih p (by simp)).or (ihps fun q hq => ih q (List.mem_cons_of_mem _ hq))
  | repeated e min max ih =>
    unfold Walks
    exact AgreeInto.union ih.iter (Permits min max)
  | ahead positive c p _ ih =>
    unfold Walks
    exact ih.filter _

/-- What is reached under a smaller bound is what keeps it of what is reached under a greater
one. -/
theorem reached_iff_of_le (hm : m ≤ m') : p.Reached text m y ↔ p.Reached text m' y ∧ y.2 ≤ m := by
  have hwalks := agreeInto_walks text hm p
  constructor
  · rintro ⟨⟨ht, hd⟩, i, hi, x, hwalk, k, rfl⟩
    have hx : x.2 ≤ m := Nat.le_trans (Nat.le_add_right _ _) hd
    exact ⟨⟨⟨ht, Nat.le_trans hd hm⟩, i, hi, x, (hwalks.iff hx).1 hwalk, k, rfl⟩, hd⟩
  · rintro ⟨⟨⟨ht, -⟩, i, hi, x, hwalk, k, rfl⟩, hd⟩
    have hx : x.2 ≤ m := Nat.le_trans (Nat.le_add_right _ _) hd
    exact ⟨⟨ht, hd⟩, i, hi, x, (hwalks.iff hx).2 hwalk, k, rfl⟩

/-! ### Walks without edits -/

/-- Without edits the walks are the matches. -/
theorem levels_walks (text : List Char) (p : Pattern) :
    Levels (p.Matches text) (p.Walks text 0) := by
  induction p using Pattern.induct with
  | atom a =>
    intro i y
    unfold Walks Matches
    constructor
    · rintro ⟨⟨k, huses⟩, ht, hd⟩
      have hy : y.2 = 0 := Nat.le_zero.1 hd
      rcases huses with ⟨rfl, htakes⟩ | rfl | rfl
      · -- nothing was passed over, for that would have been an edit
        obtain rfl : k = 0 := by
          simp only at hy
          omega
        exact ⟨hy, rfl, htakes⟩
      · cases hy
      · cases hy
    · rintro ⟨hd, ht, c, hc, htakes⟩
      have hlt : i < text.length := (List.getElem?_eq_some_iff.1 hc).1
      refine ⟨⟨0, Or.inl ⟨Prod.ext ht hd, c, hc, htakes⟩⟩, ?_, Nat.le_of_eq hd⟩
      omega
  | seq ps ih =>
    unfold Walks Matches
    induction ps with
    | nil => exact .eq
    | cons p ps ihps =>
      exact (ih p (by simp)).comp (ihps fun q hq => ih q (List.mem_cons_of_mem _ hq))
  | alt ps ih =>
    unfold Walks Matches
    induction ps with
    | nil => exact fun i y => (and_iff_right_of_imp False.elim).symm
    | cons p ps ihps =>
      intro i y
      unfold WalksAny MatchesAny
      rw [ih p (by simp) i y, ihps (fun q hq => ih q (List.mem_cons_of_mem _ hq)) i y, and_or_left]
  | repeated e min max ih =>
    intro i y
    unfold Walks Matches
    simp only [ih.iter _ i y, and_left_comm, exists_and_left]
  | ahead positive c p _ ih =>
    rw [Walks, Matches]
    exact fun i y => (and_congr_left fun _ => ih i y).trans and_assoc

/-- The places that are reached without edits are the ends of the matches. -/
theorem reached_zero_iff (text : List Char) (m : Nat) (p : Pattern) (e : Nat) :
    p.Reached text m (e, 0) ↔ ∃ i, i ≤ text.length ∧ p.Matches text i e := by
  rw [← and_iff_left (Nat.le_refl 0) (a := p.Reached text m (e, 0)),
    ← reached_iff_of_le (Nat.zero_le m)]
  constructor
  · rintro ⟨-, i, hi, x, hwalk, k, hk⟩
    obtain ⟨hx, hmatch⟩ := (levels_walks text p i x).1 hwalk
    obtain ⟨rfl, hd⟩ := Prod.mk.inj hk
    obtain rfl : k = 0 := by omega
    exact ⟨i, hi, hmatch⟩
  · rintro ⟨i, hi, hmatch⟩
    exact ⟨⟨hmatch.le_length hi, Nat.le_refl 0⟩, i, hi, (e, 0),
      (levels_walks text p i (e, 0)).2 ⟨rfl, hmatch⟩, 0, rfl⟩

end Pattern

/-! ### The states and the distances of a subject -/

namespace Subject

variable {s s' : Subject} {text : List Char} {p : Pattern} {m m' t q d e : Nat}

/-- The states after a pattern are the places that are reached, at the end of the axis. -/
theorem mem_editStates_iff_reached (hs : s.Over text) : (t, q, d) ∈ s.editStates p (.of p) m ↔
    q = p.axisLength ∧ p.Reached text m (t, d) := by
  obtain ⟨⟨-, hlayer⟩, hmem⟩ := shows_editStates hs p m
  constructor
  · intro h
    obtain rfl := hlayer t q d h
    exact ⟨rfl, (hmem (t, d)).1 h⟩
  · rintro ⟨rfl, h⟩
    exact (hmem (t, d)).2 h

/-- The distance of an end is the least at which it is reached. -/
theorem distance?_eq_some_iff_reached (hs : s.Over text) :
    (s.endDistances p (.of p) m).distance? e = some d ↔
      IsLeast {n | p.Reached text m (e, n)} d := by
  unfold endDistances
  rw [EndDistances.distance?_ofRaw]
  simp only [mem_pairs_iff_reached hs]

/-- A smaller bound leaves out the distances above it and changes no other one. -/
theorem distance?_eq_filter (hs : s.Over text) (hs' : s'.Over text) (hm : m ≤ m') :
    (s.endDistances p (.of p) m).distance? e =
      ((s'.endDistances p (.of p) m').distance? e).filter (· ≤ m) := by
  ext d
  rw [Option.filter_eq_some_iff, decide_eq_true_eq, distance?_eq_some_iff_reached hs,
    distance?_eq_some_iff_reached hs']
  refine isLeast_iff_of_bounded (fun n hn => ?_) fun n hn hle => ?_
  · obtain ⟨hn', hle⟩ := (Pattern.reached_iff_of_le hm).1 hn
    exact ⟨hle, n, hn', Nat.le_refl n⟩
  · exact (Pattern.reached_iff_of_le hm).2 ⟨hn, hle⟩

theorem endsAt_eq_of_le (hs : s.Over text) (hs' : s'.Over text) (hm : m ≤ m') (hd : d ≤ m) :
    (s.endDistances p (.of p) m).endsAt d = (s'.endDistances p (.of p) m').endsAt d := by
  refine (EndDistances.pairwise_endsAt _ d).eq_of_mem_iff (EndDistances.pairwise_endsAt _ d) ?_
  intro e
  rw [EndDistances.mem_endsAt, EndDistances.mem_endsAt, distance?_eq_filter hs hs' hm,
    Option.filter_eq_some_iff, decide_eq_true_eq, and_iff_left hd]

/-- The ends that are reached without edits are those of the matches. -/
theorem exact_endDistances (hs : s.Over text) (hs' : s'.Over text) (p : Pattern) (m : Nat) :
    (s.endDistances p (.of p) m).exact = s'.matchEnds p := by
  refine (EndDistances.pairwise_endsAt _ 0).eq_of_mem_iff (pairwise_matchEnds s' p) fun e => ?_
  rw [EndDistances.mem_endsAt, distance?_eq_some_iff_reached hs, mem_matchEnds hs',
    ← Pattern.reached_zero_iff text m]
  exact and_iff_left fun n _ => Nat.zero_le n

/-- Where no edit may be made, every end is reached without one. -/
theorem eq_zero_of_mem_distances (hs : s.Over text)
    (hd : d ∈ (s.endDistances p (.of p) 0).distances) : d = 0 := by
  obtain ⟨e, he⟩ := EndDistances.mem_distances.1 hd
  obtain ⟨⟨⟨-, hle⟩, -⟩, -⟩ := (distance?_eq_some_iff_reached hs).1 he
  exact Nat.le_zero.1 hle

end Subject

/-- **Edits never disturb the exact ends.** For every pattern with its own layout, every text and
every bound the ends at the distance `0` are those of the matches, whatever is known of the text;
and if no edit may be made, there is no other distance. Within its limits a query gives the same. -/
theorem edits_keep_exact_ends :
    (∀ (s s' : Subject) (text : List Char), s.Over text → s'.Over text → ∀ p : Pattern,
      (∀ m, (s.endDistances p (.of p) m).exact = s'.matchEnds p) ∧
      ∀ d ∈ (s.endDistances p (.of p) 0).distances, d = 0) ∧
    ∀ (q : Query) (text : String), text.toList.length ≤ q.limits.maxTextLength →
      (∀ m, m ≤ q.limits.maxDistance → ∃ found ends, q.matchWithin text m = .ok found ∧
        q.matchEnds text = .ok ends ∧ found.exact = ends) ∧
      ∃ found, q.matchWithin text 0 = .ok found ∧ ∀ d ∈ found.distances, d = 0 := by
  constructor
  · intro s s' text hs hs' p
    exact ⟨Subject.exact_endDistances hs hs' p, fun d hd => Subject.eq_zero_of_mem_distances hs hd⟩
  · intro q text hlength
    have hplain : (Subject.plain text.toList).Over text.toList := Or.inl rfl
    constructor
    · intro m hm
      exact ⟨_, _, Query.matchWithin_eq hm hlength, Query.matchEnds_eq hlength,
        Subject.exact_endDistances hplain hplain q.root m⟩
    · exact ⟨_, Query.matchWithin_eq (Nat.zero_le _) hlength,
        fun d hd => Subject.eq_zero_of_mem_distances hplain hd⟩

/-- Once or twice a character other than `b`, in the text `ba` with at most one edit. -/
theorem edits_keep_exact_ends_in_ba :
    (((Subject.plain ['b', 'a']).endDistances (Pattern.lit 'a') (.of (Pattern.lit 'a')) 1).exact =
      (Subject.indexed (.build ['b', 'a'] ['b'])).matchEnds (Pattern.lit 'a')) ∧
    ∃ found ends, (Query.ofPattern (.repeated (.ahead false (Pattern.lit 'b') (.atom .any)) 1
        (some 2))).matchWithin "ba" 1 = .ok found ∧
      (Query.ofPattern (.repeated (.ahead false (Pattern.lit 'b') (.atom .any)) 1
        (some 2))).matchEnds "ba" = .ok ends ∧ found.exact = ends ∧ ends = [2] := by
  obtain ⟨hsubject, hquery⟩ := edits_keep_exact_ends
  refine ⟨(hsubject _ _ _ (Or.inl rfl) (Or.inr ⟨['b'], rfl⟩) (Pattern.lit 'a')).1 1, ?_⟩
  obtain ⟨found, ends, hfound, hends, hexact⟩ := (hquery (.ofPattern (.repeated
    (.ahead false (Pattern.lit 'b') (.atom .any)) 1 (some 2))) "ba" (by decide)).1 1 (by decide)
  have hvalue : (Query.ofPattern (.repeated (.ahead false (Pattern.lit 'b') (.atom .any)) 1
      (some 2))).matchEnds "ba" = .ok [2] := by decide
  rw [hvalue] at hends
  cases hends
  exact ⟨found, _, hfound, hvalue, hexact, rfl⟩

/-- **Raising the bound only adds.** For every pattern with its own layout, every text and bounds
`m ≤ m'`, the states under `m` are those under `m'` whose edits keep `m`. Hence up to the distance
`m` both give the same ends at each distance, and an end has a distance under `m` if it has this one
under `m'` and it keeps `m`. Within its limits a query gives the same. -/
theorem raising_the_bound_only_adds :
    (∀ (s s' : Subject) (text : List Char), s.Over text → s'.Over text →
      ∀ (p : Pattern) (m m' : Nat), m ≤ m' →
        (∀ t q d, (t, q, d) ∈ s.editStates p (.of p) m ↔
          (t, q, d) ∈ s'.editStates p (.of p) m' ∧ d ≤ m) ∧
        (∀ d, d ≤ m → (s.endDistances p (.of p) m).endsAt d =
          (s'.endDistances p (.of p) m').endsAt d) ∧
        ∀ e, (s.endDistances p (.of p) m).distance? e =
          ((s'.endDistances p (.of p) m').distance? e).filter (· ≤ m)) ∧
    ∀ (q : Query) (text : String) (m m' : Nat), m ≤ m' → m' ≤ q.limits.maxDistance →
      text.toList.length ≤ q.limits.maxTextLength →
      ∃ few many, q.matchWithin text m = .ok few ∧ q.matchWithin text m' = .ok many ∧
        (∀ d, d ≤ m → few.endsAt d = many.endsAt d) ∧
        ∀ e, few.distance? e = (many.distance? e).filter (· ≤ m) := by
  constructor
  · intro s s' text hs hs' p m m' hm
    refine ⟨fun t q d => ?_, fun d hd => Subject.endsAt_eq_of_le hs hs' hm hd,
      fun e => Subject.distance?_eq_filter hs hs' hm⟩
    rw [Subject.mem_editStates_iff_reached hs, Subject.mem_editStates_iff_reached hs',
      Pattern.reached_iff_of_le hm, and_assoc]
  · intro q text m m' hm hm' hlength
    have hplain : (Subject.plain text.toList).Over text.toList := Or.inl rfl
    exact ⟨_, _, Query.matchWithin_eq (Nat.le_trans hm hm') hlength,
      Query.matchWithin_eq hm' hlength, fun d hd => Subject.endsAt_eq_of_le hplain hplain hm hd,
      fun e => Subject.distance?_eq_filter hplain hplain hm⟩

/-- Two letters `a` in the text `ba`, with one edit and with two: under both bounds the end of the
text alone has the distance `1`. -/
theorem raising_the_bound_only_adds_in_ba :
    (∀ t q d, (t, q, d) ∈ (Subject.plain ['b', 'a']).editStates (Pattern.lit 'a')
        (.of (Pattern.lit 'a')) 0 ↔
      (t, q, d) ∈ (Subject.plain ['b', 'a']).editStates (Pattern.lit 'a')
        (.of (Pattern.lit 'a')) 1 ∧ d ≤ 0) ∧
    ∃ few many,
      (Query.ofPattern (.seq [Pattern.lit 'a', Pattern.lit 'a'])).matchWithin "ba" 1 = .ok few ∧
      (Query.ofPattern (.seq [Pattern.lit 'a', Pattern.lit 'a'])).matchWithin "ba" 2 = .ok many ∧
      few.endsAt 1 = many.endsAt 1 ∧ few.distance? 0 = (many.distance? 0).filter (· ≤ 1) ∧
      few.endsAt 1 = [2] := by
  obtain ⟨hsubject, hquery⟩ := raising_the_bound_only_adds
  refine ⟨(hsubject _ _ _ (Or.inl rfl) (Or.inl rfl) (Pattern.lit 'a') 0 1 (by decide)).1, ?_⟩
  obtain ⟨few, many, hfew, hmany, hends, hdistance⟩ := hquery
    (.ofPattern (.seq [Pattern.lit 'a', Pattern.lit 'a'])) "ba" 1 2 (by decide) (by decide)
    (by decide)
  have hone : ((Query.ofPattern (.seq [Pattern.lit 'a', Pattern.lit 'a'])).matchWithin "ba" 1).map
      (·.endsAt 1) = .ok [2] := by decide +kernel
  rw [hfew] at hone
  exact ⟨few, many, hfew, hmany, hends 1 (by decide), hdistance 0, Except.ok.inj hone⟩

end PatternSweep
