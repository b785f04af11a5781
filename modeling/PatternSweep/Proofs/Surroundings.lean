import PatternSweep.Proofs.EditBounds

/-!
# Matches in a longer text

A match looks at nothing before its start, so a text that is put in front moves the matches and does
nothing else (`Pattern.matches_append_left`). Without lookaheads it looks at nothing past its end
either, so the walks that stay in the first part of a text are those of this part alone
(`Pattern.agreeInto_append`); and as matches are walks without edits, the same holds of them
(`Pattern.matches_append_right`). Hence the spans in a text depend only on the characters they may
look at (`matches_depend_on_their_piece`).
-/

namespace PatternSweep

/-- The piece that lies `n` offsets further. -/
def Span.moved (n : Nat) (span : Span) : Span := ⟨n + span.start, n + span.stop⟩

/-- From an offset moved by `n`, the relation `R` leads where `S` leads to, moved by `n` as well. -/
def Moves (n : Nat) (R S : Nat → Nat → Prop) : Prop := ∀ i k, R (n + i) k ↔ ∃ j, S i j ∧ k = n + j

namespace Moves

variable {n : Nat} {R R' S S' : Nat → Nat → Prop}

theorem eq : Moves n (· = ·) (· = ·) := by
  intro i k
  constructor
  · rintro rfl
    exact ⟨i, rfl, rfl⟩
  · rintro ⟨j, rfl, rfl⟩
    rfl

theorem or (h : Moves n R S) (h' : Moves n R' S') :
    Moves n (fun i j => R i j ∨ R' i j) fun i j => S i j ∨ S' i j := by
  intro i k
  refine (or_congr (h i k) (h' i k)).trans (exists_or.symm.trans ?_)
  exact exists_congr fun j => or_and_right.symm

theorem comp (h : Moves n R S) (h' : Moves n R' S') :
    Moves n (fun i k => ∃ j, R i j ∧ R' j k) fun i k => ∃ j, S i j ∧ S' j k := by
  intro i k
  constructor
  · rintro ⟨_, hR, hR'⟩
    obtain ⟨m, hS, rfl⟩ := (h i _).1 hR
    obtain ⟨j, hS', rfl⟩ := (h' m k).1 hR'
    exact ⟨j, ⟨m, hS, hS'⟩, rfl⟩
  · rintro ⟨j, ⟨m, hS, hS'⟩, rfl⟩
    exact ⟨n + m, (h i _).2 ⟨m, hS, rfl⟩, (h' m _).2 ⟨j, hS', rfl⟩⟩

theorem iter (h : Moves n R S) (k : Nat) : Moves n (Iter R k) (Iter S k) := by
  induction k with
  | zero => exact eq
  | succ k ih => exact ih.comp h

theorem passes_iff (h : Moves n R S) (positive : Bool) (i : Nat) :
    Passes R positive (n + i) ↔ Passes S positive i := by
  have hsome : (∃ k, R (n + i) k) ↔ ∃ j, S i j := by
    constructor
    · rintro ⟨k, hR⟩
      obtain ⟨j, hS, -⟩ := (h i k).1 hR
      exact ⟨j, hS⟩
    · rintro ⟨j, hS⟩
      exact ⟨n + j, (h i _).2 ⟨j, hS, rfl⟩⟩
  cases positive with
  | true => exact hsome
  | false => exact not_congr hsome

end Moves

namespace Pattern

variable {u v : List Char} {p : Pattern} {m i j e d : Nat}

/-- A text in front moves the matches, those of the conditions of lookaheads included. -/
theorem matches_append_left (u v : List Char) (p : Pattern) :
    Moves u.length (p.Matches (u ++ v)) (p.Matches v) := by
  induction p using Pattern.induct with
  | atom a =>
    intro i k
    have hchar : (u ++ v)[u.length + i]? = v[i]? := by
      rw [List.getElem?_append_right (Nat.le_add_right _ _), Nat.add_sub_cancel_left]
    unfold Matches
    rw [hchar]
    constructor
    · rintro ⟨rfl, htakes⟩
      exact ⟨i + 1, ⟨rfl, htakes⟩, Nat.add_assoc _ _ _⟩
    · rintro ⟨j, ⟨rfl, htakes⟩, rfl⟩
      exact ⟨(Nat.add_assoc _ _ _).symm, htakes⟩
  | seq ps ih =>
    unfold Matches
    induction ps with
    | nil => exact .eq
    | cons p ps ihps =>
      exact (ih p (by simp)).comp (ihps fun q hq => ih q (List.mem_cons_of_mem _ hq))
  | alt ps ih =>
    unfold Matches
    induction ps with
    | nil =>
      refine fun i k => iff_of_false id ?_
      rintro ⟨_, h, -⟩
      exact h
    | cons p ps ihps =>
      exact (ih p (by simp)).or (ihps fun q hq => ih q (List.mem_cons_of_mem _ hq))
  | repeated e min max ih =>
    intro i k
    unfold Matches
    constructor
    · rintro ⟨rounds, hrounds, hiter⟩
      obtain ⟨j, hj, rfl⟩ := (ih.iter rounds i k).1 hiter
      exact ⟨j, ⟨rounds, hrounds, hj⟩, rfl⟩
    · rintro ⟨j, ⟨rounds, hrounds, hj⟩, rfl⟩
      exact ⟨rounds, hrounds, (ih.iter rounds i _).2 ⟨j, hj, rfl⟩⟩
  | ahead positive c p ihc ihp =>
    intro i k
    unfold Matches
    rw [ihp i k, ihc.passes_iff]
    simp only [and_right_comm, exists_and_right]

/-- Without lookaheads, the walks that end in the first part of a text are those of this part. -/
theorem agreeInto_append (u v : List Char) (m : Nat) (hp : p.hasLookahead = false) :
    AgreeInto (fun x => x.1 ≤ u.length) (p.Walks u m) (p.Walks (u ++ v) m) := by
  induction p using Pattern.induct with
  | atom a =>
    unfold Walks
    constructor
    · rintro x y (hy : y.1 ≤ u.length)
      have hreach : InReach u m y ↔ InReach (u ++ v) m y := by
        refine and_congr_left fun _ => iff_of_true hy ?_
        rw [List.length_append]
        omega
      rw [hreach]
      refine and_congr_left fun _ => exists_congr fun k => or_congr_left ?_
      -- the character that is taken lies before the end of the walk
      refine and_congr_right fun hk => ?_
      rw [hk] at hy
      rw [List.getElem?_append_left hy]
    · rintro x y ⟨⟨k, huses⟩, -⟩ (hy : y.1 ≤ u.length)
      obtain ⟨hle, -⟩ := huses.le
      show x.1 ≤ u.length
      simp only at hle
      omega
  | seq ps ih =>
    have hps := haveLookahead_eq_false_iff.1 hp
    clear hp
    unfold Walks
    induction ps with
    | nil => exact .eq
    | cons p ps ihps =>
      obtain ⟨hhead, htail⟩ := List.forall_mem_cons.1 hps
      exact (ih p (by simp) hhead).comp
        (ihps (fun q hq => ih q (List.mem_cons_of_mem _ hq)) htail)
  | alt ps ih =>
    have hps := haveLookahead_eq_false_iff.1 hp
    clear hp
    unfold Walks
    induction ps with
    | nil => exact .false
    | cons p ps ihps =>
      obtain ⟨hhead, htail⟩ := List.forall_mem_cons.1 hps
      exact (ih p (by simp) hhead).or
        (ihps (fun q hq => ih q (List.mem_cons_of_mem _ hq)) htail)
  | repeated e min max ih =>
    unfold Walks
    exact AgreeInto.union (ih hp).iter (Permits min max)
  | ahead positive c p => cases hp

/-- Without lookaheads, the matches that end in the first part of a text are those of this part. -/
theorem matches_append_right (hp : p.hasLookahead = false) (hj : j ≤ u.length) :
    p.Matches (u ++ v) i j ↔ p.Matches u i j := by
  -- a match is a walk without edits
  have hwalk : ∀ text : List Char, p.Walks text 0 (i, 0) (j, 0) ↔ p.Matches text i j :=
    fun text => (levels_walks text p i (j, 0)).trans (and_iff_right rfl)
  rw [← hwalk, ← hwalk]
  exact ((agreeInto_append u v 0 hp).iff hj).symm

/-- Without lookaheads, what is reached in the first part of a text is what this part reaches. -/
theorem reached_append_right (hp : p.hasLookahead = false) (he : e ≤ u.length) :
    p.Reached (u ++ v) m (e, d) ↔ p.Reached u m (e, d) := by
  have hwalks := agreeInto_append u v m hp
  have hlength : u.length ≤ (u ++ v).length := by
    rw [List.length_append]
    omega
  constructor
  · rintro ⟨⟨-, hd⟩, i, -, x, hwalk, k, hk⟩
    obtain ⟨rfl, rfl⟩ := Prod.mk.inj hk
    -- nothing goes back in the text, so the walk sets out and ends in the first part
    have hx : x.1 ≤ u.length := by omega
    exact ⟨⟨he, hd⟩, i, hwalks.back hwalk hx, x, (hwalks.iff hx).2 hwalk, k, rfl⟩
  · rintro ⟨⟨-, hd⟩, i, hi, x, hwalk, k, hk⟩
    obtain ⟨rfl, rfl⟩ := Prod.mk.inj hk
    have hx : x.1 ≤ u.length := by omega
    exact ⟨⟨by omega, hd⟩, i, by omega, x, (hwalks.iff hx).1 hwalk, k, rfl⟩

end Pattern

/-! ### The spans and distances of a subject -/

namespace Subject

variable {s s' : Subject} {u v : List Char} {p : Pattern} {m e : Nat}

/-- The spans that start in the second part of a text are those of this part, moved. -/
theorem matchSpans_append_left (hs : s.Over (u ++ v)) (hs' : s'.Over v) (p : Pattern) :
    (s.matchSpans p).filter (u.length ≤ ·.start) = (s'.matchSpans p).map (.moved u.length) := by
  refine Span.eq_of_mem_iff ((pairwise_matchSpans s p).filter _)
    (List.pairwise_map.2 ((pairwise_matchSpans s' p).imp ?_)) ?_
  · intro a b h
    show u.length + a.stop < u.length + b.stop ∨
      u.length + a.stop = u.length + b.stop ∧ u.length + a.start < u.length + b.start
    omega
  · rintro ⟨i, k⟩
    rw [List.mem_filter, mem_matchSpans hs, decide_eq_true_eq, List.length_append, List.mem_map]
    constructor
    · rintro ⟨⟨hi, hmatch⟩, hle : u.length ≤ i⟩
      obtain ⟨i, rfl⟩ := Nat.exists_eq_add_of_le hle
      obtain ⟨j, hj, rfl⟩ := (Pattern.matches_append_left u v p i k).1 hmatch
      exact ⟨⟨i, j⟩, (mem_matchSpans hs' p).2 ⟨by omega, hj⟩, rfl⟩
    · rintro ⟨⟨i', j⟩, hmem, hmoved⟩
      obtain ⟨rfl, rfl⟩ : u.length + i' = i ∧ u.length + j = k := Span.mk.inj hmoved
      obtain ⟨hi, hmatch⟩ := (mem_matchSpans hs' p).1 hmem
      exact ⟨⟨by omega, (Pattern.matches_append_left u v p i' _).2 ⟨j, hmatch, rfl⟩⟩,
        Nat.le_add_right _ _⟩

/-- Without lookaheads the spans that end in the first part of a text are those of this part. -/
theorem matchSpans_append_right (hs : s.Over (u ++ v)) (hs' : s'.Over u)
    (hp : p.hasLookahead = false) :
    (s.matchSpans p).filter (·.stop ≤ u.length) = s'.matchSpans p := by
  refine Span.eq_of_mem_iff ((pairwise_matchSpans s p).filter _) (pairwise_matchSpans s' p) ?_
  rintro ⟨i, j⟩
  rw [List.mem_filter, mem_matchSpans hs, mem_matchSpans hs', decide_eq_true_eq,
    List.length_append]
  constructor
  · rintro ⟨⟨-, hmatch⟩, hj : j ≤ u.length⟩
    have hij := hmatch.le
    exact ⟨by omega, (Pattern.matches_append_right hp hj).1 hmatch⟩
  · rintro ⟨hi, hmatch⟩
    have hj : j ≤ u.length := hmatch.le_length hi
    exact ⟨⟨by omega, (Pattern.matches_append_right hp hj).2 hmatch⟩, hj⟩

/-- Without lookaheads an offset of the first part of a text has the same distance in both. -/
theorem distance?_append_right (hs : s.Over (u ++ v)) (hs' : s'.Over u)
    (hp : p.hasLookahead = false) (he : e ≤ u.length) :
    (s.endDistances p (.of p) m).distance? e = (s'.endDistances p (.of p) m).distance? e := by
  ext d
  rw [distance?_eq_some_iff_reached hs, distance?_eq_some_iff_reached hs']
  simp only [Pattern.reached_append_right hp he]

end Subject

/-- **A match depends only on the piece of text it may look at.** For every pattern the spans that
start in the second part of a text are those of this part, moved by the length of the first. If
there are no lookaheads, the spans that end in the first part are those of this part, and for every
bound each of its offsets has the same distance in it as in the whole. Within its limits a query
gives the same. -/
theorem matches_depend_on_their_piece :
    (∀ (u v : List Char) (s left right : Subject), s.Over (u ++ v) → left.Over u → right.Over v →
      ∀ p : Pattern,
        (s.matchSpans p).filter (u.length ≤ ·.start) =
          (right.matchSpans p).map (.moved u.length) ∧
        (p.hasLookahead = false →
          (s.matchSpans p).filter (·.stop ≤ u.length) = left.matchSpans p ∧
          ∀ m e, e ≤ u.length → (s.endDistances p (.of p) m).distance? e =
            (left.endDistances p (.of p) m).distance? e)) ∧
    ∀ (q : Query) (u v : String), (u ++ v).toList.length ≤ q.limits.maxTextLength →
      ∃ all left right, q.matchSpans (u ++ v) = .ok all ∧ q.matchSpans u = .ok left ∧
        q.matchSpans v = .ok right ∧
        all.filter (u.toList.length ≤ ·.start) = right.map (.moved u.toList.length) ∧
        (q.root.hasLookahead = false →
          all.filter (·.stop ≤ u.toList.length) = left ∧
          ∀ m, m ≤ q.limits.maxDistance → ∃ many few, q.matchWithin (u ++ v) m = .ok many ∧
            q.matchWithin u m = .ok few ∧
            ∀ e, e ≤ u.toList.length → many.distance? e = few.distance? e) := by
  constructor
  · intro u v s left right hs hleft hright p
    refine ⟨Subject.matchSpans_append_left hs hright p, fun hp => ⟨?_, fun m e he => ?_⟩⟩
    · exact Subject.matchSpans_append_right hs hleft hp
    · exact Subject.distance?_append_right hs hleft hp he
  · intro q u v hlength
    have hparts : (u ++ v).toList.length = u.toList.length + v.toList.length := by
      rw [String.toList_append, List.length_append]
    have hu : u.toList.length ≤ q.limits.maxTextLength := by omega
    have hv : v.toList.length ≤ q.limits.maxTextLength := by omega
    have hall : (Subject.plain (u ++ v).toList).Over (u.toList ++ v.toList) := by
      rw [String.toList_append]
      exact Or.inl rfl
    refine ⟨_, _, _, Query.matchSpans_eq hlength, Query.matchSpans_eq hu, Query.matchSpans_eq hv,
      Subject.matchSpans_append_left hall (Or.inl rfl) q.root, fun hp => ⟨?_, fun m hm => ?_⟩⟩
    · exact Subject.matchSpans_append_right hall (Or.inl rfl) hp
    · exact ⟨_, _, Query.matchWithin_eq hm hlength, Query.matchWithin_eq hm hu,
        fun e he => Subject.distance?_append_right hall (Or.inl rfl) hp he⟩

/-- Characters where an `a` follows, and the two characters from an `a` on, in the text `abab` and
in its two halves; the last with one edit too, which every end is at most away from. -/
theorem matches_depend_on_their_piece_in_abab :
    ((Subject.plain ['a', 'b', 'a', 'b']).matchSpans (.ahead true (Pattern.lit 'a')
        (.repeated (.atom .any) 1 none))).filter (2 ≤ ·.start) =
      ((Subject.plain ['a', 'b']).matchSpans (.ahead true (Pattern.lit 'a')
        (.repeated (.atom .any) 1 none))).map (.moved 2) ∧
    (∃ all left right,
      (Query.ofPattern (.seq [Pattern.lit 'a', .atom .any])).matchSpans ("ab" ++ "ab") = .ok all ∧
      (Query.ofPattern (.seq [Pattern.lit 'a', .atom .any])).matchSpans "ab" = .ok left ∧
      (Query.ofPattern (.seq [Pattern.lit 'a', .atom .any])).matchSpans "ab" = .ok right ∧
      all = [⟨0, 2⟩, ⟨2, 4⟩] ∧ all.filter (2 ≤ ·.start) = right.map (.moved 2) ∧
      all.filter (·.stop ≤ 2) = left) ∧
    ∃ many few,
      (Query.ofPattern (.seq [Pattern.lit 'a', .atom .any])).matchWithin ("ab" ++ "ab") 1 =
        .ok many ∧
      (Query.ofPattern (.seq [Pattern.lit 'a', .atom .any])).matchWithin "ab" 1 = .ok few ∧
      many.best = [(1, 1), (2, 0), (3, 1), (4, 0)] ∧ few.best = [(1, 1), (2, 0)] ∧
      many.distance? 1 = few.distance? 1 := by
  obtain ⟨hsubject, hquery⟩ := matches_depend_on_their_piece
  refine ⟨(hsubject ['a', 'b'] ['a', 'b'] _ _ _ (Or.inl rfl) (Or.inl rfl) (Or.inl rfl) _).1, ?_⟩
  obtain ⟨all, left, right, hall, hleft, hright, hmoved, hfree⟩ :=
    hquery (.ofPattern (.seq [Pattern.lit 'a', .atom .any])) "ab" "ab" (by decide)
  obtain ⟨hkept, hdistance⟩ := hfree rfl
  obtain ⟨many, few, hmany, hfew, heq⟩ := hdistance 1 (by decide)
  have hvalue : (Query.ofPattern (.seq [Pattern.lit 'a', .atom .any])).matchSpans ("ab" ++ "ab") =
      .ok [⟨0, 2⟩, ⟨2, 4⟩] := by decide
  have hbest : many.best = [(1, 1), (2, 0), (3, 1), (4, 0)] :=
    Query.best_matchWithin (l := [(1, 1), (2, 0), (2, 1), (3, 1), (4, 0), (4, 1)]) hmany
      (by decide) (by decide) (by decide +kernel) (by decide)
  have hbestfew : few.best = [(1, 1), (2, 0)] :=
    Query.best_matchWithin (l := [(1, 1), (2, 0), (2, 1)]) hfew (by decide) (by decide)
      (by decide +kernel) (by decide)
  rw [hvalue] at hall
  cases hall
  exact ⟨⟨_, left, right, hvalue, hleft, hright, rfl, hmoved, hkept⟩,
    many, few, hmany, hfew, hbest, hbestfew, heq 1 (by decide)⟩

end PatternSweep
