import Mathlib.Logic.Function.Iterate
import PatternSweep.Proofs.EditMembers
import PatternSweep.Proofs.Rounds
import PatternSweep.Proofs.SpanMembers

/-!
# Repetition is counting

The plainest way to repeat a step is to apply it once more and once more, and to join what the
permitted numbers of applications give (`Repetition.tally`). `Repetition.run` does not do that: it
leaves off as soon as a set is empty or its own image, it joins what it has with its image and not
with the next of the single sets, and it cuts both phases at a ceiling. Where the step is that of a
relation (`Induced`) which never lowers a rank and keeps it only where it stays (`Ranked`), the two
come to the same, whatever the kind of sets is (`repetition_is_counting`): a chain of more
applications than the rank can rise has one to spare.
-/

namespace PatternSweep

variable {σ α : Type} [JoinSet σ] {V : View σ α} {f : σ → σ} {R : α → α → Prop} {rank : α → Nat}
  {bound : Nat}

/-! ### Steps of relations -/

/-- `f` keeps the shape of a set and gives the elements that `R` leads to from those of the set. So
it preserves unions (`Induced.join`) and the empty set (`Induced.isEmpty`). -/
structure Induced (V : View σ α) (f : σ → σ) (R : α → α → Prop) : Prop where
  dom : ∀ {s}, V.Dom s → V.Dom (f s)
  mem : ∀ {s b}, V.Dom s → (V.Mem (f s) b ↔ ∃ a, V.Mem s a ∧ R a b)

/-- Elements of sets have ranks up to `bound`. `R` never lowers the rank, and keeps it only where it
leads from an element to itself. -/
structure Ranked (V : View σ α) (R : α → α → Prop) (rank : α → Nat) (bound : Nat) : Prop where
  le_bound : ∀ {s a}, V.Dom s → V.Mem s a → rank a ≤ bound
  le : ∀ {a b}, R a b → rank a ≤ rank b
  eq : ∀ {a b}, R a b → rank a = rank b → a = b

namespace Induced

variable {s t : σ} {P : α → Prop} {k : Nat}

/-- The step of a relation preserves unions. -/
theorem join (hf : Induced V f R) (hs : V.Dom s) (ht : V.Dom t) :
    f (JoinSet.join s t) = JoinSet.join (f s) (f t) := by
  have hst : V.Dom (JoinSet.join s t) := V.dom_join hs ht
  refine V.ext (hf.dom hst) (V.dom_join (hf.dom hs) (hf.dom ht)) fun b => ?_
  rw [hf.mem hst, V.mem_join (hf.dom hs) (hf.dom ht), hf.mem hs, hf.mem ht, ← exists_or]
  exact exists_congr fun a => by rw [V.mem_join hs ht, or_and_right]

/-- The step of a relation preserves the empty set. -/
theorem isEmpty (hf : Induced V f R) (hs : V.Dom s) (h : JoinSet.isEmpty s = true) :
    JoinSet.isEmpty (f s) = true := by
  rw [V.isEmpty_iff (hf.dom hs)]
  intro b hb
  obtain ⟨a, ha, -⟩ := (hf.mem hs).1 hb
  exact (V.isEmpty_iff hs).1 h a ha

theorem shows (hf : Induced V f R) (h : V.Shows s P) : V.Shows (f s) (Image R P) :=
  ⟨hf.dom h.1, fun _ => (hf.mem h.1).trans (exists_congr fun a => and_congr_left fun _ => h.2 a)⟩

/-- What `k` applications of the step give is what `k` steps of the relation lead to. -/
theorem shows_iterate (hf : Induced V f R) (h : V.Shows s P) (k : Nat) :
    V.Shows (f^[k] s) (Reaches R P k) := by
  induction k with
  | zero => exact h.congr fun b => reaches_zero.symm
  | succ k ih =>
    rw [Function.iterate_succ_apply']
    exact (hf.shows ih).congr fun b => reaches_succ.symm

end Induced

/-- A relation on elements of sets climbs its rank. -/
theorem Ranked.climbs (hR : Ranked V R rank bound) (hf : Induced V f R) :
    Climbs rank bound fun a b => (∃ s, V.Dom s ∧ V.Mem s a) ∧ R a b where
  stays_or_rises := by
    rintro a b ⟨-, hab⟩
    rcases Nat.eq_or_lt_of_le (hR.le hab) with heq | hlt
    · exact Or.inl (hR.eq hab heq)
    · exact Or.inr hlt
  rank_le := by
    rintro a b ⟨⟨s, hs, ha⟩, hab⟩ -
    exact hR.le_bound (hf.dom hs) ((hf.mem hs).2 ⟨a, ha, hab⟩)

/-- Elements that are not in any set make no difference to the step of a relation. -/
theorem Induced.restrict (hf : Induced V f R) :
    Induced V f fun a b => (∃ s, V.Dom s ∧ V.Mem s a) ∧ R a b where
  dom := hf.dom
  mem {s _} hs := (hf.mem hs).trans <| exists_congr fun _ => and_congr_right fun ha =>
    (and_iff_right ⟨s, hs, ha⟩).symm

/-! ### Counting -/

namespace Repetition

/-- What `min` up to `min + n` applications of `f` give, joined one after the other. -/
def tally (f : σ → σ) (input : σ) (min : Nat) : Nat → σ
  | 0 => f^[min] input
  | n + 1 => JoinSet.join (tally f input min n) (f^[min + n + 1] input)

variable {input : σ} {min n : Nat}

theorem shows_tally (hf : Induced V f R) (hinput : V.Dom input) (min n : Nat) :
    V.Shows (tally f input min n) fun b => ∃ j, j ≤ n ∧ V.Mem (f^[min + j] input) b := by
  have hiterate : ∀ k, V.Dom (f^[k] input) := fun k =>
    (hf.shows_iterate ⟨hinput, fun _ => Iff.rfl⟩ k).1
  induction n with
  | zero =>
    refine ⟨hiterate min, fun b => ⟨fun hb => ⟨0, Nat.le_refl 0, hb⟩, ?_⟩⟩
    rintro ⟨j, hj, hb⟩
    obtain rfl : j = 0 := Nat.le_zero.1 hj
    exact hb
  | succ n ih =>
    have hlast : V.Shows (f^[min + n + 1] input) (V.Mem (f^[min + n + 1] input)) :=
      ⟨hiterate _, fun _ => Iff.rfl⟩
    refine (ih.join hlast).congr fun b => ⟨?_, ?_⟩
    · rintro (⟨j, hj, hb⟩ | hb)
      · exact ⟨j, Nat.le_succ_of_le hj, hb⟩
      · exact ⟨n + 1, Nat.le_refl _, hb⟩
    · rintro ⟨j, hj, hb⟩
      rcases Nat.le_or_eq_of_le_succ hj with hle | rfl
      · exact Or.inl ⟨j, hle, hb⟩
      · exact Or.inr hb

/-- What is given by any number of applications past the least count is given by one of the first
`n`, if the rank cannot rise further than that. -/
theorem exists_le_of_mem_iterate {j : Nat} {b : α} (hf : Induced V f R)
    (hR : Ranked V R rank bound) (hinput : V.Dom input) (hn : bound ≤ n)
    (hb : V.Mem (f^[min + j] input) b) : ∃ i, i ≤ n ∧ V.Mem (f^[min + i] input) b := by
  have hmem : ∀ k, V.Mem (f^[k] input) b ↔ Reaches _ (V.Mem input) k b := fun k =>
    (hf.restrict.shows_iterate ⟨hinput, fun _ => Iff.rfl⟩ k).2 b
  have hpred : ∀ b, Reaches _ (V.Mem input) (min + n + 1) b → Reaches _ (V.Mem input) (min + n) b :=
    fun b hb => hb.pred (hR.climbs hf) (fun a ha => hR.le_bound hinput ha) (by omega)
  obtain ⟨i, hi, hb⟩ := gathers_of_reaches (gathers_of_pred hpred) ((hmem _).1 hb)
  exact ⟨i, hi, (hmem _).2 hb⟩

/-- Plain results, of which nothing is reported that matters. -/
def plainModality (ρ : Type) : Modality Id ρ where
  always x P := ∃ l, P x.run l
  pure h := ⟨[], h⟩
  bind := fun ⟨l, hx⟩ h => by
    obtain ⟨l', hq⟩ := h _ l hx
    exact ⟨l ++ l', hq⟩
  imp := fun ⟨l, hx⟩ h => ⟨l, h _ l hx⟩

/-- The step applied from `min` to `max` times, without effects. -/
def runPlain [DecidableEq σ] (input : σ) (min : Nat) (max : Option Nat) (ceiling : Nat)
    (f : σ → σ) : Repetition σ :=
  Id.run (run input min max ceiling fun set _ => pure (f set))

/-- A repetition reaches what a permitted number of applications gives, and is not cut. -/
theorem shows_runPlain [DecidableEq σ] {ceiling : Nat} (hf : Induced V f R)
    (hR : Ranked V R rank bound) (hinput : V.Dom input) (min : Nat) (max : Option Nat)
    (hceiling : bound + 2 ≤ ceiling) :
    V.Shows (runPlain input min max ceiling f).reached
        (fun b => ∃ k, Permits min max k ∧ V.Mem (f^[k] input) b) ∧
      (runPlain input min max ceiling f).cut = false := by
  have hshows : V.Shows input (V.Mem input) := ⟨hinput, fun _ => Iff.rfl⟩
  have hsettles := (hR.climbs hf).settles fun a ha => hR.le_bound hinput ha
  have hstep : ∀ set Q n, V.Shows set Q → (plainModality (Nat × σ)).always
      (pure (f set) : Id σ) (fun next l => V.Shows next _ ∧ l = [(n, view set next n min)]) :=
    fun set Q n hset => ⟨_, hf.restrict.shows hset, rfl⟩
  have hcourse : (plainModality (Nat × σ)).always _
      (Course V _ (V.Mem input) min max (bound + 1) input) :=
    always_run _ hsettles hstep hshows hceiling
  obtain ⟨_, hreached, huncut, -⟩ := hcourse
  refine ⟨hreached.congr fun b => exists_congr fun k => and_congr_right fun _ => ?_, huncut⟩
  exact ((hf.restrict.shows_iterate hshows k).2 b).symm

end Repetition

/-! ### Steps of the three kinds of sets -/

theorem OffsetSet.induced_shifted (n : Nat) :
    Induced (OffsetSet.view n) OffsetSet.shifted fun i j => j = i + 1 ∧ j < n where
  dom hs := hs
  mem := by
    rintro s j rfl
    exact OffsetSet.mem_shifted

theorem SpanSet.induced_advance (n : Nat) (hit : Nat → Bool) :
    Induced (SpanSet.view n) (SpanSet.advance · hit) fun a b =>
      b.1 = a.1 ∧ hit a.2 = true ∧ b.2 = a.2 + 1 ∧ b.2 < n where
  dom := SpanSet.sized_advance
  mem := by
    rintro t ⟨i, j⟩ ⟨rfl, -⟩
    refine SpanSet.mem_advance.trans ⟨?_, ?_⟩
    · rintro ⟨e, he, hhit, hj⟩
      exact ⟨(i, e), he, rfl, hhit, hj⟩
    · rintro ⟨⟨i, e⟩, he, rfl, hhit, hj⟩
      exact ⟨e, he, hhit, hj⟩

/-- Sets of edit states with the bounds `n`, `l` and `m`. -/
def EditStates.view (n l m : Nat) : View EditStates (Nat × Nat × Nat) where
  Dom s := s.Bounded n l m
  Mem s x := x ∈ s
  ext hs ht := ext_mem hs ht
  dom_join hs _ := hs
  mem_join hs ht := mem_union hs ht
  isEmpty_iff _ := isEmpty_iff

theorem EditStates.induced_applyDeletions (n l m q : Nat) :
    Induced (EditStates.view n l m) (EditStates.applyDeletions · q) fun x y =>
      x = y ∨ (x.2.1 = q ∧ y.2.1 = q) ∧ (y.1 ≤ n ∧ y.2.2 ≤ m) ∧
        ∃ k, y.1 = x.1 + k ∧ y.2.2 = x.2.2 + k where
  dom {_} (hs : EditStates.Bounded n l m _) := EditStates.bounded_applyDeletions hs q
  mem := by
    rintro s ⟨t, p, d⟩ (hs : s.Bounded n l m)
    refine (EditStates.mem_applyDeletions hs).trans ⟨?_, ?_⟩
    · rintro (hx | ⟨rfl, ht, hd, i, k, c, hi, rfl, rfl⟩)
      · exact ⟨_, hx, Or.inl rfl⟩
      · exact ⟨(i, p, c), hi, Or.inr ⟨⟨rfl, rfl⟩, ⟨ht, hd⟩, k, rfl, rfl⟩⟩
    · rintro ⟨⟨i, p', c⟩, hx, heq | ⟨⟨hq, rfl⟩, ⟨ht, hd⟩, k, rfl, rfl⟩⟩
      · exact Or.inl (heq ▸ hx)
      · obtain rfl : p' = p := hq
        exact Or.inr ⟨rfl, ht, hd, i, k, c, hx, rfl, rfl⟩

/-- **Repetition is counting.** Let the step be that of a relation that never lowers a rank up to
`bound` and keeps it only from an element to itself, and let the ceiling be two above `bound` or
more. Then a repetition reaches exactly the elements that a permitted number of applications gives:
it is the join of the single sets from the least count to the greatest, of the least one alone if
the greatest count is below it, and of any number of further ones, but not fewer than `bound`, if
there is no greatest count. It is never cut. -/
theorem repetition_is_counting {σ α : Type} [JoinSet σ] [DecidableEq σ] (V : View σ α) (f : σ → σ)
    (R : α → α → Prop) (rank : α → Nat) (bound : Nat) (hf : Induced V f R)
    (hR : Ranked V R rank bound) (input : σ) (hinput : V.Dom input) (min : Nat) (max : Option Nat)
    (ceiling : Nat) (hceiling : bound + 2 ≤ ceiling) :
    let r := Repetition.runPlain input min max ceiling f
    V.Dom r.reached ∧
    (∀ b, V.Mem r.reached b ↔ ∃ k, Permits min max k ∧ V.Mem (f^[k] input) b) ∧
    (∀ m ∈ max, r.reached = Repetition.tally f input min (m - min)) ∧
    (max = none → ∀ n, bound ≤ n → r.reached = Repetition.tally f input min n) ∧
    r.cut = false := by
  intro r
  obtain ⟨hr, huncut⟩ := Repetition.shows_runPlain hf hR hinput min max hceiling
  refine ⟨hr.1, hr.2, ?_, ?_, huncut⟩
  · rintro m rfl
    refine hr.eq ((Repetition.shows_tally hf hinput min (m - min)).congr fun b => ⟨?_, ?_⟩)
    · rintro ⟨j, hj, hb⟩
      exact ⟨min + j, permits_iff.2 ⟨j, rfl, fun _ he => Option.some.inj he ▸ hj⟩, hb⟩
    · rintro ⟨k, hk, hb⟩
      obtain ⟨j, rfl, hj⟩ := permits_iff.1 hk
      exact ⟨j, hj _ rfl, hb⟩
  · rintro rfl n hn
    refine hr.eq ((Repetition.shows_tally hf hinput min n).congr fun b => ⟨?_, ?_⟩)
    · rintro ⟨j, -, hb⟩
      exact ⟨min + j, permits_none.2 (Nat.le_add_right _ _), hb⟩
    · rintro ⟨k, hk, hb⟩
      obtain ⟨j, rfl⟩ := Nat.exists_eq_add_of_le (permits_none.1 hk)
      exact Repetition.exists_le_of_mem_iterate hf hR hinput hn hb

/-- Offsets below three are moved once or more, spans over the text `aab` grow by letters `a` two to
nine times, and one layer of edit states takes up deletions again and again. -/
theorem repetition_is_counting_for_all_kinds_of_sets :
    (Repetition.runPlain (.ofList 3 [0]) 1 none 4 OffsetSet.shifted).reached =
      Repetition.tally OffsetSet.shifted (.ofList 3 [0]) 1 2 ∧
    (Repetition.runPlain (SpanSet.lift (.full 4)) 2 (some 9) 5
        (SpanSet.advance · (· < 2))).reached =
      Repetition.tally (SpanSet.advance · (· < 2)) (SpanSet.lift (.full 4)) 2 7 ∧
    (Repetition.runPlain (EditStates.seeded 2 1 1) 3 (some 2) 5
        (EditStates.applyDeletions · 0)).reached =
      Repetition.tally (EditStates.applyDeletions · 0) (EditStates.seeded 2 1 1) 3 0 := by
  have hoffsets : Ranked (OffsetSet.view 3) (fun i j => j = i + 1 ∧ j < 3) (fun i => i) 2 := by
    refine ⟨fun {s i} (hs : s.size = 3) (hi : i ∈ s) => ?_, fun h => by omega, fun h => by omega⟩
    have := OffsetSet.lt_size_of_mem hi
    omega
  have hspans : Ranked (SpanSet.view 4) (fun a b => b.1 = a.1 ∧ decide (a.2 < 2) = true ∧
      b.2 = a.2 + 1 ∧ b.2 < 4) Prod.snd 3 :=
    ⟨fun ht ha => Nat.le_of_lt_succ (SpanSet.Sized.end_lt ht ha), fun h => by omega,
      fun h => by omega⟩
  have hedits : Ranked (EditStates.view 2 1 1) (fun x y => x = y ∨ (x.2.1 = 0 ∧ y.2.1 = 0) ∧
      (y.1 ≤ 2 ∧ y.2.2 ≤ 1) ∧ ∃ k, y.1 = x.1 + k ∧ y.2.2 = x.2.2 + k)
      (fun x => x.1 + x.2.2) 3 := by
    constructor
    · rintro s ⟨t, p, d⟩ (hs : s.Bounded 2 1 1) (hx : (t, p, d) ∈ s)
      obtain ⟨ht, -, hd⟩ := hs.le_of_mem hx
      exact Nat.add_le_add ht hd
    · rintro x y (rfl | ⟨-, -, k, ht, hd⟩)
      · exact Nat.le_refl _
      · omega
    · rintro ⟨i, p, d⟩ ⟨i', p', d'⟩ (hxy | ⟨⟨hp, hp'⟩, -, k, ht, hd⟩) heq
      · exact hxy
      · simp only at hp hp' ht hd heq
        obtain rfl : k = 0 := by omega
        rw [hp, hp', ht, hd, Nat.add_zero, Nat.add_zero]
  obtain ⟨-, -, -, hnone, -⟩ := repetition_is_counting _ _ _ _ _ (OffsetSet.induced_shifted 3)
    hoffsets (.ofList 3 [0]) rfl 1 none 4 (by decide)
  obtain ⟨-, -, hsome, -⟩ := repetition_is_counting _ _ _ _ _ (SpanSet.induced_advance 4 (· < 2))
    hspans (.lift (.full 4)) (SpanSet.sized_lift rfl) 2 (some 9) 5 (by decide)
  obtain ⟨-, -, hleast, -⟩ := repetition_is_counting _ _ _ _ _
    (EditStates.induced_applyDeletions 2 1 1 0) hedits (.seeded 2 1 1)
    (show (EditStates.seeded 2 1 1).Bounded 2 1 1 from EditStates.bounded_seeded) 3 (some 2) 5
    (by decide)
  exact ⟨hnone rfl 2 (by decide), hsome 9 rfl, hleast 2 rfl⟩

end PatternSweep
