import Mathlib.Order.Basic

/-!
# Relations applied again and again

`Iter R k a b` says that `k` steps of the relation `R` lead from `a` to `b`, and `Reaches R P k b`
that they lead to `b` from some element of `P`. `Gathers R P min n b` says that at most `n` steps
past the first `min` do. `Permits min max k` says that a repetition between `min` and `max` times
may take `k` rounds.

A relation `Climbs` a rank if each of its steps raises the rank or stays where it is. A chain with
more steps than the rank can rise then has a step that stays where it is, and this step can be left
out (`Iter.shorten`) or taken twice (`Iter.lengthen`). So the elements reached no longer change once
the number of steps is past the greatest rank (`Reaches.succ_iff`): they have settled
(`Climbs.settles`).
-/

namespace PatternSweep

variable {α : Type} {R : α → α → Prop} {P : α → Prop} {a b c : α} {k n : Nat}

/-- `k` steps of `R` lead from `a` to `b`. -/
def Iter (R : α → α → Prop) : Nat → α → α → Prop
  | 0, a, b => a = b
  | k + 1, a, c => ∃ b, Iter R k a b ∧ R b c

/-- The first step can be split off as well as the last one. -/
theorem iter_succ' : Iter R (k + 1) a c ↔ ∃ b, R a b ∧ Iter R k b c := by
  induction k generalizing c with
  | zero => simp [Iter]
  | succ k ih =>
    constructor
    · rintro ⟨b, hb, hbc⟩
      obtain ⟨d, had, hdb⟩ := ih.1 hb
      exact ⟨d, had, b, hdb, hbc⟩
    · rintro ⟨d, had, b, hdb, hbc⟩
      exact ⟨b, ih.2 ⟨d, had, hdb⟩, hbc⟩

/-- `k` steps of `R` lead to `b` from some element of `P`. -/
def Reaches (R : α → α → Prop) (P : α → Prop) (k : Nat) (b : α) : Prop :=
  ∃ a, P a ∧ Iter R k a b

theorem reaches_zero : Reaches R P 0 b ↔ P b :=
  ⟨fun ⟨_, ha, h⟩ => h ▸ ha, fun h => ⟨b, h, rfl⟩⟩

theorem reaches_succ : Reaches R P (k + 1) c ↔ ∃ b, Reaches R P k b ∧ R b c := by
  constructor
  · rintro ⟨a, ha, b, hab, hbc⟩
    exact ⟨b, ⟨a, ha, hab⟩, hbc⟩
  · intro h
    obtain ⟨b, ⟨a, ha, hab⟩, hbc⟩ := h
    exact ⟨a, ha, b, hab, hbc⟩

/-- Where one step leads nowhere, no number of further steps leads anywhere. -/
theorem not_reaches_of_le (h : ∀ b, ¬Reaches R P n b) (hk : n ≤ k) : ∀ b, ¬Reaches R P k b := by
  induction hk with
  | refl => exact h
  | step _ ih =>
    intro b hb
    obtain ⟨x, hx, -⟩ := reaches_succ.1 hb
    exact ih x hx

/-- Elements that one step leaves as they are stay as they are. -/
theorem reaches_iff_of_le (h : ∀ b, Reaches R P (n + 1) b ↔ Reaches R P n b) (hk : n ≤ k) :
    ∀ b, Reaches R P k b ↔ Reaches R P n b := by
  induction hk with
  | refl => exact fun _ => Iff.rfl
  | step _ ih =>
    intro b
    rw [← h b, reaches_succ, reaches_succ]
    exact exists_congr fun x => and_congr_left fun _ => ih x

/-- What at most `n` steps past the first `min` lead to. -/
def Gathers (R : α → α → Prop) (P : α → Prop) (min n : Nat) (b : α) : Prop :=
  ∃ j, j ≤ n ∧ Reaches R P (min + j) b

theorem gathers_iff {min : Nat} :
    Gathers R P min n b ↔ ∃ k, min ≤ k ∧ k ≤ min + n ∧ Reaches R P k b := by
  constructor
  · rintro ⟨j, hj, hb⟩
    exact ⟨min + j, by omega, by omega, hb⟩
  · rintro ⟨k, hmin, hk, hb⟩
    obtain ⟨j, rfl⟩ := Nat.exists_eq_add_of_le hmin
    exact ⟨j, by omega, hb⟩

theorem gathers_zero {min : Nat} : Gathers R P min 0 b ↔ Reaches R P min b := by
  simp [Gathers]

theorem gathers_succ {min : Nat} :
    Gathers R P min (n + 1) b ↔ Gathers R P min n b ∨ ∃ a, Gathers R P min n a ∧ R a b := by
  constructor
  · rintro ⟨j, hj, hb⟩
    cases j with
    | zero => exact Or.inl ⟨0, Nat.zero_le n, hb⟩
    | succ j =>
      obtain ⟨a, ha, hab⟩ := reaches_succ.1 hb
      exact Or.inr ⟨a, ⟨j, by omega, ha⟩, hab⟩
  · intro h
    rcases h with ⟨j, hj, hb⟩ | ⟨a, ⟨j, hj, ha⟩, hab⟩
    · exact ⟨j, by omega, hb⟩
    · exact ⟨j + 1, by omega, reaches_succ.2 ⟨a, ha, hab⟩⟩

theorem gathers_of_pred {min : Nat}
    (h : ∀ b, Reaches R P (min + n + 1) b → Reaches R P (min + n) b) (b : α)
    (hb : Gathers R P min (n + 1) b) : Gathers R P min n b := by
  obtain ⟨j, hj, hb⟩ := hb
  rcases Nat.lt_or_ge n j with hlt | hle
  · obtain rfl : j = n + 1 := by omega
    exact ⟨n, Nat.le_refl n, h b hb⟩
  · exact ⟨j, hle, hb⟩

/-- Where one more step gathers nothing new, no number of further steps reaches anything new. -/
theorem gathers_of_reaches {min j : Nat} (h : ∀ b, Gathers R P min (n + 1) b → Gathers R P min n b)
    (hb : Reaches R P (min + j) b) : Gathers R P min n b := by
  induction j generalizing b with
  | zero => exact ⟨0, Nat.zero_le n, hb⟩
  | succ j ih =>
    obtain ⟨a, ha, hab⟩ := reaches_succ.1 hb
    exact h b (gathers_succ.2 (Or.inr ⟨a, ih ha, hab⟩))

/-! ### The counts a repetition may use -/

/-- A repetition between `min` and `max` times may take `k` rounds. If `max` is below `min`, it
takes `min` rounds. -/
def Permits (min : Nat) (max : Option Nat) (k : Nat) : Prop :=
  min ≤ k ∧ (k = min ∨ ∀ m ∈ max, k ≤ m)

instance (min : Nat) (max : Option Nat) (k : Nat) : Decidable (Permits min max k) :=
  inferInstanceAs (Decidable (_ ∧ _))

/-- A greatest count below the least one permits the least count and no other. -/
example : Permits 2 (some 1) 2 ∧ ¬Permits 2 (some 1) 3 := by decide

/-- The rounds past the least count, as they are counted while a repetition runs. -/
theorem permits_iff {min k : Nat} {max : Option Nat} :
    Permits min max k ↔ ∃ j, k = min + j ∧ ∀ e ∈ max.map (· - min), j ≤ e := by
  constructor
  · rintro ⟨hk, h⟩
    refine ⟨k - min, by omega, fun e he => ?_⟩
    obtain ⟨m, hm, rfl⟩ := Option.map_eq_some_iff.1 he
    cases h with
    | inl h => omega
    | inr h =>
      have := h m hm
      omega
  · rintro ⟨j, rfl, h⟩
    refine ⟨by omega, ?_⟩
    by_cases hj : j = 0
    · exact Or.inl (by omega)
    · refine Or.inr fun m hm => ?_
      have := h (m - min) (Option.map_eq_some_iff.2 ⟨m, hm, rfl⟩)
      omega

theorem permits_none {min k : Nat} : Permits min none k ↔ min ≤ k := by
  simp [Permits]

theorem permits_some {min max k : Nat} (h : min ≤ max) :
    Permits min (some max) k ↔ min ≤ k ∧ k ≤ max := by
  simp only [Permits, Option.mem_some_iff, forall_eq']
  omega

/-! ### Relations that climb a rank -/

/-- Each step of `R` raises the rank, up to `bound` at the most, or stays where it is. -/
structure Climbs (rank : α → Nat) (bound : Nat) (R : α → α → Prop) : Prop where
  stays_or_rises : ∀ {a b}, R a b → a = b ∨ rank a < rank b
  rank_le : ∀ {a b}, R a b → rank a ≤ bound → rank b ≤ bound

section

variable {rank : α → Nat} {bound : Nat} {S : α → α → Prop}

theorem climbs_eq : Climbs rank bound (· = ·) where
  stays_or_rises h := Or.inl h
  rank_le h ha := h ▸ ha

theorem Climbs.mono (hR : Climbs rank bound R) (h : ∀ {a b}, S a b → R a b) :
    Climbs rank bound S where
  stays_or_rises hS := hR.stays_or_rises (h hS)
  rank_le hS := hR.rank_le (h hS)

theorem Climbs.or (hR : Climbs rank bound R) (hS : Climbs rank bound S) :
    Climbs rank bound fun a b => R a b ∨ S a b where
  stays_or_rises h := h.elim hR.stays_or_rises hS.stays_or_rises
  rank_le h := h.elim hR.rank_le hS.rank_le

theorem Climbs.comp (hR : Climbs rank bound R) (hS : Climbs rank bound S) :
    Climbs rank bound fun a c => ∃ b, R a b ∧ S b c where
  stays_or_rises := by
    rintro a c ⟨b, hab, hbc⟩
    rcases hR.stays_or_rises hab with rfl | hlt
    · exact hS.stays_or_rises hbc
    · rcases hS.stays_or_rises hbc with rfl | hlt'
      · exact Or.inr hlt
      · exact Or.inr (Nat.lt_trans hlt hlt')
  rank_le := by
    rintro a c ⟨b, hab, hbc⟩ ha
    exact hS.rank_le hbc (hR.rank_le hab ha)

theorem Climbs.iter (hR : Climbs rank bound R) (k : Nat) : Climbs rank bound (Iter R k) := by
  induction k with
  | zero => exact climbs_eq
  | succ k ih => exact ih.comp hR

/-- Any number of steps, if each number climbs. -/
theorem Climbs.union {T : Nat → α → α → Prop} (h : ∀ k, Climbs rank bound (T k))
    (q : Nat → Prop) : Climbs rank bound fun a b => ∃ k, q k ∧ T k a b where
  stays_or_rises := fun ⟨k, _, hk⟩ => (h k).stays_or_rises hk
  rank_le := fun ⟨k, _, hk⟩ => (h k).rank_le hk

end

section

variable {rank : α → Nat} {bound : Nat} (hR : Climbs rank bound R)

include hR

theorem Climbs.rank_mono (h : R a b) : rank a ≤ rank b := by
  cases hR.stays_or_rises h with
  | inl heq => exact Nat.le_of_eq (congrArg rank heq)
  | inr hlt => exact Nat.le_of_lt hlt

theorem Climbs.rank_le_of_reaches (hP : ∀ a, P a → rank a ≤ bound) (h : Reaches R P k b) :
    rank b ≤ bound := by
  induction k generalizing b with
  | zero => exact hP b (reaches_zero.1 h)
  | succ k ih =>
    obtain ⟨x, hx, hxb⟩ := reaches_succ.1 h
    exact hR.rank_le hxb (ih hx)

/-- A chain with more steps than its rank rises has one to spare. -/
theorem Iter.shorten (h : Iter R (k + 1) a c) (hk : rank c - rank a < k + 1) : Iter R k a c := by
  induction k generalizing c with
  | zero =>
    obtain ⟨b, rfl, hbc⟩ := h
    cases hR.stays_or_rises hbc with
    | inl heq => exact heq
    | inr hlt => omega
  | succ k ih =>
    obtain ⟨b, hab, hbc⟩ := h
    rcases hR.stays_or_rises hbc with rfl | hlt
    · exact hab
    · -- the last step rises, so it is among the steps before it that one can be spared
      have := (hR.iter _).rank_mono hab
      exact ⟨b, ih hab (by omega), hbc⟩

/-- A chain with more steps than its rank rises can take one more. -/
theorem Iter.lengthen (h : Iter R k a c) (hk : rank c - rank a < k) : Iter R (k + 1) a c := by
  induction k generalizing c with
  | zero => omega
  | succ k ih =>
    obtain ⟨b, hab, hbc⟩ := h
    rcases hR.stays_or_rises hbc with rfl | hlt
    · -- a step that stays where it is can be taken twice
      exact ⟨b, ⟨b, hab, hbc⟩, hbc⟩
    · have := (hR.iter _).rank_mono hab
      exact ⟨b, ih hab (by omega), hbc⟩

variable (hP : ∀ a, P a → rank a ≤ bound)

include hP

theorem Reaches.pred (h : Reaches R P (k + 1) b) (hk : bound ≤ k) : Reaches R P k b := by
  have hb : rank b ≤ bound := hR.rank_le_of_reaches hP h
  obtain ⟨a, ha, hab⟩ := h
  exact ⟨a, ha, hab.shorten hR (by omega)⟩

/-- Past the greatest rank a further step changes nothing. -/
theorem Reaches.succ_iff (hk : bound < k) : Reaches R P (k + 1) b ↔ Reaches R P k b := by
  refine ⟨fun h => h.pred hR hP (by omega), fun h => ?_⟩
  have hb : rank b ≤ bound := hR.rank_le_of_reaches hP h
  obtain ⟨a, ha, hab⟩ := h
  exact ⟨a, ha, hab.lengthen hR (by omega)⟩

end

/-! ### The elements reached settle -/

/-- After `top` steps and one more either nothing is reached or the same as before. -/
def Settles (R : α → α → Prop) (P : α → Prop) (top : Nat) : Prop :=
  (∀ b, ¬Reaches R P (top + 1) b) ∨ ∀ b, Reaches R P (top + 1) b ↔ Reaches R P top b

section

variable {top : Nat}

/-- From then on further steps reach nothing new. -/
theorem Settles.pred (h : Settles R P top) (hk : top ≤ k) (hb : Reaches R P (k + 1) b) :
    Reaches R P k b := by
  rcases h with hnone | hsame
  · exact (not_reaches_of_le hnone (Nat.succ_le_succ hk) b hb).elim
  · exact (reaches_iff_of_le hsame hk b).2 ((reaches_iff_of_le hsame (Nat.le_succ_of_le hk) b).1 hb)

theorem Climbs.settles {rank : α → Nat} {bound : Nat} (hR : Climbs rank bound R)
    (hP : ∀ a, P a → rank a ≤ bound) : Settles R P (bound + 1) :=
  Or.inr fun _ => Reaches.succ_iff hR hP (Nat.lt_succ_self bound)

end

end PatternSweep
