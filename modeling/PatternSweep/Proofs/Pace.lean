import PatternSweep.Proofs.Iterate

/-!
# How soon the elements reached settle

Where a rank has two parts, a place and a cost, and a relation decides by the place alone whether it
may stay where it is, then what it reaches settles one step before the general bound
(`Paces.settles`). A chain with as many steps as the rank can rise either rises by less, or comes
through every place on its way. If nothing is reached after one step more, then that is settled too;
and if something is, some chain stays where it is at some place, so every chain can do so there.
-/

namespace PatternSweep

/-- Each step of `R` raises the place, up to `n` at the most, or the cost, up to `m` at the most,
and lowers neither; or it stays where it is, which depends on the place alone. -/
structure Paces {α : Type} (place cost : α → Nat) (n m : Nat) (R : α → α → Prop) : Prop
    extends Climbs (fun a => place a + cost a) (n + m) R where
  place_le : ∀ {a b}, R a b → place a ≤ place b
  cost_le : ∀ {a b}, R a b → cost a ≤ cost b
  within : ∀ {a b}, R a b → place a ≤ n → cost a ≤ m → place b ≤ n ∧ cost b ≤ m
  stay : ∀ {a b}, R a a → place b = place a → R b b

variable {α : Type} {place cost : α → Nat} {n m k : Nat} {R : α → α → Prop} {P : α → Prop}
  {a b c z : α}

/-- Without any cost, the places alone are climbed. -/
theorem Climbs.paces (hR : Climbs place n R) (h : ∀ {a b}, R a a → place b = place a → R b b) :
    Paces place (fun _ => 0) n 0 R where
  stays_or_rises := hR.stays_or_rises
  rank_le := hR.rank_le
  place_le := hR.rank_mono
  cost_le _ := Nat.le_refl 0
  within hab ha _ := ⟨hR.rank_le hab ha, Nat.le_refl 0⟩
  stay := h

section

variable (hR : Paces place cost n m R)

include hR

theorem Paces.iter_le (h : Iter R k a c) : place a ≤ place c ∧ cost a ≤ cost c := by
  induction k generalizing c with
  | zero => exact ⟨h ▸ Nat.le_refl _, h ▸ Nat.le_refl _⟩
  | succ k ih =>
    obtain ⟨b, hab, hbc⟩ := h
    obtain ⟨hplace, hcost⟩ := ih hab
    exact ⟨Nat.le_trans hplace (hR.place_le hbc), Nat.le_trans hcost (hR.cost_le hbc)⟩

theorem Paces.within_of_reaches (hP : ∀ a, P a → place a ≤ n ∧ cost a ≤ m) (h : Reaches R P k b) :
    place b ≤ n ∧ cost b ≤ m := by
  induction k generalizing b with
  | zero => exact hP b (reaches_zero.1 h)
  | succ k ih =>
    obtain ⟨a, ha, hab⟩ := reaches_succ.1 h
    exact hR.within hab (ih ha).1 (ih ha).2

/-- A chain with more steps than its rank rises stays somewhere on its way. -/
theorem Paces.exists_stay (h : Iter R k a c)
    (hk : place c + cost c < place a + cost a + k) :
    ∃ z, R z z ∧ place a ≤ place z ∧ place z ≤ place c := by
  induction k generalizing c with
  | zero =>
    obtain rfl : a = c := h
    omega
  | succ k ih =>
    obtain ⟨b, hab, hbc⟩ := h
    obtain ⟨hplace, -⟩ := hR.iter_le hab
    have hle := hR.place_le hbc
    rcases hR.stays_or_rises hbc with rfl | hlt
    · exact ⟨b, hbc, hplace, Nat.le_refl _⟩
    · obtain ⟨z, hz, haz, hzb⟩ := ih hab (by omega)
      exact ⟨z, hz, haz, Nat.le_trans hzb hle⟩

/-- A chain with as many steps as its rank rises, or more, can take one more if the relation may
stay at a place on its way: the chain comes through this place, or has a step to spare. -/
theorem Paces.lengthen (h : Iter R k a c) (hk : place c + cost c ≤ place a + cost a + k)
    (hz : R z z) (haz : place a ≤ place z) (hzc : place z ≤ place c) : Iter R (k + 1) a c := by
  induction k generalizing c with
  | zero =>
    obtain rfl : a = c := h
    exact ⟨a, rfl, hR.stay hz (Nat.le_antisymm haz hzc)⟩
  | succ k ih =>
    obtain ⟨b, hab, hbc⟩ := h
    have hcost := hR.cost_le hbc
    obtain ⟨hplace', hcost'⟩ := hR.iter_le hab
    rcases hR.stays_or_rises hbc with rfl | hlt
    · exact ⟨b, ⟨b, hab, hbc⟩, hbc⟩
    rcases Nat.lt_or_ge (place b) (place z) with hbz | hzb
    · rcases Nat.lt_or_ge (place b + cost b) (place a + cost a + k) with hspare | hfull
      · exact ⟨b, hab.lengthen hR.toClimbs (by omega), hbc⟩
      · -- the last step rises by one, so it is the one that gets to the place
        exact ⟨c, ⟨b, hab, hbc⟩, hR.stay hz (by omega)⟩
    · exact ⟨b, ih hab (by omega) hzb, hbc⟩

/-- **What is reached settles** as soon as there are as many steps as the rank can rise. -/
theorem Paces.settles (hP : ∀ a, P a → place a ≤ n ∧ cost a ≤ m) : Settles R P (n + m) := by
  have hrank : ∀ a, P a → place a + cost a ≤ n + m := by
    intro a ha
    have := hP a ha
    omega
  by_cases hnone : ∀ b, ¬Reaches R P (n + m + 1) b
  · exact Or.inl hnone
  · -- so long a chain stays somewhere, and there all chains can
    obtain ⟨c, hc⟩ := not_forall_not.1 hnone
    obtain ⟨hplace, hcost⟩ := hR.within_of_reaches hP hc
    obtain ⟨a, -, hac⟩ := hc
    obtain ⟨z, hz, -, hzc⟩ := hR.exists_stay hac (by omega)
    refine Or.inr fun b => ⟨fun hb => hb.pred hR.toClimbs hrank (Nat.le_refl _), fun hb => ?_⟩
    obtain ⟨hplace', hcost'⟩ := hR.within_of_reaches hP hb
    obtain ⟨x, hx, hxb⟩ := hb
    obtain ⟨hplacex, hcostx⟩ := hR.iter_le hxb
    refine ⟨x, hx, ?_⟩
    rcases Nat.lt_or_ge (place b + cost b) (place x + cost x + (n + m)) with hspare | hfull
    · exact hxb.lengthen hR.toClimbs (by omega)
    · exact hR.lengthen hxb (by omega) hz (by omega) (by omega)

end

end PatternSweep
