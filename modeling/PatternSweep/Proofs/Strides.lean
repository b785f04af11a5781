import PatternSweep.Proofs.EditSweeps
import PatternSweep.Proofs.Pace

/-!
# Sweeps with edits on any axis

A sweep with edits need not be given the layout of its own pattern, an axis as long as the pattern,
or states on one layer alone. `p.Strides text l m layout entry x y` says in general what it makes of
a state: entered at `entry` on an axis of the length `l`, where `layout` says how long the parts of
`p` are, it leads from the state `x` to the state `y` (`Sweep.carries_edits`). Parts beyond the
end of the axis lead nowhere, a part without a layout is left out, and a state that no part reads
stays where it is.

Along the way neither the text offset nor the distance ever falls, and whether a state may stay
where it is does not depend on its distance (`Pattern.advances_strides`). So the rounds of a
repetition keep a pace, whatever the layout says (`Pattern.paces_rewound`).
-/

namespace PatternSweep

/-! ### Relations that advance -/

/-- `R` leads to no earlier text offset and to no smaller distance. Where it changes either, it
keeps within `n` and `m`, and where it changes neither, it does so at every distance. -/
structure Advances (n m : Nat) (R : Nat × Nat → Nat × Nat → Prop) : Prop where
  text_le : ∀ {u v}, R u v → u.1 ≤ v.1
  edits_le : ∀ {u v}, R u v → u.2 ≤ v.2
  stays_or_within : ∀ {u v}, R u v → u = v ∨ v.1 ≤ n ∧ v.2 ≤ m
  stay : ∀ {t d}, R (t, d) (t, d) → ∀ e, R (t, e) (t, e)

namespace Advances

variable {n m : Nat} {R S : Nat × Nat → Nat × Nat → Prop}

theorem eq : Advances n m (· = ·) where
  text_le h := h ▸ Nat.le_refl _
  edits_le h := h ▸ Nat.le_refl _
  stays_or_within := Or.inl
  stay _ _ := rfl

theorem false : Advances n m fun _ _ => False where
  text_le h := h.elim
  edits_le h := h.elim
  stays_or_within h := h.elim
  stay h := h.elim

theorem or (hR : Advances n m R) (hS : Advances n m S) : Advances n m fun u v => R u v ∨ S u v where
  text_le h := h.elim hR.text_le hS.text_le
  edits_le h := h.elim hR.edits_le hS.edits_le
  stays_or_within h := h.elim hR.stays_or_within hS.stays_or_within
  stay h e := h.imp (fun h => hR.stay h e) fun h => hS.stay h e

/-- Nothing comes between two states with the same text offset and distance but such a state. -/
theorem eq_of_comp (hR : Advances n m R) (hS : Advances n m S) {u v : Nat × Nat} (h : R u v)
    (h' : S v u) : v = u :=
  Prod.ext (Nat.le_antisymm (hS.text_le h') (hR.text_le h))
    (Nat.le_antisymm (hS.edits_le h') (hR.edits_le h))

theorem comp (hR : Advances n m R) (hS : Advances n m S) :
    Advances n m fun u w => ∃ v, R u v ∧ S v w where
  text_le := fun ⟨_, h, h'⟩ => Nat.le_trans (hR.text_le h) (hS.text_le h')
  edits_le := fun ⟨_, h, h'⟩ => Nat.le_trans (hR.edits_le h) (hS.edits_le h')
  stays_or_within := by
    rintro u w ⟨v, h, h'⟩
    rcases hS.stays_or_within h' with rfl | hw
    · exact hR.stays_or_within h
    · exact Or.inr hw
  stay := by
    rintro t d ⟨v, h, h'⟩ e
    obtain rfl := hR.eq_of_comp hS h h'
    exact ⟨(t, e), hR.stay h e, hS.stay h' e⟩

theorem union {ι : Type} {T : ι → Nat × Nat → Nat × Nat → Prop} (h : ∀ k, Advances n m (T k))
    (q : ι → Prop) : Advances n m fun u v => ∃ k, q k ∧ T k u v where
  text_le := fun ⟨k, _, hk⟩ => (h k).text_le hk
  edits_le := fun ⟨k, _, hk⟩ => (h k).edits_le hk
  stays_or_within := fun ⟨k, _, hk⟩ => (h k).stays_or_within hk
  stay := fun ⟨k, hq, hk⟩ e => ⟨k, hq, (h k).stay hk e⟩

theorem iter (hR : Advances n m R) (k : Nat) : Advances n m (Iter R k) := by
  induction k with
  | zero => exact eq
  | succ k ih => exact ih.comp hR

/-- Starts may be left out, by their text offset. -/
theorem filter (hR : Advances n m R) (q : Nat → Prop) : Advances n m fun u v => q u.1 ∧ R u v where
  text_le h := hR.text_le h.2
  edits_le h := hR.edits_le h.2
  stays_or_within h := hR.stays_or_within h.2
  stay h e := ⟨h.1, hR.stay h.2 e⟩

theorem congr (hR : Advances n m R) (h : ∀ u v, R u v ↔ S u v) : Advances n m S := by
  obtain rfl : R = S := funext fun u => funext fun v => propext (h u v)
  exact hR

/-- What advances keeps a pace, with the text offset as the place and the distance as the cost. -/
theorem paces (hR : Advances n m R) : Paces Prod.fst Prod.snd n m R where
  stays_or_rises := by
    intro u v h
    have htext := hR.text_le h
    have hedits := hR.edits_le h
    by_cases hsum : u.1 + u.2 < v.1 + v.2
    · exact Or.inr hsum
    · exact Or.inl (Prod.ext (by omega) (by omega))
  rank_le := by
    intro u v h hu
    rcases hR.stays_or_within h with rfl | ⟨htext, hedits⟩
    · exact hu
    · exact Nat.add_le_add htext hedits
  place_le := hR.text_le
  cost_le := hR.edits_le
  within := by
    intro u v h htext hedits
    rcases hR.stays_or_within h with rfl | hv
    · exact ⟨htext, hedits⟩
    · exact hv
  stay := by
    rintro ⟨t, d⟩ ⟨t', e⟩ h (rfl : t' = t)
    exact hR.stay h e

end Advances

/-! ### Strides -/

/-- `T` between states at the offsets `entry` and `exit` of the axis. -/
def Between (T : Nat × Nat × Nat → Nat × Nat × Nat → Prop) (entry exit : Nat) (u v : Nat × Nat) :
    Prop :=
  T (u.1, entry, u.2) (v.1, exit, v.2)

/-- `R` from the layer at `entry` to the layer at `exit`, if both are on the axis. -/
def Across (l entry exit : Nat) (R : Nat × Nat → Nat × Nat → Prop) (x y : Nat × Nat × Nat) : Prop :=
  (x.2.1 = entry ∧ entry ≤ l) ∧ (y.2.1 = exit ∧ exit ≤ l) ∧ R (x.1, x.2.2) (y.1, y.2.2)

/-- `T` from the layer at `entry` to the layer at `exit` and back to `entry`, if that is on the
axis. -/
def Rewound (l entry exit : Nat) (T : Nat × Nat × Nat → Nat × Nat × Nat → Prop) (u v : Nat × Nat) :
    Prop :=
  entry ≤ l ∧ Between T entry exit u v

namespace Pattern

mutual

/-- The pattern, laid out from `entry` on, leads from one state to another. -/
def Strides (text : List Char) (l m : Nat) :
    Pattern → Layout → Nat → Nat × Nat × Nat → Nat × Nat × Nat → Prop
  | .atom a, _, entry => Across l entry (entry + 1) (Walks text m (.atom a))
  | .seq ps, layout, entry => StridesAll text l m ps layout.children entry
  | .alt ps, layout, entry => StridesAny text l m ps layout.children entry (entry + layout.length)
  | .repeated e min max, layout, entry =>
    Across l entry (entry + (layout.child 0).length) fun u v => ∃ k, Permits min max k ∧
      Iter (Rewound l entry (entry + (layout.child 0).length)
        (Strides text l m e (layout.child 0) entry)) k u v
  | .ahead positive c p, layout, entry => fun x y => (x.2.1 = entry ∧ entry ≤ l) ∧
    Passes (Matches text c) positive x.1 ∧ Strides text l m p (layout.child 1) entry x y

/-- The patterns lead on one after the other, as far as there are layouts. -/
def StridesAll (text : List Char) (l m : Nat) :
    List Pattern → List Layout → Nat → Nat × Nat × Nat → Nat × Nat × Nat → Prop
  | p :: ps, layout :: layouts, entry => fun x z => ∃ y, Strides text l m p layout entry x y ∧
    StridesAll text l m ps layouts (entry + layout.length) y z
  | _, _, _ => fun x y => x = y

/-- One of the patterns leads to its end, which is moved to `exit`. -/
def StridesAny (text : List Char) (l m : Nat) :
    List Pattern → List Layout → (entry exit : Nat) → Nat × Nat × Nat → Nat × Nat × Nat → Prop
  | p :: ps, layout :: layouts, entry, exit => fun x y =>
    (y.2.1 = exit ∧ exit ≤ l ∧
      Strides text l m p layout entry x (y.1, entry + layout.length, y.2.2)) ∨
    StridesAny text l m ps layouts entry exit x y
  | _, _, _, _ => fun _ _ => False

end

end Pattern

namespace Advances

variable {n m l entry exit a b : Nat} {R : Nat × Nat → Nat × Nat → Prop}
  {T U : Nat × Nat × Nat → Nat × Nat × Nat → Prop}

theorem between_eq : Advances n m (Between (· = ·) a b) := by
  refine (eq.filter fun _ => a = b).congr fun u v => ⟨?_, ?_⟩
  · rintro ⟨rfl, rfl⟩
    rfl
  · intro h
    obtain ⟨htext, haxis, hedits⟩ : u.1 = v.1 ∧ a = b ∧ u.2 = v.2 := by
      simpa only [Between, Prod.mk.injEq] using h
    exact ⟨haxis, Prod.ext htext hedits⟩

theorem between_across (hR : Advances n m R) :
    Advances n m (Between (Across l entry exit R) a b) :=
  ((hR.filter fun _ => b = exit ∧ exit ≤ l).filter fun _ => a = entry ∧ entry ≤ l).congr
    fun _ _ => Iff.rfl

theorem between_comp (hT : ∀ b, Advances n m (Between T a b))
    (hU : ∀ a, Advances n m (Between U a b)) :
    Advances n m (Between (fun x z => ∃ y, T x y ∧ U y z) a b) := by
  refine (union (fun c => (hT c).comp (hU c)) fun _ => True).congr fun u w => ⟨?_, ?_⟩
  · rintro ⟨c, -, v, hT, hU⟩
    exact ⟨(v.1, c, v.2), hT, hU⟩
  · rintro ⟨⟨t, c, d⟩, hT, hU⟩
    exact ⟨c, trivial, (t, d), hT, hU⟩

end Advances

namespace Pattern

section

variable {text : List Char} {l m : Nat} {ps : List Pattern}
  (h : ∀ p ∈ ps, ∀ layout entry a b,
    Advances text.length m (Between (Strides text l m p layout entry) a b))

include h

theorem advances_stridesAll (layouts : List Layout) (entry a b : Nat) :
    Advances text.length m (Between (StridesAll text l m ps layouts entry) a b) := by
  induction ps generalizing layouts entry a with
  | nil =>
    unfold StridesAll
    exact .between_eq
  | cons p ps ih =>
    cases layouts with
    | nil =>
      unfold StridesAll
      exact .between_eq
    | cons layout layouts =>
      unfold StridesAll
      exact .between_comp (fun c => h p (by simp) layout entry a c)
        fun c => ih (fun q hq => h q (List.mem_cons_of_mem _ hq)) layouts _ c

theorem advances_stridesAny (layouts : List Layout) (entry exit a b : Nat) :
    Advances text.length m (Between (StridesAny text l m ps layouts entry exit) a b) := by
  induction ps generalizing layouts with
  | nil =>
    unfold StridesAny
    exact .false
  | cons p ps ih =>
    cases layouts with
    | nil =>
      unfold StridesAny
      exact .false
    | cons layout layouts =>
      unfold StridesAny
      have hp := h p (by simp) layout entry a (entry + layout.length)
      have hmoved := (hp.filter fun _ => exit ≤ l).filter fun _ => b = exit
      refine .or (hmoved.congr fun _ _ => Iff.rfl) ?_
      exact ih (fun q hq => h q (List.mem_cons_of_mem _ hq)) layouts

end

theorem advances_walks_atom (text : List Char) (m : Nat) (c : Atom) :
    Advances text.length m (Walks text m (.atom c)) where
  text_le := fun ⟨⟨_, huses⟩, _⟩ => Nat.le_trans (Nat.le_add_right _ _) huses.le.1
  edits_le := fun ⟨⟨_, huses⟩, _⟩ => Nat.le_trans (Nat.le_add_right _ _) huses.le.2
  stays_or_within := fun ⟨_, hreach⟩ => Or.inr hreach
  stay := by
    rintro t d ⟨⟨k, huses⟩, -⟩
    -- an atom always gets further
    rcases huses with ⟨h, -⟩ | h | h <;> have := Prod.mk.inj h <;> omega

/-- Neither the text offset nor the distance ever falls, whatever the layout is. -/
theorem advances_strides (text : List Char) (l m : Nat) (p : Pattern) (layout : Layout)
    (entry a b : Nat) : Advances text.length m (Between (p.Strides text l m layout entry) a b) := by
  induction p using Pattern.induct generalizing layout entry a b with
  | atom c =>
    unfold Strides
    exact (advances_walks_atom text m c).between_across
  | seq ps ih =>
    unfold Strides
    exact advances_stridesAll ih layout.children entry a b
  | alt ps ih =>
    unfold Strides
    exact advances_stridesAny ih layout.children entry _ a b
  | repeated e min max ih =>
    unfold Strides
    refine .between_across (.union (fun k => Advances.iter ?_ k) _)
    exact (ih _ _ _ _).filter fun _ => entry ≤ l
  | ahead positive c p _ ih =>
    unfold Strides
    exact (((ih _ _ a b).filter (Passes (c.Matches text) positive)).filter
      fun _ => a = entry ∧ entry ≤ l).congr fun _ _ => Iff.rfl

/-- The rounds of a repetition keep a pace. -/
theorem paces_rewound (text : List Char) (l m : Nat) (p : Pattern) (layout : Layout)
    (entry exit : Nat) : Paces Prod.fst Prod.snd text.length m
      (Rewound l entry exit (p.Strides text l m layout entry)) :=
  ((advances_strides text l m p layout entry entry exit).filter fun _ => entry ≤ l).paces

end Pattern

/-! ### Sweeps -/

namespace EditStates

variable {s : EditStates} {n l m entry source target : Nat} {P : Nat × Nat → Prop}
  {Q : Nat × Nat × Nat → Prop}

/-- Sets of states with the bounds `n`, `l` and `m`, seen by their members. -/
def stateView (n l m : Nat) : View EditStates (Nat × Nat × Nat) where
  Dom s := s.Bounded n l m
  Mem s x := x ∈ s
  ext := ext_mem
  dom_join hs _ := hs
  mem_join hs hu := mem_union hs hu
  isEmpty_iff _ := isEmpty_iff

/-- Moving a layer leaves the states of this layer alone, if they still are on the axis. -/
theorem shows_layer (h : (stateView n l m).Shows s Q) (source target : Nat) :
    (layerView n l m target).Shows (s.relocate source target)
      fun u => target ≤ l ∧ Q (u.1, source, u.2) := by
  obtain ⟨hbounded, hmem⟩ := h
  refine ⟨⟨bounded_relocate hbounded _ _, fun t p d hx => (mem_relocate.1 hx).1⟩, fun u => ?_⟩
  show (u.1, target, u.2) ∈ s.relocate source target ↔ _
  rw [mem_relocate, hbounded.2.1]
  exact (and_iff_right rfl).trans (and_congr_right fun _ => hmem _)

/-- A layer is a set of states. -/
theorem shows_states (h : (layerView n l m entry).Shows s P) :
    (stateView n l m).Shows s fun x => x.2.1 = entry ∧ P (x.1, x.2.2) := by
  obtain ⟨⟨hbounded, hlayer⟩, hmem⟩ := h
  refine ⟨hbounded, ?_⟩
  rintro ⟨t, p, d⟩
  show (t, p, d) ∈ s ↔ _
  constructor
  · intro hx
    obtain rfl := hlayer t p d hx
    exact ⟨rfl, (hmem (t, d)).1 hx⟩
  · rintro ⟨rfl, hP⟩
    exact (hmem (t, d)).2 hP

theorem relocate_relocate (s : EditStates) (entry : Nat) :
    (s.relocate entry entry).relocate entry entry = s.relocate entry entry := by
  refine ext_mem ⟨rfl, rfl, rfl⟩ ⟨rfl, rfl, rfl⟩ ?_
  rintro ⟨t, p, d⟩
  rw [mem_relocate, mem_relocate, mem_relocate]
  constructor
  · rintro ⟨hp, hentry, -, -, hx⟩
    exact ⟨hp, hentry, hx⟩
  · rintro ⟨hp, hentry, hx⟩
    exact ⟨hp, hentry, rfl, hentry, hx⟩

/-! ### Beyond the end of the axis -/

section

variable {output : EditStates} {x : Nat × Nat × Nat} {exit e : Nat}

theorem mem_insertPlane_of_lt (h : output.patternLength < exit) (offsets : OffsetSet) :
    x ∈ output.insertPlane exit e offsets ↔ x ∈ output := by
  obtain ⟨t, p, d⟩ := x
  rw [mem_insertPlane]
  refine or_iff_left ?_
  rintro ⟨-, -, -, -, hexit, -⟩
  exact Nat.not_lt.2 hexit h

theorem mem_atomPlane_of_lt (h : output.patternLength < exit) (plane hits : OffsetSet) :
    x ∈ Sweep.atomPlane exit e plane hits output ↔ x ∈ output := by
  unfold Sweep.atomPlane
  simp only
  split
  · have hmatched : (output.insertPlane exit e hits.shifted).patternLength < exit := h
    exact (mem_insertPlane_of_lt (by exact hmatched) _).trans
      ((mem_insertPlane_of_lt hmatched _).trans (mem_insertPlane_of_lt h _))
  · exact mem_insertPlane_of_lt h _

theorem mem_foldl_atomPlane_of_lt (hit : OffsetSet → OffsetSet) (planes : List (Nat × OffsetSet))
    (houtput : output.Bounded n l m) (h : l < exit) :
    (planes.foldl (fun out r => Sweep.atomPlane exit r.1 r.2 (hit r.2) out) output).Bounded n l m ∧
      ∀ x, x ∈ planes.foldl (fun out r => Sweep.atomPlane exit r.1 r.2 (hit r.2) out) output ↔
        x ∈ output := by
  induction planes generalizing output with
  | nil => exact ⟨houtput, fun _ => Iff.rfl⟩
  | cons r planes ih =>
    obtain ⟨hbounded, hmem⟩ := ih (bounded_atomPlane houtput r.2 (hit r.2) exit r.1)
    refine ⟨hbounded, fun x => (hmem x).trans (mem_atomPlane_of_lt ?_ _ _)⟩
    rw [houtput.2.1]
    exact h

end

end EditStates

namespace Sweep

open EditStates

variable {s : Sweep} {text : List Char} {l m entry exit : Nat} {f : EditStates → Run EditStates}
  {R : Nat × Nat → Nat × Nat → Prop} {T : Nat × Nat × Nat → Nat × Nat × Nat → Prop}

/-- On an axis of the length `l` and with at most `m` edits, `f` realises `T` between states. -/
abbrev Carries (s : Sweep) (text : List Char) (l m : Nat) (f : EditStates → Run EditStates)
    (T : Nat × Nat × Nat → Nat × Nat × Nat → Prop) : Prop :=
  Realises s.subject (stateView text.length l m) (stateView text.length l m) f T

/-- What is done from layer to layer, done to the layer at `entry`. -/
theorem Crosses.carries (h : s.Crosses text l m entry exit f fun u v => exit ≤ l ∧ R u v) :
    s.Carries text l m (fun state => f (state.relocate entry entry)) (Across l entry exit R) := by
  intro input Q hinput
  refine (h _ _ (shows_layer hinput entry entry)).imp fun out hout => (shows_states hout).congr ?_
  rintro ⟨t, p, d⟩
  constructor
  · rintro ⟨hp, u, ⟨hentry, hQ⟩, hexit, hR⟩
    exact ⟨(u.1, entry, u.2), hQ, ⟨rfl, hentry⟩, ⟨hp, hexit⟩, hR⟩
  · rintro ⟨⟨i, q, e⟩, hQ, ⟨rfl, hentry⟩, ⟨hp, hexit⟩, hR⟩
    exact ⟨hp, (i, e), ⟨hentry, hQ⟩, hexit, hR⟩

/-- What is done to states, done to a layer and rewound. -/
theorem Carries.rewound (h : s.Carries text l m f T) (entry exit : Nat) :
    s.Crosses text l m entry entry (fun set => do return (← f set).relocate exit entry)
      (Rewound l entry exit T) := by
  intro input P hinput
  refine (h _ _ (shows_states hinput)).bind fun out hout => Yields.pure ?_
  refine (shows_layer hout exit entry).congr fun v => ?_
  constructor
  · rintro ⟨hentry, ⟨t, p, d⟩, ⟨rfl, hP⟩, hT⟩
    exact ⟨(t, d), hP, hentry, hT⟩
  · rintro ⟨u, hP, hentry, hT⟩
    exact ⟨hentry, (u.1, entry, u.2), ⟨rfl, hP⟩, hT⟩

/-- What is done to states, with one layer of the result moved and the others left out. -/
theorem Carries.relocate (h : s.Carries text l m f T) (source target : Nat) :
    s.Carries text l m (fun state => do return (← f state).relocate source target) fun x y =>
      y.2.1 = target ∧ target ≤ l ∧ T x (y.1, source, y.2.2) := by
  intro input P hinput
  refine (h _ _ hinput).bind fun out hout => Yields.pure ?_
  refine (shows_states (shows_layer hout source target)).congr fun y => ?_
  constructor
  · rintro ⟨hy, htarget, x, hP, hT⟩
    exact ⟨x, hP, hy, htarget, hT⟩
  · rintro ⟨x, hP, hy, htarget, hT⟩
    exact ⟨hy, htarget, x, hP, hT⟩

/-- What is done to a layer, with the result moved to another one. -/
theorem Crosses.relocate (h : s.Crosses text l m entry entry f R) (exit : Nat) :
    s.Crosses text l m entry exit (fun set => do return (← f set).relocate entry exit) fun u v =>
      exit ≤ l ∧ R u v := by
  intro input P hinput
  refine (h _ _ hinput).bind fun out hout => Yields.pure ?_
  refine (shows_layer (shows_states hout) entry exit).congr fun v => ?_
  constructor
  · rintro ⟨hexit, -, u, hP, hR⟩
    exact ⟨u, hP, hexit, hR⟩
  · rintro ⟨u, hP, hexit, hR⟩
    exact ⟨hexit, rfl, u, hP, hR⟩

/-! ### Patterns -/

theorem crosses_atomEdits_any (hs : s.subject.Over text) (a : Atom) (entry : Nat) :
    s.Crosses text l m entry (entry + 1) (fun state => s.atomEdits a state entry)
      fun u v => entry + 1 ≤ l ∧ (Pattern.atom a).Walks text m u v := by
  by_cases hexit : entry + 1 ≤ l
  · exact (crosses_atomEdits hs a hexit).congr fun u v => (and_iff_right hexit).symm
  · intro input P hinput
    unfold atomEdits
    refine yields_atomMask.bind fun mask hmask => Yields.pure ?_
    subst hmask
    -- the exit is beyond the axis, so nothing is added to the empty output
    obtain ⟨hbounded, hmem⟩ := mem_foldl_atomPlane_of_lt (s.subject.picked a)
      (((input.relocate entry entry).applyDeletions entry).layer entry)
      (bounded_emptyLike hinput.1.1) (Nat.lt_of_not_le hexit)
    have hnone : ∀ x, x ∉ _ := fun x hx => not_mem_emptyLike ((hmem x).1 hx)
    refine ⟨⟨hbounded, fun t p d hx => (hnone _ hx).elim⟩, fun v => iff_of_false (hnone _) ?_⟩
    rintro ⟨u, -, hle, -⟩
    exact hexit hle

theorem atomEdits_relocate (s : Sweep) (a : Atom) (state : EditStates) (entry : Nat) :
    s.atomEdits a (state.relocate entry entry) entry = s.atomEdits a state entry := by
  unfold atomEdits
  rw [relocate_relocate]
  rfl

theorem carries_seqEdits {ps : List Pattern}
    (h : ∀ p ∈ ps, ∀ layout entry, s.Carries text l m (fun state => s.edits p layout state entry)
      (p.Strides text l m layout entry)) (layouts : List Layout) (entry : Nat) :
    s.Carries text l m (fun state => s.seqEdits ps layouts state entry)
      (Pattern.StridesAll text l m ps layouts entry) := by
  induction ps generalizing layouts entry with
  | nil =>
    simp only [seqEdits, Pattern.StridesAll]
    exact Realises.pure
  | cons p ps ih =>
    cases layouts with
    | nil =>
      simp only [seqEdits, Pattern.StridesAll]
      exact Realises.pure
    | cons layout layouts =>
      simp only [seqEdits, Pattern.StridesAll]
      exact (h p (by simp) layout entry).bind
        (ih (fun q hq => h q (List.mem_cons_of_mem _ hq)) layouts _)

theorem carries_altEdits {ps : List Pattern} {input output : EditStates}
    {P Q : Nat × Nat × Nat → Prop} (exit : Nat)
    (h : ∀ p ∈ ps, ∀ layout entry, s.Carries text l m (fun state => s.edits p layout state entry)
      (p.Strides text l m layout entry)) (layouts : List Layout)
    (hinput : (stateView text.length l m).Shows input P)
    (houtput : (stateView text.length l m).Shows output Q) :
    Yields s.subject (s.altEdits ps layouts input entry exit output)
      ((stateView text.length l m).Shows · fun y => Q y ∨
        Image (Pattern.StridesAny text l m ps layouts entry exit) P y) := by
  have hnone : ∀ (Q : Nat × Nat × Nat → Prop) y, Q y ↔ Q y ∨ Image (fun _ _ => False) P y :=
    fun _ _ => (or_iff_left fun ⟨_, _, h⟩ => h).symm
  induction ps generalizing layouts output Q with
  | nil =>
    simp only [altEdits, Pattern.StridesAny]
    exact Yields.pure (houtput.congr (hnone Q))
  | cons p ps ih =>
    cases layouts with
    | nil =>
      simp only [altEdits, Pattern.StridesAny]
      exact Yields.pure (houtput.congr (hnone Q))
    | cons layout layouts =>
      have hbranch := (h p (by simp) layout entry).relocate (entry + layout.length) exit
      have hrest := hbranch.join (fun _ _ => Iff.rfl) hinput houtput fun joined Q hjoined =>
        ih (fun q hq => h q (List.mem_cons_of_mem _ hq)) layouts hjoined
      simp only [altEdits, Pattern.StridesAny]
      exact hrest

/-- Within a repetition what is done to states is done to one layer again and again. -/
theorem Carries.repeated {e : Pattern} {min : Nat} {max : Option Nat} {layout : Layout}
    (hs : s.subject.Over text)
    (h : s.Carries text l m (fun state => s.edits e (layout.child 0) state entry)
      (e.Strides text l m (layout.child 0) entry)) :
    s.Carries text l m (fun state => s.edits (.repeated e min max) layout state entry)
      ((Pattern.repeated e min max).Strides text l m layout entry) := by
  intro input P hinput
  simp only
  rw [edits]
  unfold Pattern.Strides
  apply yields_step
  have hceiling : text.length + m + 2 ≤ s.subject.length + input.maxDistance + 2 := by
    have hlength : s.subject.length = text.length := hs.length_eq
    have hmost : input.maxDistance = m := hinput.1.2.2
    omega
  have hrank : ∀ (set : EditStates) (x : Nat × Nat), (layerView text.length l m entry).Dom set →
      (layerView text.length l m entry).Mem set x → x.1 + x.2 ≤ text.length + m := by
    intro set x hset hx
    obtain ⟨ht, -, hd⟩ := hset.1.le_of_mem hx
    omega
  have hround := h.rewound entry (entry + (layout.child 0).length)
  have hpaces := Pattern.paces_rewound text l m e (layout.child 0) entry
    (entry + (layout.child 0).length)
  have hlooped : s.Crosses text l m entry entry (fun set => s.repetition (.repeated e min max) set
      min max (s.subject.length + input.maxDistance + 2) fun set => do
        return (← s.edits e (layout.child 0) set entry).relocate
          (entry + (layout.child 0).length) entry) _ :=
    hround.repetition hpaces.toClimbs hrank hceiling
  exact (Crosses.relocate hlooped (entry + (layout.child 0).length)).carries input P hinput

/-- After a lookahead what is done to states is done to those of its layer that pass. -/
theorem Carries.ahead {positive : Bool} {c p : Pattern} {layout : Layout}
    (hs : s.subject.Over text)
    (h : s.Carries text l m (fun state => s.edits p (layout.child 1) state entry)
      (p.Strides text l m (layout.child 1) entry)) :
    s.Carries text l m (fun state => s.edits (.ahead positive c p) layout state entry)
      ((Pattern.ahead positive c p).Strides text l m layout entry) := by
  intro input P hinput
  simp only
  rw [edits]
  unfold Pattern.Strides
  apply yields_step
  have hsize : (input.layerOffsets entry).size = text.length + 1 :=
    size_layerOffsets.trans (congrArg (· + 1) hinput.1.1)
  refine (yields_lookahead (s := { s with watched := false }) hs c hsize positive).bind ?_
  rintro passed ⟨-, hpassed⟩
  have hpasses : ∀ u : Nat × Nat, entry ≤ l ∧ P (u.1, entry, u.2) →
      (u.1 ∈ passed ↔ Passes (c.Matches text) positive u.1) := by
    rintro u ⟨-, hu⟩
    rw [hpassed]
    refine and_iff_right ?_
    exact mem_layerOffsets.2 ⟨u.2, (hinput.2 _).2 hu⟩
  have hkept := shows_states (shows_restrictLayer (shows_layer hinput entry entry) passed hpasses)
  refine (h _ _ hkept).imp fun out hout => hout.congr fun y => ?_
  constructor
  · rintro ⟨⟨t, q, d⟩, ⟨rfl, ⟨hentry, hP⟩, hpass⟩, hT⟩
    exact ⟨(t, q, d), hP, ⟨rfl, hentry⟩, hpass, hT⟩
  · rintro ⟨⟨t, q, d⟩, hP, ⟨rfl, hentry⟩, hpass, hT⟩
    exact ⟨(t, q, d), ⟨rfl, ⟨hentry, hP⟩, hpass⟩, hT⟩

/-- **A sweep with edits realises the strides of its pattern**, whatever layout and axis it has. -/
theorem carries_edits (hs : s.subject.Over text) (p : Pattern) (layout : Layout) (entry : Nat) :
    s.Carries text l m (fun state => s.edits p layout state entry)
      (p.Strides text l m layout entry) := by
  induction p using Pattern.induct generalizing layout entry with
  | atom a =>
    intro input P hinput
    simp only
    rw [edits]
    unfold Pattern.Strides
    apply yields_step
    rw [← atomEdits_relocate]
    exact (crosses_atomEdits_any hs a entry).carries input P hinput
  | seq ps ih =>
    intro input P hinput
    simp only
    rw [edits]
    unfold Pattern.Strides
    exact yields_step (carries_seqEdits ih layout.children entry input P hinput)
  | alt ps ih =>
    intro input P hinput
    simp only
    rw [edits]
    unfold Pattern.Strides
    apply yields_step
    refine (carries_altEdits (Q := fun _ => False) _ ih layout.children hinput ?_).imp
      fun out hout => hout.congr fun y => or_iff_right id
    exact ⟨bounded_emptyLike hinput.1, fun y => iff_of_false not_mem_emptyLike id⟩
  | repeated e min max ih => exact Carries.repeated hs (ih (layout.child 0) entry)
  | ahead positive c p _ ih => exact Carries.ahead hs (ih (layout.child 1) entry)

end Sweep

end PatternSweep
