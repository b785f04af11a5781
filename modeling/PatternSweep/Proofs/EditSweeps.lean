import PatternSweep.Proofs.EditMembers
import PatternSweep.Proofs.EditWalks
import PatternSweep.Proofs.ExactMatches

/-!
# Sweeps with edits find the walks

A sweep that enters a pattern at one offset of the axis has its states at this offset alone, and
leaves with states at the offset plus the length of the pattern alone (`EditStates.layerView`). Seen
without the axis, it realises the walks of the pattern (`Sweep.crosses_edits`), as long as the axis
has room for the pattern. In the end the states of a whole pattern are the walks from the offsets of
the text without edits, followed by characters that are passed over (`Sweep.yields_finalStates`).
-/

namespace PatternSweep

/-! ### Lengths on the axis -/

namespace Pattern

variable {p : Pattern} {ps : List Pattern}

theorem axisLength_seq (ps : List Pattern) :
    (seq ps).axisLength = (ps.map axisLength).foldl (· + ·) 0 := by
  show ((Layout.ofList ps).map Layout.length).foldl (· + ·) 0 = _
  rw [Layout.ofList_eq_map, List.map_map]
  rfl

theorem axisLength_alt (ps : List Pattern) :
    (alt ps).axisLength = (ps.map axisLength).foldl max 0 := by
  show ((Layout.ofList ps).map Layout.length).foldl max 0 = _
  rw [Layout.ofList_eq_map, List.map_map]
  rfl

theorem axisLength_seq_cons :
    (seq (p :: ps)).axisLength = p.axisLength + (seq ps).axisLength := by
  rw [axisLength_seq, axisLength_seq, List.map_cons, List.foldl_cons, Nat.add_comm]
  exact List.foldl_assoc

theorem axisLength_le_alt (h : p ∈ ps) : p.axisLength ≤ (alt ps).axisLength := by
  have hfold : ∀ (lengths : List Nat) (top : Nat),
      top ≤ lengths.foldl max top ∧ ∀ n ∈ lengths, n ≤ lengths.foldl max top := by
    intro lengths
    induction lengths with
    | nil => simp
    | cons m lengths ih =>
      intro top
      obtain ⟨htop, hrest⟩ := ih (max top m)
      rw [List.foldl_cons]
      refine ⟨by omega, List.forall_mem_cons.2 ⟨by omega, hrest⟩⟩
  rw [axisLength_alt]
  exact (hfold _ 0).2 _ (List.mem_map_of_mem h)

end Pattern

/-! ### States on one layer -/

namespace EditStates

variable {s : EditStates} {n l m source target : Nat} {P : Nat × Nat → Prop}

/-- Sets of states with the bounds `n`, `l` and `m` that all lie at the offset `entry` of the axis,
seen by their text offsets and distances. -/
def layerView (n l m entry : Nat) : View EditStates (Nat × Nat) where
  Dom s := s.Bounded n l m ∧ ∀ t p d, (t, p, d) ∈ s → p = entry
  Mem s x := (x.1, entry, x.2) ∈ s
  ext hs hu h := by
    refine ext_mem hs.1 hu.1 fun ⟨t, p, d⟩ => ⟨fun hx => ?_, fun hx => ?_⟩
    · obtain rfl := hs.2 t p d hx
      exact (h (t, d)).1 hx
    · obtain rfl := hu.2 t p d hx
      exact (h (t, d)).2 hx
  dom_join hs hu := by
    refine ⟨hs.1, fun t p d hx => ?_⟩
    cases (mem_union hs.1 hu.1).1 hx with
    | inl hx => exact hs.2 t p d hx
    | inr hx => exact hu.2 t p d hx
  mem_join hs hu := mem_union hs.1 hu.1
  isEmpty_iff hs := by
    show EditStates.isEmpty _ = true ↔ _
    rw [isEmpty_iff]
    constructor
    · exact fun h x => h _
    · rintro h ⟨t, p, d⟩ hx
      obtain rfl := hs.2 t p d hx
      exact h (t, d) hx

theorem shows_emptyLike (hs : s.Bounded n l m) (entry : Nat) :
    (layerView n l m entry).Shows s.emptyLike fun _ => False :=
  ⟨⟨hs, fun _ _ _ hx => (not_mem_emptyLike hx).elim⟩, fun _ => iff_of_false not_mem_emptyLike id⟩

/-- Moving a layer within the axis keeps what it shows. -/
theorem shows_relocate (h : (layerView n l m source).Shows s P) (htarget : target ≤ l) :
    (layerView n l m target).Shows (s.relocate source target) P := by
  obtain ⟨⟨hbounded, -⟩, hmem⟩ := h
  refine ⟨⟨bounded_relocate hbounded _ _, fun t p d hx => (mem_relocate.1 hx).1⟩, fun x => ?_⟩
  have hroom : target ≤ s.patternLength := by
    rw [hbounded.2.1]
    exact htarget
  show (x.1, target, x.2) ∈ s.relocate source target ↔ P x
  rw [mem_relocate, show (x.1, source, x.2) ∈ s ↔ P x from hmem x]
  exact (and_iff_right rfl).trans (and_iff_right hroom)

theorem shows_restrictLayer (h : (layerView n l m source).Shows s P) (allowed : OffsetSet)
    {Q : Nat → Prop} (hallowed : ∀ x, P x → (x.1 ∈ allowed ↔ Q x.1)) :
    (layerView n l m source).Shows (s.restrictLayer source allowed) fun x => P x ∧ Q x.1 := by
  obtain ⟨⟨hbounded, hlayer⟩, hmem⟩ := h
  refine ⟨⟨bounded_restrictLayer hbounded _, fun t p d hx => ?_⟩, fun x => ?_⟩
  · exact hlayer t p d (mem_restrictLayer.1 hx).1
  · show (x.1, source, x.2) ∈ s.restrictLayer source allowed ↔ P x ∧ Q x.1
    rw [mem_restrictLayer, show (x.1, source, x.2) ∈ s ↔ P x from hmem x]
    exact and_congr_right fun hx => (forall_prop_of_true rfl).trans (hallowed x hx)

/-- The closure of a layer under deletions shows the places on a diagonal behind those it showed. -/
theorem shows_applyDeletions (h : (layerView n l m source).Shows s P) :
    (layerView n l m source).Shows (s.applyDeletions source) fun y =>
      (y.1 ≤ n ∧ y.2 ≤ m) ∧ ∃ x, P x ∧ ∃ k, y = (x.1 + k, x.2 + k) := by
  obtain ⟨⟨hbounded, hlayer⟩, hmem⟩ := h
  refine ⟨⟨bounded_applyDeletions hbounded _, fun t p d hx => ?_⟩, fun y => ?_⟩
  · rcases (mem_applyDeletions hbounded).1 hx with hx | ⟨rfl, -⟩
    · exact hlayer t p d hx
    · rfl
  · show (y.1, source, y.2) ∈ s.applyDeletions source ↔ _
    rw [mem_applyDeletions hbounded]
    constructor
    · intro h
      rcases h with hy | ⟨-, ht, hd, i, k, c, hx, h₁, h₂⟩
      · obtain ⟨ht, -, hd⟩ := hbounded.le_of_mem hy
        exact ⟨⟨ht, hd⟩, y, (hmem y).1 hy, 0, rfl⟩
      · exact ⟨⟨ht, hd⟩, (i, c), (hmem (i, c)).1 hx, k, Prod.ext h₁ h₂⟩
    · intro h
      obtain ⟨⟨ht, hd⟩, x, hx, k, rfl⟩ := h
      exact Or.inr ⟨rfl, ht, hd, x.1, k, x.2, (hmem x).2 hx, rfl, rfl⟩

/-! ### Atoms -/

section

variable {text : List Char} {a : Atom} {output : EditStates} {plane hits : OffsetSet}
  {exit e t p d : Nat}

/-- The uses of an atom from one plane, if the hits are the offsets whose character it takes. -/
theorem exists_uses_iff
    (hhits : ∀ i, i ∈ hits ↔ i ∈ plane ∧ ∃ c, text[i]? = some c ∧ a.accepts c = true) :
    (∃ i, i ∈ plane ∧ a.Uses text (i, e) (t, d)) ↔ (d = e ∧ ∃ i, i ∈ hits ∧ t = i + 1) ∨
      (d = e + 1 ∧ ((∃ i, i ∈ plane ∧ t = i + 1) ∨ t ∈ plane)) := by
  simp only [Atom.Uses, Prod.mk.injEq, hhits]
  constructor
  · intro h
    rcases h with ⟨i, hi, ⟨⟨rfl, rfl⟩, htakes⟩ | ⟨rfl, rfl⟩ | ⟨rfl, rfl⟩⟩
    · exact Or.inl ⟨rfl, i, ⟨hi, htakes⟩, rfl⟩
    · exact Or.inr ⟨rfl, Or.inl ⟨i, hi, rfl⟩⟩
    · exact Or.inr ⟨rfl, Or.inr hi⟩
  · intro h
    rcases h with ⟨rfl, i, ⟨hi, htakes⟩, rfl⟩ | ⟨rfl, ⟨i, hi, rfl⟩ | hi⟩
    · exact ⟨i, hi, Or.inl ⟨⟨rfl, rfl⟩, htakes⟩⟩
    · exact ⟨i, hi, Or.inr (Or.inl ⟨rfl, rfl⟩)⟩
    · exact ⟨t, hi, Or.inr (Or.inr ⟨rfl, rfl⟩)⟩

theorem mem_insertPlane_of_le (houtput : output.Bounded text.length l m) (hexit : exit ≤ l) :
    (t, p, d) ∈ output.insertPlane exit e plane ↔
      (t, p, d) ∈ output ∨ (p = exit ∧ InReach text m (t, d) ∧ d = e ∧ t ∈ plane) := by
  rw [mem_insertPlane, houtput.1, houtput.2.1, houtput.2.2]
  refine or_congr_right ⟨?_, ?_⟩
  · rintro ⟨rfl, rfl, ht, hreach, -, hd⟩
    exact ⟨rfl, ⟨hreach, hd⟩, rfl, ht⟩
  · rintro ⟨rfl, hreach, rfl, ht⟩
    exact ⟨rfl, rfl, ht, hreach.1, hexit, hreach.2⟩

/-- An atom adds to the output, at its exit, the places that it leads to from one plane. -/
theorem mem_atomPlane (houtput : output.Bounded text.length l m)
    (hplane : plane.size = text.length + 1) (hsize : hits.size = text.length + 1)
    (hhits : ∀ i, i ∈ hits ↔ i ∈ plane ∧ ∃ c, text[i]? = some c ∧ a.accepts c = true)
    (hexit : exit ≤ l) : (t, p, d) ∈ Sweep.atomPlane exit e plane hits output ↔
      (t, p, d) ∈ output ∨
        (p = exit ∧ InReach text m (t, d) ∧ ∃ i, i ∈ plane ∧ a.Uses text (i, e) (t, d)) := by
  rw [exists_uses_iff hhits]
  have hmatched : (output.insertPlane exit e hits.shifted).Bounded text.length l m := houtput
  have hother : ((output.insertPlane exit e hits.shifted).insertPlane exit (e + 1)
      plane.shifted).Bounded text.length l m := houtput
  unfold Sweep.atomPlane
  simp only
  by_cases hreach : InReach text m (t, d)
  · have hshifted : ∀ set : OffsetSet, set.size = text.length + 1 →
        (t ∈ set.shifted ↔ ∃ i, i ∈ set ∧ t = i + 1) := by
      intro set hset
      have ht : t < set.size := by
        rw [hset]
        exact Nat.lt_succ_of_le hreach.1
      rw [OffsetSet.mem_shifted]
      simp only [ht, and_true]
    split
    next =>
      rw [mem_insertPlane_of_le hother hexit, mem_insertPlane_of_le hmatched hexit,
        mem_insertPlane_of_le houtput hexit, hshifted hits hsize, hshifted plane hplane]
      simp only [or_assoc, and_or_left]
    next hge =>
      rw [mem_insertPlane_of_le houtput hexit, hshifted hits hsize]
      refine or_congr_right (and_congr_right fun _ => and_congr_right fun _ =>
        (or_iff_left ?_).symm)
      -- an edit more would be one too many
      rintro ⟨rfl, -⟩
      rw [houtput.2.2] at hge
      exact hge hreach.2
  · have hout : ∀ q : Prop, ¬(p = exit ∧ InReach text m (t, d) ∧ q) := fun _ h => hreach h.2.1
    rw [or_iff_left (hout _)]
    split
    next =>
      rw [mem_insertPlane_of_le hother hexit, or_iff_left (hout _),
        mem_insertPlane_of_le hmatched hexit, or_iff_left (hout _),
        mem_insertPlane_of_le houtput hexit, or_iff_left (hout _)]
    next => rw [mem_insertPlane_of_le houtput hexit, or_iff_left (hout _)]

theorem bounded_atomPlane (houtput : output.Bounded n l m) (plane hits : OffsetSet) (exit e : Nat) :
    (Sweep.atomPlane exit e plane hits output).Bounded n l m := by
  unfold Sweep.atomPlane
  simp only
  split
  · exact houtput
  · exact houtput

/-- The same for the planes of a layer, one after the other. -/
theorem mem_foldl_atomPlane (hit : OffsetSet → OffsetSet) {planes : List (Nat × OffsetSet)}
    (houtput : output.Bounded text.length l m) (hexit : exit ≤ l)
    (hplanes : ∀ r ∈ planes, r.2.size = text.length + 1 ∧ (hit r.2).size = text.length + 1 ∧
      ∀ i, i ∈ hit r.2 ↔ i ∈ r.2 ∧ ∃ c, text[i]? = some c ∧ a.accepts c = true) :
    (planes.foldl (fun out r => Sweep.atomPlane exit r.1 r.2 (hit r.2) out) output).Bounded
        text.length l m ∧
      ∀ t p d, (t, p, d) ∈ planes.foldl (fun out r => Sweep.atomPlane exit r.1 r.2 (hit r.2) out)
        output ↔ (t, p, d) ∈ output ∨ (p = exit ∧ InReach text m (t, d) ∧
          ∃ r ∈ planes, ∃ i, i ∈ r.2 ∧ a.Uses text (i, r.1) (t, d)) := by
  induction planes generalizing output with
  | nil => exact ⟨houtput, fun t p d => by simp⟩
  | cons r planes ih =>
    obtain ⟨⟨hr, hhit, htakes⟩, hrest⟩ := List.forall_mem_cons.1 hplanes
    obtain ⟨hbounded, hmem⟩ := ih (bounded_atomPlane houtput r.2 (hit r.2) exit r.1) hrest
    refine ⟨hbounded, fun t p d => ?_⟩
    rw [List.foldl_cons, hmem, mem_atomPlane houtput hr hhit htakes hexit, or_assoc]
    simp only [List.mem_cons, exists_eq_or_imp, and_or_left]

end

end EditStates

/-! ### Sweeps -/

namespace Sweep

open EditStates

variable {s : Sweep} {text : List Char} {l m entry : Nat} {p : Pattern}

/-- On an axis of the length `l` and with at most `m` edits, `f` realises `R` from the layer at
`entry` to the layer at `exit`. -/
abbrev Crosses (s : Sweep) (text : List Char) (l m entry exit : Nat)
    (f : EditStates → Run EditStates) (R : Nat × Nat → Nat × Nat → Prop) : Prop :=
  Realises s.subject (layerView text.length l m entry) (layerView text.length l m exit) f R

/-- An atom passes over characters, closing its layer under deletions, and is used after them. -/
theorem crosses_atomEdits (hs : s.subject.Over text) (a : Atom) (hentry : entry + 1 ≤ l) :
    s.Crosses text l m entry (entry + 1) (fun state => s.atomEdits a state entry)
      ((Pattern.atom a).Walks text m) := by
  intro input P hinput
  have hentry' : entry ≤ l := by omega
  obtain ⟨⟨hbounded, -⟩, hwork⟩ := shows_applyDeletions (shows_relocate hinput hentry')
  unfold atomEdits
  refine yields_atomMask.bind fun mask hmask => Yields.pure ?_
  subst hmask
  have hplanes : ∀ r ∈ ((input.relocate entry entry).applyDeletions entry).layer entry,
      r.2.size = text.length + 1 ∧ (s.subject.picked a r.2).size = text.length + 1 ∧
        ∀ i, i ∈ s.subject.picked a r.2 ↔
          i ∈ r.2 ∧ ∃ c, text[i]? = some c ∧ a.accepts c = true := by
    intro r hr
    have hsize : r.2.size = text.length + 1 := by rw [size_eq _ _ (mem_layer.1 hr), hbounded.1]
    refine ⟨hsize, (Subject.size_picked _ _ _).trans hsize, fun i => ?_⟩
    rw [Subject.mem_picked hs, hs.takes_iff]
  obtain ⟨hresult, hmem⟩ := mem_foldl_atomPlane (s.subject.picked a)
    (bounded_emptyLike hinput.1.1) hentry hplanes
  -- the output starts empty, so all its states come from the planes of the closed layer
  refine ⟨⟨hresult, fun t p d hx => ?_⟩, fun y => (hmem y.1 (entry + 1) y.2).trans ⟨?_, ?_⟩⟩
  · rcases (hmem t p d).1 hx with hx | ⟨rfl, -⟩
    · exact (not_mem_emptyLike hx).elim
    · rfl
  · intro h
    rcases h with hx | ⟨-, hreach, r, hr, i, hi, huses⟩
    · exact (not_mem_emptyLike hx).elim
    · obtain ⟨-, x, hx, k, hk⟩ := (hwork (i, r.1)).1 ⟨r.2, mem_layer.1 hr, hi⟩
      exact ⟨x, hx, ⟨k, hk ▸ huses⟩, hreach⟩
  · intro h
    obtain ⟨x, hx, ⟨k, huses⟩, hreach⟩ := h
    obtain ⟨htext, hmost⟩ := hreach
    obtain ⟨ht, hd⟩ : x.1 + k ≤ y.1 ∧ x.2 + k ≤ y.2 := huses.le
    obtain ⟨plane, hplane, hi⟩ := (hwork (x.1 + k, x.2 + k)).2
      ⟨⟨by omega, by omega⟩, x, hx, k, rfl⟩
    exact Or.inr ⟨rfl, ⟨htext, hmost⟩, (x.2 + k, plane), mem_layer.2 hplane, x.1 + k, hi, huses⟩

theorem crosses_seqEdits {ps : List Pattern}
    (h : ∀ p ∈ ps, ∀ entry, entry + p.axisLength ≤ l →
      s.Crosses text l m entry (entry + p.axisLength) (fun state => s.edits p (.of p) state entry)
        (p.Walks text m))
    (hentry : entry + (Pattern.seq ps).axisLength ≤ l) :
    s.Crosses text l m entry (entry + (Pattern.seq ps).axisLength)
      (fun state => s.seqEdits ps (Layout.ofList ps) state entry) (Pattern.WalksAll text m ps) := by
  induction ps generalizing entry with
  | nil =>
    simp only [seqEdits, Pattern.WalksAll]
    exact Realises.pure
  | cons p ps ih =>
    rw [Pattern.axisLength_seq_cons, ← Nat.add_assoc] at hentry ⊢
    simp only [Layout.ofList, seqEdits, Pattern.WalksAll]
    have hp := h p (by simp) entry (by omega)
    exact hp.bind (ih (fun q hq => h q (List.mem_cons_of_mem _ hq)) hentry)

/-- Branches of different lengths share the axis: each is moved from its own end to that of the
longest. -/
theorem crosses_altEdits {ps : List Pattern} {exit : Nat} (hexit : exit ≤ l)
    (h : ∀ p ∈ ps, s.Crosses text l m entry (entry + p.axisLength)
      (fun state => s.edits p (.of p) state entry) (p.Walks text m)) :
    s.Crosses text l m entry exit
      (fun state => s.altEdits ps (Layout.ofList ps) state entry exit state.emptyLike)
      (Pattern.WalksAny text m ps) := by
  intro input P hinput
  have hbranch : ∀ p ∈ ps, s.Crosses text l m entry exit (fun state => do
      return (← s.edits p (.of p) state entry).relocate (entry + p.axisLength) exit)
      (p.Walks text m) :=
    fun p hp => (h p hp).map fun set P hset => shows_relocate hset hexit
  refine (Realises.among
    (fun ps input output => s.altEdits ps (Layout.ofList ps) input entry exit output)
    (Pattern.WalksAny text m) (Q := fun _ => False) (fun _ _ => by simp only [altEdits])
    (fun _ _ _ _ => by simp only [Layout.ofList, altEdits]; rfl) (fun _ _ h => h)
    (fun _ _ _ _ => Iff.rfl) hbranch hinput (shows_emptyLike hinput.1.1 _)).imp
      fun out hout => hout.congr fun b => or_iff_right id

/-- **A sweep with edits realises the walks of its pattern**: entered at one offset of the axis it
leaves at the offset plus the length of the pattern, if the axis is long enough. -/
theorem crosses_edits (hs : s.subject.Over text) (p : Pattern)
    (hentry : entry + p.axisLength ≤ l) :
    s.Crosses text l m entry (entry + p.axisLength) (fun state => s.edits p (.of p) state entry)
      (p.Walks text m) := by
  induction p using Pattern.induct generalizing entry with
  | atom a =>
    intro input P hinput
    simp only
    rw [Layout.of, edits]
    exact yields_step (crosses_atomEdits hs a hentry input P hinput)
  | seq ps ih =>
    intro input P hinput
    simp only
    rw [Layout.of, edits]
    unfold Pattern.Walks
    exact yields_step (crosses_seqEdits (fun p hp entry h => ih p hp h) hentry input P hinput)
  | alt ps ih =>
    intro input P hinput
    simp only
    rw [Layout.of, edits]
    unfold Pattern.Walks
    refine yields_step (crosses_altEdits hentry (fun p hp => ih p hp ?_) input P hinput)
    have := Pattern.axisLength_le_alt hp
    omega
  | repeated e min max ih =>
    intro input P hinput
    simp only
    rw [Layout.of, edits]
    unfold Pattern.Walks
    apply yields_step
    -- every round is rewound on the axis, so the rounds all cross the stretch of the element
    have helement : s.Crosses text l m entry entry (fun set => do
        return (← s.edits e (.of e) set entry).relocate (entry + e.axisLength) entry)
        (e.Walks text m) :=
      (ih hentry).map fun set P hset => shows_relocate hset (by omega)
    have hceiling : text.length + m + 2 ≤ s.subject.length + input.maxDistance + 2 := by
      have hlength : s.subject.length = text.length := hs.length_eq
      have hmost : input.maxDistance = m := hinput.1.1.2.2
      omega
    have hrank : ∀ (set : EditStates) (x : Nat × Nat), (layerView text.length l m entry).Dom set →
        (layerView text.length l m entry).Mem set x → x.1 + x.2 ≤ text.length + m := by
      intro set x hset hx
      obtain ⟨ht, -, hd⟩ := hset.1.le_of_mem hx
      omega
    exact (helement.repetition (Pattern.climbs_walks text m e) hrank hceiling).map
      (fun set P hset => shows_relocate hset hentry) _ P (shows_relocate hinput (by omega))
  | ahead positive c p _ ih =>
    intro input P hinput
    simp only
    rw [Layout.of, edits]
    unfold Pattern.Walks
    apply yields_step
    have hsize : (input.layerOffsets entry).size = text.length + 1 :=
      size_layerOffsets.trans (congrArg (· + 1) hinput.1.1.1)
    refine (yields_lookahead (s := { s with watched := false }) hs c hsize positive).bind ?_
    rintro passed ⟨-, hpassed⟩
    have hpasses : ∀ x, P x → (x.1 ∈ passed ↔ Passes (c.Matches text) positive x.1) := by
      intro x hx
      rw [hpassed]
      refine and_iff_right ?_
      exact mem_layerOffsets.2 ⟨x.2, (hinput.2 x).2 hx⟩
    have hentry' : entry ≤ l := by omega
    have hkept := shows_restrictLayer (shows_relocate hinput hentry') passed hpasses
    refine (ih hentry _ _ hkept).imp fun out hout => hout.congr fun y => exists_congr fun x => ?_
    rw [and_assoc, and_comm (a := Passes _ _ _)]

/-- The states after a whole pattern are the places that its walks lead to from the offsets of the
text, and the places behind these on a diagonal. -/
theorem yields_finalStates (hs : s.subject.Over text) (p : Pattern) (m : Nat) :
    Yields s.subject (s.finalStates p (.of p) m)
      ((layerView text.length p.axisLength m p.axisLength).Shows · (p.Reached text m)) := by
  have hseeded : (layerView text.length p.axisLength m 0).Shows
      (.seeded s.subject.length p.axisLength m) fun x => x.1 ≤ text.length ∧ x.2 = 0 := by
    rw [hs.length_eq]
    refine ⟨⟨bounded_seeded, fun t q d hx => (mem_seeded.1 hx).2.1⟩, fun x => ?_⟩
    show (x.1, 0, x.2) ∈ EditStates.seeded text.length p.axisLength m ↔ _
    rw [mem_seeded]
    exact and_congr_right fun _ => and_iff_right rfl
  have hentry : 0 + p.axisLength ≤ p.axisLength := by omega
  have hedits := crosses_edits hs p hentry _ _ hseeded
  rw [Nat.zero_add] at hedits
  unfold finalStates
  refine hedits.bind fun reached hreached => Yields.pure ?_
  refine (shows_applyDeletions hreached).congr fun y => and_congr_right fun _ => ?_
  constructor
  · intro h
    obtain ⟨x, ⟨⟨i, _⟩, ⟨hi, rfl⟩, hx⟩, k, hk⟩ := h
    exact ⟨i, hi, x, hx, k, hk⟩
  · rintro ⟨i, hi, x, hx, k, hk⟩
    exact ⟨x, ⟨(i, 0), ⟨hi, rfl⟩, hx⟩, k, hk⟩

end Sweep

/-! ### The states of a subject -/

/-- The states of a subject after a pattern, seen without the axis. -/
theorem Subject.shows_editStates {s : Subject} {text : List Char} (hs : s.Over text) (p : Pattern)
    (m : Nat) :
    (EditStates.layerView text.length p.axisLength m p.axisLength).Shows (s.editStates p (.of p) m)
      (p.Reached text m) :=
  of_yields_unwatched (editSweep p (.of p) m)
    (P := fun states => (EditStates.layerView _ _ _ _).Shows states _)
    (Sweep.yields_finalStates (s := ⟨s, false⟩) hs p m)

/-- What the reached places are as states: they lie at the end of the axis. -/
theorem EditStates.mem_iff_of_shows {states : EditStates} {text : List Char} {p : Pattern}
    {m t q d : Nat}
    (h : (layerView text.length p.axisLength m p.axisLength).Shows states (p.Reached text m)) :
    (t, q, d) ∈ states ↔ q = p.axisLength ∧ t ≤ text.length ∧ d ≤ m ∧
      ∃ i, i ≤ text.length ∧ ∃ k, k ≤ t ∧ k ≤ d ∧ p.Walks text m (i, 0) (t - k, d - k) := by
  obtain ⟨⟨-, hlayer⟩, hmem⟩ := h
  constructor
  · intro hx
    obtain rfl := hlayer t q d hx
    obtain ⟨hreach, i, hi, x, hwalk, k, hk⟩ := (hmem (t, d)).1 hx
    obtain ⟨rfl, rfl⟩ := Prod.mk.inj hk
    refine ⟨rfl, hreach.1, hreach.2, i, hi, k, by omega, by omega, ?_⟩
    rw [Nat.add_sub_cancel, Nat.add_sub_cancel]
    exact hwalk
  · rintro ⟨rfl, ht, hd, i, hi, k, hkt, hkd, hwalk⟩
    refine (hmem (t, d)).2 ⟨⟨ht, hd⟩, i, hi, _, hwalk, k, ?_⟩
    rw [Nat.sub_add_cancel hkt, Nat.sub_add_cancel hkd]

/-- **A sweep with edits refines the walks of its pattern**, which know of no axis. Of any pattern
with its own layout it gives the states `(t, q, d)` such that `q` is the end of the axis, the bounds
are kept, and some number of characters before `t`, passed over at the cost of an edit each, lies
the end of a walk from an offset without edits. No such state is lost to the bounds of the axis, and
none is left elsewhere on it. -/
theorem edit_sweep_refines_walks :
    (∀ (s : Sweep) (text : List Char), s.subject.Over text →
      ∀ w : Workspace, w.Sound s.subject → ∀ (p : Pattern) (m t q d : Nat),
      (t, q, d) ∈ ((s.finalStates p (.of p) m).run w).1 ↔
        q = p.axisLength ∧ t ≤ text.length ∧ d ≤ m ∧
          ∃ i, i ≤ text.length ∧ ∃ k, k ≤ t ∧ k ≤ d ∧ p.Walks text m (i, 0) (t - k, d - k)) ∧
    ∀ (s : Subject) (text : List Char), s.Over text → ∀ (p : Pattern) (m t q d : Nat),
      (t, q, d) ∈ s.editStates p (.of p) m ↔
        q = p.axisLength ∧ t ≤ text.length ∧ d ≤ m ∧
          ∃ i, i ≤ text.length ∧ ∃ k, k ≤ t ∧ k ≤ d ∧ p.Walks text m (i, 0) (t - k, d - k) := by
  constructor
  · intro s text hs w hw p m t q d
    exact EditStates.mem_iff_of_shows (Sweep.yields_finalStates hs p m w hw).1
  · intro s text hs p m t q d
    exact EditStates.mem_iff_of_shows (Subject.shows_editStates hs p m)

/-- The letter `a`, and the same where no `b` follows, in the text `b` with at most one edit. -/
theorem edit_sweep_refines_walks_of_a :
    (∀ t q d, (t, q, d) ∈ ((Sweep.finalStates ⟨.plain ['b'], true⟩ (Pattern.lit 'a')
        (.of (Pattern.lit 'a')) 1).run .empty).1 ↔
      q = 1 ∧ t ≤ 1 ∧ d ≤ 1 ∧ ∃ i, i ≤ 1 ∧ ∃ k, k ≤ t ∧ k ≤ d ∧
        (Pattern.lit 'a').Walks ['b'] 1 (i, 0) (t - k, d - k)) ∧
    (∀ t q d, (t, q, d) ∈ (Subject.plain ['b']).editStates
        (.ahead false (Pattern.lit 'b') (Pattern.lit 'a'))
        (.of (.ahead false (Pattern.lit 'b') (Pattern.lit 'a'))) 1 ↔
      q = 1 ∧ t ≤ 1 ∧ d ≤ 1 ∧ ∃ i, i ≤ 1 ∧ ∃ k, k ≤ t ∧ k ≤ d ∧
        (Pattern.ahead false (Pattern.lit 'b') (Pattern.lit 'a')).Walks ['b'] 1 (i, 0)
          (t - k, d - k)) ∧
    ((Subject.plain ['b']).editStates (.ahead false (Pattern.lit 'b') (Pattern.lit 'a'))
      (.of (.ahead false (Pattern.lit 'b') (Pattern.lit 'a'))) 1).matchEnds = [(1, [1])] := by
  obtain ⟨hsweep, hsubject⟩ := edit_sweep_refines_walks
  refine ⟨fun t q d => ?_, fun t q d => ?_, by decide⟩
  · exact hsweep ⟨.plain ['b'], true⟩ _ (Or.inl rfl) _ (Workspace.sound_empty _) (Pattern.lit 'a') 1
      t q d
  · exact hsubject _ _ (Or.inl rfl) (.ahead false (Pattern.lit 'b') (Pattern.lit 'a')) 1 t q d

end PatternSweep
