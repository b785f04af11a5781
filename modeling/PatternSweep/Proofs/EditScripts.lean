import Mathlib.Data.Finset.Prod
import Mathlib.Order.Interval.Finset.Nat
import PatternSweep.Proofs.EndMembers
import PatternSweep.Proofs.StoredPlanes

/-!
# Scripts of sets of edit states

A script makes, changes and combines sets of edit states in numbered registers. As for the other two
kinds of sets, what a command does is left to the `EditOps` it is run with: the operations of sets
of edit states, those of planes that are stored, and those of finite sets of triples, which say what
is meant. Among sets with the same bounds, which no command changes, nothing is refused and the
other two stay in step with the sets of edit states (`EditOps.Carries`, `EditCommand.common_run`).
So a script does to the states what it says (`scripts_of_edit_states_denote_finite_sets`).
-/

namespace PatternSweep

/-- The ways to make a set of edit states and to change it. Putting in and uniting say too whether a
state was added. -/
structure EditOps (τ : Type) where
  empty : (textLength patternLength maxDistance : Nat) → τ
  seeded : (textLength patternLength maxDistance : Nat) → Except EditRefusal τ
  emptyLike : τ → τ
  insert : τ → (text pattern distance : Nat) → τ × Bool
  insertPlane : τ → (pattern distance : Nat) → OffsetSet → Except EditRefusal (τ × Bool)
  relocate : τ → (source target : Nat) → Except EditRefusal τ
  restrictLayer : τ → (pattern : Nat) → OffsetSet → Except EditRefusal τ
  applyDeletions : τ → (pattern : Nat) → Except EditRefusal τ
  union : τ → τ → Except EditRefusal (τ × Bool)

/-- A change of one of several sets of states, which have numbers. -/
inductive EditCommand
  /-- `r` becomes the empty set with these bounds. -/
  | empty (r textLength patternLength maxDistance : Nat)
  /-- `r` becomes every text offset at the start of the pattern, without edits. -/
  | seeded (r textLength patternLength maxDistance : Nat)
  /-- `r` becomes the empty set with the bounds of `a`. -/
  | emptyLike (r a : Nat)
  /-- `r` becomes what `a` is. -/
  | copy (r a : Nat)
  /-- `r` becomes a layer of `a`, moved to another pattern offset. -/
  | relocate (r a source target : Nat)
  /-- A state is put into `r`. -/
  | insert (r text pattern distance : Nat)
  /-- States are put into `r` at one pattern offset and distance. -/
  | insertPlane (r pattern distance : Nat) (offsets : OffsetSet)
  /-- The states of a layer of `r` go whose text offset is not allowed. -/
  | restrictLayer (r pattern : Nat) (allowed : OffsetSet)
  /-- A layer of `r` is closed under deletions. -/
  | applyDeletions (r pattern : Nat)
  /-- The states of `a` are put into `r`. -/
  | unite (r a : Nat)
  deriving DecidableEq

/-- What a command answers: whether a state was added if it says so, or why it was refused. -/
abbrev EditReply := Except EditRefusal (Option Bool)

namespace EditCommand

/-- The register that is written. -/
def target : EditCommand → Nat
  | empty r _ _ _ | seeded r _ _ _ | emptyLike r _ | copy r _ | relocate r _ _ _ | insert r _ _ _
  | insertPlane r _ _ _ | restrictLayer r _ _ | applyDeletions r _ | unite r _ => r

variable {τ : Type} (ops : EditOps τ)

/-- What the written register becomes, and the answer. -/
def outcome (sets : Nat → τ) : EditCommand → Except EditRefusal (τ × Option Bool)
  | empty _ n l m => .ok (ops.empty n l m, none)
  | seeded _ n l m => (ops.seeded n l m).map fun s => (s, none)
  | emptyLike _ a => .ok (ops.emptyLike (sets a), none)
  | copy _ a => .ok (sets a, none)
  | relocate _ a source target => (ops.relocate (sets a) source target).map fun s => (s, none)
  | insert r t p d => .ok ((ops.insert (sets r) t p d).map id some)
  | insertPlane r p d offsets => (ops.insertPlane (sets r) p d offsets).map (Prod.map id some)
  | restrictLayer r p allowed => (ops.restrictLayer (sets r) p allowed).map fun s => (s, none)
  | applyDeletions r p => (ops.applyDeletions (sets r) p).map fun s => (s, none)
  | unite r a => (ops.union (sets r) (sets a)).map (Prod.map id some)

/-- The registers after a command, and its answer. A command that is refused changes nothing. -/
def step (sets : Nat → τ) (c : EditCommand) : (Nat → τ) × EditReply :=
  match c.outcome ops sets with
  | .ok (s, answer) => (Function.update sets c.target s, .ok answer)
  | .error e => (sets, .error e)

/-- The registers after a script, and the answer of each command. -/
def run : (sets : Nat → τ) → List EditCommand → (Nat → τ) × List EditReply
  | sets, [] => (sets, [])
  | sets, c :: cs =>
    let now := step ops sets c
    let done := run now.1 cs
    (done.1, now.2 :: done.2)

/-- Sets that are made have the bounds `n`, `l` and `m`, and sets of offsets are for texts of length
`n`. -/
def Within (n l m : Nat) : EditCommand → Prop
  | empty _ a b c | seeded _ a b c => a = n ∧ b = l ∧ c = m
  | insertPlane _ _ _ offsets | restrictLayer _ _ offsets => offsets.size = n + 1
  | _ => True

instance (n l m : Nat) : DecidablePred (Within n l m) := fun c => by
  cases c <;> unfold Within <;> infer_instance

end EditCommand

/-! ### The three kinds of operations -/

/-- The operations of sets of edit states. -/
def EditStates.ops : EditOps EditStates where
  empty := .empty
  seeded n l m := .ok (.seeded n l m)
  emptyLike := .emptyLike
  insert s t p d := (s.insert t p d, s.insert t p d ≠ s)
  insertPlane s p d offsets := .ok (s.insertPlane p d offsets, s.insertPlane p d offsets ≠ s)
  relocate s source target := .ok (s.relocate source target)
  restrictLayer s p allowed := .ok (s.restrictLayer p allowed)
  applyDeletions s p := .ok (s.applyDeletions p)
  union s u := ((s.union? u).map fun v => (v, decide (v ≠ s))).mapError fun _ => .bounds

/-- The operations of stored planes. -/
def StoredPlanes.ops : EditOps StoredPlanes where
  empty := .empty
  seeded n l m := (seeded n l m).mapError .sizes
  emptyLike := emptyLike
  insert := insert
  insertPlane x p d offsets := (x.insertPlane p d offsets).mapError .sizes
  relocate x source target := (x.relocate source target).mapError .sizes
  restrictLayer x p allowed := (x.restrictLayer p allowed).mapError .sizes
  applyDeletions x p := (x.applyDeletions p).mapError .sizes
  union := union

/-- A finite set of states within three bounds. -/
structure FiniteStates where
  textLength : ℕ
  patternLength : ℕ
  maxDistance : ℕ
  members : Finset (ℕ × ℕ × ℕ)
  deriving DecidableEq

namespace FiniteStates

variable (S : FiniteStates)

/-- No states. -/
def empty (textLength patternLength maxDistance : ℕ) : FiniteStates :=
  ⟨textLength, patternLength, maxDistance, ∅⟩

/-- No states, within the bounds of `S`. -/
def emptyLike : FiniteStates := empty S.textLength S.patternLength S.maxDistance

/-- The states that lie within the bounds. -/
def bounded (new : Finset (ℕ × ℕ × ℕ)) : Finset (ℕ × ℕ × ℕ) :=
  {x ∈ new | x.1 ≤ S.textLength ∧ x.2.1 ≤ S.patternLength ∧ x.2.2 ≤ S.maxDistance}

/-- The set with some states more, as far as they lie within the bounds, and whether one of them is
new. -/
def join (new : Finset (ℕ × ℕ × ℕ)) : FiniteStates × Bool :=
  ({ S with members := S.members ∪ S.bounded new }, decide (¬S.bounded new ⊆ S.members))

/-- The states at a pattern offset. -/
def layer (pattern : ℕ) : Finset (ℕ × ℕ × ℕ) := {x ∈ S.members | x.2.1 = pattern}

/-- The operations of finite sets of states. From a state, deletions lead along the diagonal to as
many others as its bounds allow. -/
def ops : EditOps FiniteStates where
  empty := empty
  seeded n l m := .ok ((empty n l m).join ((Finset.range (n + 1)).image fun t => (t, 0, 0))).1
  emptyLike := emptyLike
  insert S t p d := S.join {(t, p, d)}
  insertPlane S p d offsets := .ok (S.join (offsets.members.image fun t => (t, p, d)))
  relocate S source target :=
    .ok (S.emptyLike.join ((S.layer source).image fun x => (x.1, target, x.2.2))).1
  restrictLayer S p allowed :=
    .ok { S with members := {x ∈ S.members | x.2.1 = p → x.1 ∈ allowed.members} }
  applyDeletions S p := .ok (S.join ((S.layer p ×ˢ Finset.Icc 1 S.maxDistance).image
    fun r => (r.1.1 + r.2, p, r.1.2.2 + r.2))).1
  union S T :=
    if S.textLength = T.textLength ∧ S.patternLength = T.patternLength ∧
        S.maxDistance = T.maxDistance then .ok (S.join T.members)
    else .error .bounds

end FiniteStates

/-! ### Maps that carry scripts over -/

/-- Among sets with the bounds `n`, `l` and `m`, the operations `B` refuse nothing and do to the
images under `f` what those of sets of edit states do to the sets. -/
structure EditOps.Carries {τ : Type} (B : EditOps τ) (n l m : Nat) (f : EditStates → τ) :
    Prop where
  empty : B.empty n l m = f (.empty n l m)
  seeded : B.seeded n l m = .ok (f (.seeded n l m))
  emptyLike : ∀ {s : EditStates}, s.Bounded n l m → B.emptyLike (f s) = f s.emptyLike
  insert : ∀ {s : EditStates} {t p d : Nat}, s.Bounded n l m →
    B.insert (f s) t p d = (f (s.insert t p d), decide (s.insert t p d ≠ s))
  insertPlane : ∀ {s : EditStates} {p d : Nat} {offsets : OffsetSet}, s.Bounded n l m →
    offsets.size = n + 1 → B.insertPlane (f s) p d offsets =
      .ok (f (s.insertPlane p d offsets), decide (s.insertPlane p d offsets ≠ s))
  relocate : ∀ {s : EditStates} {source target : Nat}, s.Bounded n l m →
    B.relocate (f s) source target = .ok (f (s.relocate source target))
  restrictLayer : ∀ {s : EditStates} {p : Nat} {allowed : OffsetSet}, s.Bounded n l m →
    allowed.size = n + 1 → B.restrictLayer (f s) p allowed = .ok (f (s.restrictLayer p allowed))
  applyDeletions : ∀ {s : EditStates} {p : Nat}, s.Bounded n l m →
    B.applyDeletions (f s) p = .ok (f (s.applyDeletions p))
  union : ∀ {s u : EditStates}, s.Bounded n l m → u.Bounded n l m →
    B.union (f s) (f u) = .ok (f (s.union u), decide (s.union u ≠ s))

namespace EditStates

variable {s u : EditStates} {S : FiniteStates} {n l m t p d q : Nat}

theorem union?_eq (hs : s.Bounded n l m) (hu : u.Bounded n l m) :
    s.union? u = .ok (s.union u) := by
  obtain ⟨rfl, rfl, rfl⟩ := hs
  obtain ⟨hn, hl, hm⟩ := hu
  simp [union?, isCompatible, hn, hl, hm]

/-- No operation of sets of edit states is refused among sets with the same bounds. -/
theorem carries_id (n l m : Nat) : ops.Carries n l m id where
  empty := rfl
  seeded := rfl
  emptyLike _ := rfl
  insert _ := rfl
  insertPlane _ _ := rfl
  relocate _ := rfl
  restrictLayer _ _ := rfl
  applyDeletions _ := rfl
  union hs hu := by simp only [ops, id, union?_eq hs hu, Except.map, Except.mapError]

/-- Stored planes stay the planes of a set of edit states. -/
theorem carries_stored (n l m : Nat) : StoredPlanes.ops.Carries n l m stored where
  empty := rfl
  seeded := by simp only [StoredPlanes.ops, stored_seeded, Except.mapError]
  emptyLike _ := rfl
  insert := stored_insert
  insertPlane hs hsize := by
    simp only [StoredPlanes.ops, stored_insertPlane hs hsize, Except.mapError]
  relocate hs := by simp only [StoredPlanes.ops, stored_relocate hs, Except.mapError]
  restrictLayer hs hsize := by
    simp only [StoredPlanes.ops, stored_restrictLayer hs hsize, Except.mapError]
  applyDeletions hs := by simp only [StoredPlanes.ops, stored_applyDeletions hs, Except.mapError]
  union := stored_union

/-- The bounds and the members of a set of states. -/
def finite (s : EditStates) : FiniteStates :=
  ⟨s.textLength, s.patternLength, s.maxDistance, s.members⟩

theorem mem_bounded_iff (hs : s.Bounded n l m) {new : Finset (ℕ × ℕ × ℕ)} :
    (t, p, d) ∈ s.finite.bounded new ↔ (t, p, d) ∈ new ∧ t ≤ n ∧ p ≤ l ∧ d ≤ m := by
  obtain ⟨rfl, rfl, rfl⟩ := hs
  rw [FiniteStates.bounded, Finset.mem_filter]
  rfl

/-- States are joined to the members if the members of the greater set are the old ones and those
states within the bounds. -/
theorem finite_join (hs : s.Bounded n l m) (hu : u.Bounded n l m) (new : Finset (ℕ × ℕ × ℕ))
    (h : ∀ t p d, (t, p, d) ∈ u ↔
      (t, p, d) ∈ s ∨ ((t, p, d) ∈ new ∧ t ≤ n ∧ p ≤ l ∧ d ≤ m)) :
    s.finite.join new = (u.finite, decide (u ≠ s)) := by
  have hmem : ∀ x, x ∈ u ↔ x ∈ s ∨ x ∈ s.finite.bounded new := fun ⟨t, p, d⟩ => by
    rw [h, mem_bounded_iff hs]
  refine Prod.ext ?_ (decide_eq_decide.2 ?_)
  · obtain ⟨rfl, rfl, rfl⟩ := hs
    obtain ⟨hn, hl, hm⟩ := hu
    have hmembers : s.members ∪ s.finite.bounded new = u.members := by
      ext x
      simp [hmem]
    show FiniteStates.mk s.textLength s.patternLength s.maxDistance _ = ⟨_, _, _, _⟩
    rw [hn, hl, hm, ← hmembers]
    rfl
  · rw [ne_iff_of_grows hs hu hmem, Finset.not_subset]
    simp [finite]

theorem finite_empty (n l m : Nat) : (empty n l m).finite = .empty n l m :=
  congrArg (FiniteStates.mk n l m) members_empty

/-- Finite sets of triples follow the members of sets of edit states. -/
theorem carries_finite (n l m : Nat) : FiniteStates.ops.Carries n l m finite where
  empty := (finite_empty n l m).symm
  seeded := by
    have hempty : (empty n l m).Bounded n l m := ⟨rfl, rfl, rfl⟩
    have hjoin : (empty n l m).finite.join ((Finset.range (n + 1)).image fun t => (t, 0, 0)) = _ :=
      finite_join hempty bounded_seeded _ fun t p d => by
        rw [mem_seeded, or_iff_right not_mem_empty]
        simp only [Finset.mem_image, Finset.mem_range, Prod.mk.injEq]
        grind
    rw [finite_empty] at hjoin
    exact congrArg (fun r => Except.ok r.1) hjoin
  emptyLike _ := (finite_empty _ _ _).symm
  insert {s i q e} hs := finite_join hs (bounded_insert hs i q e) _ fun t p d => by
    rw [mem_insert hs, Finset.mem_singleton]
  insertPlane {s q e offsets} hs hsize := by
    refine congrArg Except.ok (finite_join hs (bounded_insertPlane hs q e offsets) _
      fun t p d => ?_)
    rw [mem_insertPlane, hs.1, hs.2.1, hs.2.2]
    simp only [Finset.mem_image, OffsetSet.mem_members, Prod.mk.injEq]
    grind
  relocate {s source target} hs := by
    have hjoin : s.emptyLike.finite.join _ = _ :=
      finite_join (bounded_emptyLike hs) (bounded_relocate hs source target)
        ((s.finite.layer source).image fun x => (x.1, target, x.2.2)) fun t p d => by
        rw [mem_relocate, or_iff_right not_mem_emptyLike, hs.2.1]
        have hle := hs.le_of_mem (t := t) (p := source) (d := d)
        simp only [FiniteStates.layer, Finset.mem_image, Finset.mem_filter, finite, mem_members,
          Prod.exists, Prod.mk.injEq]
        grind
    rw [emptyLike, finite_empty] at hjoin
    exact congrArg (fun r => Except.ok r.1) hjoin
  restrictLayer hs hsize := by
    refine congrArg (fun S => Except.ok (FiniteStates.mk _ _ _ S)) ?_
    ext ⟨t, p, d⟩
    simp [finite, mem_restrictLayer]
  applyDeletions {s q} hs := by
    have hjoin : s.finite.join _ = _ := finite_join hs (bounded_applyDeletions hs q)
      ((s.finite.layer q ×ˢ Finset.Icc 1 m).image fun r => (r.1.1 + r.2, q, r.1.2.2 + r.2))
      fun t p d => ?_
    · obtain rfl : s.finite.maxDistance = m := hs.2.2
      exact congrArg (fun r => Except.ok r.1) hjoin
    · rw [mem_applyDeletions hs]
      simp only [FiniteStates.layer, Finset.mem_image, Finset.mem_product, Finset.mem_filter,
        Finset.mem_Icc, finite, mem_members, Prod.exists, Prod.mk.injEq]
      constructor
      · rintro (hx | ⟨rfl, ht, hd, i, k, c, hi, rfl, rfl⟩)
        · exact Or.inl hx
        · cases k with
          | zero => exact Or.inl hi
          | succ k =>
            have hp : p ≤ l := (hs.le_of_mem hi).2.1
            exact Or.inr ⟨⟨i, p, c, k + 1, ⟨⟨hi, rfl⟩, by omega⟩, rfl, rfl, rfl⟩, ht, hp, hd⟩
      · rintro (hx | ⟨⟨i, _, c, k, ⟨⟨hi, rfl⟩, -⟩, rfl, rfl, rfl⟩, ht, -, hd⟩)
        · exact Or.inl hx
        · exact Or.inr ⟨rfl, ht, hd, i, k, c, hi, rfl, rfl⟩
  union {s u} hs hu := by
    have hbounds : s.finite.textLength = u.finite.textLength ∧
        s.finite.patternLength = u.finite.patternLength ∧
        s.finite.maxDistance = u.finite.maxDistance :=
      ⟨hs.1.trans hu.1.symm, hs.2.1.trans hu.2.1.symm, hs.2.2.trans hu.2.2.symm⟩
    refine (if_pos hbounds).trans (congrArg Except.ok ?_)
    refine finite_join hs (bounded_union hs u) _ fun t p d => ?_
    rw [mem_union hs hu]
    refine or_congr_right ?_
    rw [finite, mem_members]
    exact (and_iff_left_of_imp hu.le_of_mem).symm

end EditStates

/-! ### Runs among sets with the same bounds -/

namespace EditCommand

variable {n l m : Nat} {sets : Nat → EditStates}

/-- A command makes of sets with the same bounds a set with these bounds and has one answer,
whichever operations it is run with. -/
theorem common_outcome (hsets : ∀ r, (sets r).Bounded n l m) {c : EditCommand}
    (hc : c.Within n l m) :
    ∃ (s : EditStates) (answer : Option Bool), s.Bounded n l m ∧
      ∀ {τ : Type} {ops : EditOps τ} {f : EditStates → τ},
        ops.Carries n l m f → c.outcome ops (f ∘ sets) = .ok (f s, answer) := by
  cases c with
  | empty r a b c =>
    obtain ⟨rfl, rfl, rfl⟩ := hc
    exact ⟨.empty a b c, none, ⟨rfl, rfl, rfl⟩, fun h => by simp [outcome, h.empty]⟩
  | seeded r a b c =>
    obtain ⟨rfl, rfl, rfl⟩ := hc
    exact ⟨.seeded a b c, none, EditStates.bounded_seeded, fun h => by
      simp [outcome, h.seeded, Except.map]⟩
  | emptyLike r a =>
    exact ⟨(sets a).emptyLike, none, EditStates.bounded_emptyLike (hsets a), fun h => by
      simp [outcome, h.emptyLike (hsets a)]⟩
  | copy r a => exact ⟨sets a, none, hsets a, fun _ => rfl⟩
  | relocate r a source target =>
    exact ⟨(sets a).relocate source target, none, EditStates.bounded_relocate (hsets a) _ _,
      fun h => by simp [outcome, h.relocate (hsets a), Except.map]⟩
  | insert r t p d =>
    exact ⟨(sets r).insert t p d, some (decide ((sets r).insert t p d ≠ sets r)),
      EditStates.bounded_insert (hsets r) t p d, fun h => by simp [outcome, h.insert (hsets r)]⟩
  | insertPlane r p d offsets =>
    exact ⟨(sets r).insertPlane p d offsets,
      some (decide ((sets r).insertPlane p d offsets ≠ sets r)),
      EditStates.bounded_insertPlane (hsets r) p d offsets, fun h => by
        simp [outcome, h.insertPlane (hsets r) hc, Except.map]⟩
  | restrictLayer r p allowed =>
    exact ⟨(sets r).restrictLayer p allowed, none,
      EditStates.bounded_restrictLayer (hsets r) allowed, fun h => by
        simp [outcome, h.restrictLayer (hsets r) hc, Except.map]⟩
  | applyDeletions r p =>
    exact ⟨(sets r).applyDeletions p, none, EditStates.bounded_applyDeletions (hsets r) p,
      fun h => by simp [outcome, h.applyDeletions (hsets r), Except.map]⟩
  | unite r a =>
    exact ⟨(sets r).union (sets a), some (decide ((sets r).union (sets a) ≠ sets r)),
      EditStates.bounded_union (hsets r) (sets a), fun h => by
        simp [outcome, h.union (hsets r) (hsets a), Except.map]⟩

/-- A command leads from sets with the same bounds to sets with these bounds and has one answer,
whichever operations it is run with. -/
theorem common_step (hsets : ∀ r, (sets r).Bounded n l m) {c : EditCommand}
    (hc : c.Within n l m) :
    ∃ (next : Nat → EditStates) (answer : Option Bool), (∀ r, (next r).Bounded n l m) ∧
      ∀ {τ : Type} {ops : EditOps τ} {f : EditStates → τ},
        ops.Carries n l m f → c.step ops (f ∘ sets) = (f ∘ next, .ok answer) := by
  obtain ⟨s, answer, hs, hout⟩ := common_outcome hsets hc
  refine ⟨Function.update sets c.target s, answer, fun r => ?_, fun {τ ops f} h => ?_⟩
  · by_cases hr : r = c.target
    · simp [hr, hs]
    · simp [hr, hsets r]
  · rw [step, hout h, Function.comp_update]

/-- Whatever the script is, nothing is refused, and the registers stay in step and the answers the
same. -/
theorem common_run (hsets : ∀ r, (sets r).Bounded n l m) {cs : List EditCommand}
    (hcs : ∀ c ∈ cs, c.Within n l m) :
    ∃ (done : Nat → EditStates) (answers : List (Option Bool)),
      (∀ r, (done r).Bounded n l m) ∧
      ∀ {τ : Type} {ops : EditOps τ} {f : EditStates → τ},
        ops.Carries n l m f → run ops (f ∘ sets) cs = (f ∘ done, answers.map .ok) := by
  induction cs generalizing sets with
  | nil => exact ⟨sets, [], hsets, fun _ => rfl⟩
  | cons c cs ih =>
    obtain ⟨hc, hcs⟩ := List.forall_mem_cons.1 hcs
    obtain ⟨next, answer, hnext, hstep⟩ := common_step hsets hc
    obtain ⟨done, answers, hdone, hrun⟩ := ih hnext hcs
    refine ⟨done, answer :: answers, hdone, fun h => ?_⟩
    simp only [run, hstep h, hrun h, List.map_cons]

end EditCommand

/-! ### What registers hold after a script -/

/-- What can be read off a set of edit states is what a finite set of triples says. -/
structure EditStates.Denotes (s : EditStates) (S : FiniteStates) : Prop where
  bounds : s.Bounded S.textLength S.patternLength S.maxDistance
  within : ∀ x ∈ S.members,
    x.1 ≤ S.textLength ∧ x.2.1 ≤ S.patternLength ∧ x.2.2 ≤ S.maxDistance
  contains : ∀ t p d, s.contains t p d = true ↔ (t, p, d) ∈ S.members
  plane : ∀ t p d, (∃ plane, s.plane p d = some plane ∧ t ∈ plane) ↔ (t, p, d) ∈ S.members
  inhabited : ∀ p d plane, s.plane p d = some plane → plane.isEmpty = false
  layer : ∀ p, (s.layer p).Pairwise (fun a b => a.1 < b.1) ∧
    ∀ d plane, (d, plane) ∈ s.layer p ↔ s.plane p d = some plane
  layerOffsets : ∀ t p, t ∈ s.layerOffsets p ↔ ∃ d, (t, p, d) ∈ S.members
  matchEnds : ∀ t d, (t, d) ∈ EndDistances.pairs s.matchEnds ↔
    (t, S.patternLength, d) ∈ S.members
  ordered : s.toList.Pairwise fun a b =>
    a.1 < b.1 ∨ a.1 = b.1 ∧ (a.2.1 < b.2.1 ∨ a.2.1 = b.2.1 ∧ a.2.2 < b.2.2)
  listed : ∀ x, x ∈ s.toList ↔ x ∈ S.members
  length : s.toList.length = s.card
  card : s.card = S.members.card
  isEmpty : s.isEmpty = true ↔ S.members = ∅

theorem EditStates.denotes (s : EditStates) : s.Denotes s.finite where
  bounds := ⟨rfl, rfl, rfl⟩
  within _ hx := le_of_mem (mem_members.1 hx)
  contains _ _ _ := contains_iff.trans mem_members.symm
  plane _ _ _ := mem_iff_plane.symm.trans mem_members.symm
  inhabited _ _ _ := isEmpty_of_plane
  layer p := ⟨s.pairwise_layer p, fun _ _ => mem_layer_iff_plane⟩
  layerOffsets _ _ := mem_layerOffsets.trans (exists_congr fun _ => mem_members.symm)
  matchEnds _ _ := mem_pairs_matchEnds.trans mem_members.symm
  ordered := s.pairwise_toList
  listed _ := mem_toList.trans mem_members.symm
  length := s.card_eq_length_toList.symm
  card := s.card_eq_card_members
  isEmpty := isEmpty_iff_members

/-- Sets with other bounds are not united with sets with these. -/
theorem EditStates.refuses_union {s u : EditStates} {n l m : Nat} (hs : s.Bounded n l m)
    (hu : ¬u.Bounded n l m) : ops.union s u = .error .bounds := by
  have hcompatible : s.isCompatible u = false := by
    rw [← Bool.not_eq_true]
    intro h
    obtain ⟨rfl, rfl, rfl⟩ := hs
    simp only [isCompatible, Bool.and_eq_true, decide_eq_true_eq] at h
    exact hu ⟨h.1.1.symm, h.1.2.symm, h.2.symm⟩
  simp [ops, union?, hcompatible, Except.map, Except.mapError]

/-- Planes with other bounds are not united with planes with these. -/
theorem StoredPlanes.refuses_union {x y : StoredPlanes} {n l m : Nat} (hx : x.Sound n l m)
    (hy : ¬(y.textLength = n ∧ y.patternLength = l ∧ y.maxDistance = m)) :
    x.union y = .error .bounds := by
  obtain ⟨rfl, rfl, rfl⟩ := hx.bounds
  exact if_neg fun h => hy ⟨h.1.symm, h.2.1.symm, h.2.2.symm⟩

/-- Run a script for sets with the same bounds on sets of edit states, on stored planes and on
finite sets of triples. Nothing is refused and all three answer alike; the planes that are stored
are those of the sets, none of them is empty, and the triples say all that can be read off the sets,
off one or off two of them. A layer that is closed under deletions stays so, and a union with a set
with other bounds is refused. -/
theorem scripts_of_edit_states_denote_finite_sets (n l m : Nat) (cs : List EditCommand)
    (hcs : ∀ c ∈ cs, c.Within n l m) :
    let done := EditCommand.run EditStates.ops (fun _ => .empty n l m) cs
    let stored := EditCommand.run StoredPlanes.ops (fun _ => .empty n l m) cs
    let finite := EditCommand.run FiniteStates.ops (fun _ => .empty n l m) cs
    (done.2 = finite.2 ∧ stored.2 = finite.2 ∧ ∀ reply ∈ finite.2, ∃ answer, reply = .ok answer) ∧
    (∀ r, (done.1 r).Bounded n l m ∧ (done.1 r).Denotes (finite.1 r) ∧
      stored.1 r = (done.1 r).stored ∧ (stored.1 r).Sound n l m) ∧
    (∀ r a,
      (done.1 r = done.1 a ↔ (finite.1 r).members = (finite.1 a).members) ∧
      (stored.1 r = stored.1 a ↔ (finite.1 r).members = (finite.1 a).members)) ∧
    (∀ r p,
      ((done.1 r).applyDeletions p).applyDeletions p = (done.1 r).applyDeletions p ∧
      ∃ x, (stored.1 r).applyDeletions p = .ok x ∧ x.applyDeletions p = .ok x) ∧
    ∀ r,
      (∀ u : EditStates, ¬u.Bounded n l m →
        EditStates.ops.union (done.1 r) u = .error .bounds) ∧
      ∀ y : StoredPlanes, ¬(y.textLength = n ∧ y.patternLength = l ∧ y.maxDistance = m) →
        StoredPlanes.ops.union (stored.1 r) y = .error .bounds := by
  intro done stored finite
  have hblank : ∀ r, ((fun _ => .empty n l m : Nat → EditStates) r).Bounded n l m :=
    fun _ => ⟨rfl, rfl, rfl⟩
  -- one run of which the three are images
  obtain ⟨sets, answers, hsets, hrun⟩ := EditCommand.common_run hblank hcs
  have hdone : done = (id ∘ sets, answers.map .ok) := hrun (EditStates.carries_id n l m)
  have hstored : stored = (EditStates.stored ∘ sets, answers.map .ok) :=
    hrun (EditStates.carries_stored n l m)
  have hfinite : finite = (EditStates.finite ∘ sets, answers.map .ok) := by
    have h := hrun (EditStates.carries_finite n l m)
    rwa [show EditStates.finite ∘ (fun _ => EditStates.empty n l m) = fun _ => .empty n l m from
      funext fun _ => EditStates.finite_empty n l m] at h
  rw [hdone, hstored, hfinite]
  refine ⟨⟨rfl, rfl, by simp⟩, fun r => ⟨hsets r, (sets r).denotes, rfl,
    EditStates.sound_stored (hsets r)⟩, fun r a => ?_, fun r p => ?_, fun r => ⟨?_, ?_⟩⟩
  · have heq := EditStates.eq_iff_members (hsets r) (hsets a)
    exact ⟨heq, EditStates.stored_inj.trans heq⟩
  · have hclosed := EditStates.applyDeletions_applyDeletions (hsets r) p
    refine ⟨hclosed, _, EditStates.stored_applyDeletions (hsets r) p, ?_⟩
    rw [EditStates.stored_applyDeletions (EditStates.bounded_applyDeletions (hsets r) p), hclosed]
  · exact fun u hu => EditStates.refuses_union (hsets r) hu
  · exact fun y hy => StoredPlanes.refuses_union (EditStates.sound_stored (hsets r)) hy

/-- When the last state of a layer goes, its plane goes: what is left is the empty set. -/
theorem edit_states_without_their_layer_are_empty :
    let cs : List EditCommand := [.insert 0 1 1 0, .applyDeletions 0 1,
      .restrictLayer 0 1 (.empty 4)]
    let stored := EditCommand.run StoredPlanes.ops (fun _ => .empty 3 2 2) cs
    (∀ c ∈ cs, c.Within 3 2 2) ∧ (stored.1 0).Sound 3 2 2 ∧ stored.1 0 = stored.1 1 := by
  intro cs stored
  have hcs : ∀ c ∈ cs, c.Within 3 2 2 := by decide
  obtain ⟨-, hsets, heq, -⟩ := scripts_of_edit_states_denote_finite_sets 3 2 2 cs hcs
  exact ⟨hcs, (hsets 0).2.2.2, (heq 0 1).2.2 (by decide)⟩

end PatternSweep
