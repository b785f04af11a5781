import Mathlib.Data.Finset.Prod
import PatternSweep.Proofs.IndexedSpans
import PatternSweep.Proofs.OffsetScripts

/-!
# Scripts of span sets

A script works on registers of two kinds, offset sets and span sets, and moves from one kind to the
other: offsets are lifted to spans or filter them, spans leave their starts or their ends. As for
scripts of offset sets, what a command does is left to the `SpanOps` it is run with: the operations
of span sets, of ends kept beside the rows, and of finite sets of pairs. As long as all sets are of
one size, which no command changes (`SpanCommand.step_sized`), nothing is refused and each of the
others stays in step with the span sets (`SpanOps.Carries.run`). So a script of span sets does to
their pairs what it says (`scripts_of_span_sets_denote_finite_sets`).
-/

namespace PatternSweep

/-- The ways to make a set of spans, to change it and to read offsets off it, beside those for sets
of offsets. -/
structure SpanOps (σ τ : Type) where
  plain : OffsetOps σ
  empty : (size : Nat) → τ
  lift : σ → τ
  insert : τ → (start stop : Nat) → τ × Bool
  insertStarts : τ → σ → (stop : Nat) → Except SizeMismatch (τ × Bool)
  union : τ → τ → Except SizeMismatch (τ × Bool)
  keepStarts : τ → σ → Except SizeMismatch τ
  dropStarts : τ → σ → Except SizeMismatch τ
  keepEnds : τ → σ → Except SizeMismatch τ
  whereStarts : τ → τ → Except SizeMismatch τ
  whereNotStarts : τ → τ → Except SizeMismatch τ
  starts : τ → Except SizeMismatch σ
  ends : τ → σ

/-- What becomes of one set of spans. -/
inductive SpanChange
  /-- It becomes the empty set of a size. -/
  | empty (size : Nat)
  /-- It becomes the set of the empty spans at the offsets of `a`. -/
  | lift (a : Nat)
  /-- It becomes what `a` is. -/
  | copy (a : Nat)
  /-- A span is put in. -/
  | insert (start stop : Nat)
  /-- A span is put in from every offset of `a` to one end. -/
  | insertStarts (a stop : Nat)
  /-- The spans of `a` are put in. -/
  | unite (a : Nat)
  /-- The spans stay that start at an offset of `a`. -/
  | keepStarts (a : Nat)
  /-- The spans go that start at an offset of `a`. -/
  | dropStarts (a : Nat)
  /-- The spans stay that end at an offset of `a`. -/
  | keepEnds (a : Nat)
  /-- The spans stay that start where a span of `a` does. -/
  | whereStarts (a : Nat)
  /-- The spans go that start where a span of `a` does. -/
  | whereNotStarts (a : Nat)
  deriving DecidableEq, Repr

/-- A change of one of several sets of offsets, or of one of several sets of spans. -/
inductive SpanCommand
  /-- A command for the sets of offsets. -/
  | plain (c : OffsetCommand)
  /-- The offsets `r` become the starts of the spans `a`. -/
  | starts (r a : Nat)
  /-- The offsets `r` become the ends of the spans `a`. -/
  | ends (r a : Nat)
  /-- The spans `r` are changed. -/
  | spans (r : Nat) (c : SpanChange)
  deriving DecidableEq, Repr

/-- The sets of a script, of offsets and of spans. -/
structure Registers (σ τ : Type) where
  plain : Nat → σ
  spans : Nat → τ

namespace Registers

variable {σ τ σ' τ' : Type}

/-- All sets are made over. -/
def map (f : σ → σ') (g : τ → τ') (regs : Registers σ τ) : Registers σ' τ' :=
  ⟨f ∘ regs.plain, g ∘ regs.spans⟩

/-- The register `r` of offsets is written. -/
def setPlain (regs : Registers σ τ) (r : Nat) (s : σ) : Registers σ τ :=
  ⟨Function.update regs.plain r s, regs.spans⟩

/-- The register `r` of spans is written. -/
def setSpans (regs : Registers σ τ) (r : Nat) (t : τ) : Registers σ τ :=
  ⟨regs.plain, Function.update regs.spans r t⟩

variable {f : σ → σ'} {g : τ → τ'}

theorem map_setPlain (regs : Registers σ τ) (r : Nat) (s : σ) :
    (regs.setPlain r s).map f g = (regs.map f g).setPlain r (f s) :=
  congrArg (Registers.mk · _) (Function.comp_update f regs.plain r s)

theorem map_setSpans (regs : Registers σ τ) (r : Nat) (t : τ) :
    (regs.setSpans r t).map f g = (regs.map f g).setSpans r (g t) :=
  congrArg (Registers.mk _) (Function.comp_update g regs.spans r t)

/-- All sets are between the offsets below `n`. -/
def Sized (n : Nat) (regs : Registers OffsetSet SpanSet) : Prop :=
  (∀ r, (regs.plain r).size = n) ∧ ∀ r, (regs.spans r).Sized n

end Registers

section Runs

variable {σ τ : Type} (ops : SpanOps σ τ) (regs : Registers σ τ)

/-- What becomes of the spans `t`, and the answer. -/
def SpanChange.outcome (t : τ) : SpanChange → Except SizeMismatch (τ × Option Bool)
  | empty size => .ok (ops.empty size, none)
  | lift a => .ok (ops.lift (regs.plain a), none)
  | copy a => .ok (regs.spans a, none)
  | insert start stop => .ok ((ops.insert t start stop).map id some)
  | insertStarts a stop => (ops.insertStarts t (regs.plain a) stop).map (Prod.map id some)
  | unite a => (ops.union t (regs.spans a)).map (Prod.map id some)
  | keepStarts a => (ops.keepStarts t (regs.plain a)).map fun u => (u, none)
  | dropStarts a => (ops.dropStarts t (regs.plain a)).map fun u => (u, none)
  | keepEnds a => (ops.keepEnds t (regs.plain a)).map fun u => (u, none)
  | whereStarts a => (ops.whereStarts t (regs.spans a)).map fun u => (u, none)
  | whereNotStarts a => (ops.whereNotStarts t (regs.spans a)).map fun u => (u, none)

namespace SpanCommand

/-- The registers after a command, and its answer. A command that is refused changes nothing. -/
def step : SpanCommand → Registers σ τ × Reply
  | plain c => (⟨(c.step ops.plain regs.plain).1, regs.spans⟩, (c.step ops.plain regs.plain).2)
  | starts r a =>
    match ops.starts (regs.spans a) with
    | .ok s => (regs.setPlain r s, .ok none)
    | .error e => (regs, .error e)
  | ends r a => (regs.setPlain r (ops.ends (regs.spans a)), .ok none)
  | spans r c =>
    match c.outcome ops regs (regs.spans r) with
    | .ok (t, answer) => (regs.setSpans r t, .ok answer)
    | .error e => (regs, .error e)

/-- The registers after a script, and the answer of each command. -/
def run : (regs : Registers σ τ) → List SpanCommand → Registers σ τ × List Reply
  | regs, [] => (regs, [])
  | regs, c :: cs =>
    let now := step ops regs c
    let done := run now.1 cs
    (done.1, now.2 :: done.2)

end SpanCommand

end Runs

/-! ### Span sets, their ends and rows, and their pairs -/

/-- The operations of span sets. -/
def SpanSet.ops : SpanOps OffsetSet SpanSet where
  plain := OffsetSet.ops
  empty := SpanSet.empty
  lift := SpanSet.lift
  insert t start stop := (t.insert start stop, t.adds start stop)
  insertStarts t s stop := (t.insertStarts? s stop).map fun u => (u, t.gainsAt s stop)
  union t u := (t.union? u).map fun v => (v, t.gains u)
  keepStarts := SpanSet.keepStarts?
  dropStarts := SpanSet.dropStarts?
  keepEnds := SpanSet.keepEnds?
  whereStarts := SpanSet.whereStarts?
  whereNotStarts := SpanSet.whereNotStarts?
  starts := SpanSet.starts?
  ends := SpanSet.ends

/-- The operations on ends that are kept beside the rows. -/
def IndexedSpans.ops : SpanOps OffsetSet IndexedSpans where
  plain := OffsetSet.ops
  empty := IndexedSpans.empty
  lift := IndexedSpans.lift
  insert := IndexedSpans.insert
  insertStarts := IndexedSpans.insertStarts
  union := IndexedSpans.union
  keepStarts := IndexedSpans.keepStarts
  dropStarts := IndexedSpans.dropStarts
  keepEnds := IndexedSpans.keepEnds
  whereStarts x y := y.starts.bind x.keepStarts
  whereNotStarts x y := y.starts.bind x.dropStarts
  starts := IndexedSpans.starts
  ends := IndexedSpans.ends

/-- A finite set of pairs of offsets below a size. -/
structure FiniteSpans where
  size : ℕ
  members : Finset (ℕ × ℕ)
  deriving DecidableEq

namespace FiniteSpans

/-- The set with some pairs more, and whether one of them is new. -/
def join (T : FiniteSpans) (new : Finset (ℕ × ℕ)) : FiniteSpans × Bool :=
  (⟨T.size, T.members ∪ new⟩, decide (¬new ⊆ T.members))

/-- The pairs with a property. -/
def keep (T : FiniteSpans) (q : ℕ × ℕ → Prop) [DecidablePred q] : FiniteSpans :=
  ⟨T.size, T.members.filter q⟩

/-- The operations of finite sets of pairs. They take sets of any size. -/
def ops : SpanOps FiniteOffsets FiniteSpans where
  plain := FiniteOffsets.ops
  empty n := ⟨n, ∅⟩
  lift S := ⟨S.size, S.members.image fun p => (p, p)⟩
  insert T start stop := T.join (if start < T.size ∧ stop < T.size then {(start, stop)} else ∅)
  insertStarts T S stop := .ok (T.join (if stop < T.size then S.members ×ˢ {stop} else ∅))
  union T U := .ok (T.join U.members)
  keepStarts T S := .ok (T.keep fun r => r.1 ∈ S.members)
  dropStarts T S := .ok (T.keep fun r => r.1 ∉ S.members)
  keepEnds T S := .ok (T.keep fun r => r.2 ∈ S.members)
  whereStarts T U := .ok (T.keep fun r => r.1 ∈ U.members.image Prod.fst)
  whereNotStarts T U := .ok (T.keep fun r => r.1 ∉ U.members.image Prod.fst)
  starts T := .ok ⟨T.size, T.members.image Prod.fst⟩
  ends T := ⟨T.size, T.members.image Prod.snd⟩

end FiniteSpans

namespace SpanSet

variable {t u : SpanSet} {s : OffsetSet} {i j k n : Nat}

/-- The pairs of a span set by themselves. -/
def finite (t : SpanSet) : FiniteSpans := ⟨t.size, t.members⟩

/-- A set with some pairs more, where the answer says whether one of them is new. -/
theorem finite_join {new : Finset (ℕ × ℕ)} {b : Bool} (hsize : u.size = t.size)
    (hmem : ∀ i j, (i, j) ∈ u ↔ (i, j) ∈ t ∨ (i, j) ∈ new)
    (hb : b = true ↔ ∃ i j, (i, j) ∈ new ∧ (i, j) ∉ t) : t.finite.join new = (u.finite, b) := by
  refine Prod.ext ?_ (Bool.eq_iff_iff.2 ?_)
  · rw [FiniteSpans.join, finite, finite, hsize]
    refine congrArg (FiniteSpans.mk t.size) ?_
    ext ⟨i, j⟩
    rw [Finset.mem_union, mem_members, mem_members, hmem]
  · rw [hb, FiniteSpans.join, decide_eq_true_eq, Finset.not_subset, Prod.exists]
    simp only [finite, mem_members]

/-- The pairs with a property. -/
theorem finite_keep {q : ℕ × ℕ → Prop} [DecidablePred q] (hsize : u.size = t.size)
    (h : ∀ i j, (i, j) ∈ u ↔ (i, j) ∈ t ∧ q (i, j)) : t.finite.keep q = u.finite := by
  rw [FiniteSpans.keep, finite, finite, hsize]
  refine congrArg (FiniteSpans.mk t.size) ?_
  ext ⟨i, j⟩
  rw [Finset.mem_filter, mem_members, mem_members, h]

end SpanSet

/-! ### Maps that carry scripts over -/

/-- On sets between the offsets below `n` the operations do what those of span sets do, seen
through `f` and `g`, and refuse nothing. -/
structure SpanOps.Carries {σ τ : Type} (n : Nat) (ops : SpanOps σ τ) (f : OffsetSet → σ)
    (g : SpanSet → τ) : Prop where
  plain : OffsetSet.ops.Carries ops.plain f
  empty : ∀ m, ops.empty m = g (.empty m)
  lift : ∀ s, ops.lift (f s) = g (.lift s)
  insert : ∀ {t}, t.Sized n → ∀ i j, ops.insert (g t) i j = (g (t.insert i j), t.adds i j)
  insertStarts : ∀ {t s}, t.Sized n → s.size = n → ∀ j,
    ops.insertStarts (g t) (f s) j = .ok (g (t.insertStarts s j), t.gainsAt s j)
  union : ∀ {t u}, t.Sized n → u.Sized n → ops.union (g t) (g u) = .ok (g (t.union u), t.gains u)
  keepStarts : ∀ {t s}, t.Sized n → s.size = n →
    ops.keepStarts (g t) (f s) = .ok (g (t.keepStarts s))
  dropStarts : ∀ {t s}, t.Sized n → s.size = n →
    ops.dropStarts (g t) (f s) = .ok (g (t.dropStarts s))
  keepEnds : ∀ {t s}, t.Sized n → s.size = n → ops.keepEnds (g t) (f s) = .ok (g (t.keepEnds s))
  whereStarts : ∀ {t u}, t.Sized n → u.Sized n →
    ops.whereStarts (g t) (g u) = .ok (g (t.whereStarts u))
  whereNotStarts : ∀ {t u}, t.Sized n → u.Sized n →
    ops.whereNotStarts (g t) (g u) = .ok (g (t.whereNotStarts u))
  starts : ∀ {t}, t.Sized n → ops.starts (g t) = .ok (f t.starts)
  ends : ∀ {t}, t.Sized n → ops.ends (g t) = f t.ends

/-- Span sets of one size do not refuse each other. -/
theorem SpanSet.carries_id (n : Nat) : SpanSet.ops.Carries n id id where
  plain := .refl _
  empty _ := rfl
  lift _ := rfl
  insert _ _ _ := rfl
  insertStarts ht hs _ := by simp only [ops, id, insertStarts?_eq ht hs]; rfl
  union ht hu := by simp only [ops, id, union?_eq ht hu]; rfl
  keepStarts := keepStarts?_eq
  dropStarts := dropStarts?_eq
  keepEnds := keepEnds?_eq
  whereStarts := whereStarts?_eq
  whereNotStarts := whereNotStarts?_eq
  starts := starts?_eq
  ends _ := rfl

/-- Ends kept beside the rows stay the ends of the rows. -/
theorem SpanSet.carries_indexed (n : Nat) : IndexedSpans.ops.Carries n id indexed where
  plain := .refl _
  empty m := (indexed_empty m).symm
  lift := indexed_lift
  insert ht _ _ := indexed_insert ht
  insertStarts ht hs _ := indexed_insertStarts ht hs
  union := indexed_union
  keepStarts := indexed_keepStarts
  dropStarts := indexed_dropStarts
  keepEnds := indexed_keepEnds
  whereStarts ht hu := by
    simp only [IndexedSpans.ops, indexed_starts hu]
    exact indexed_keepStarts ht (size_starts.trans hu.1)
  whereNotStarts ht hu := by
    simp only [IndexedSpans.ops, indexed_starts hu]
    exact indexed_dropStarts ht (size_starts.trans hu.1)
  starts := indexed_starts
  ends _ := rfl

/-- Finite sets of pairs follow the members of span sets. -/
theorem SpanSet.carries_finite (n : Nat) : FiniteSpans.ops.Carries n OffsetSet.finite finite where
  plain := OffsetSet.carries_finite
  empty m := congrArg (FiniteSpans.mk m) (by ext r; simp)
  lift s := congrArg (FiniteSpans.mk s.size) <| by
    ext ⟨i, j⟩
    simp only [Finset.mem_image, mem_members, mem_lift, OffsetSet.finite, OffsetSet.mem_members,
      Prod.mk.injEq]
    constructor
    · rintro ⟨p, hp, rfl, rfl⟩
      exact ⟨rfl, hp⟩
    · rintro ⟨rfl, hi⟩
      exact ⟨i, hi, rfl, rfl⟩
  insert {t} ht a b := by
    have hsize : t.finite.size = n := ht.1
    refine finite_join rfl (fun i j => ?_) ?_
    · rw [mem_insert ht, hsize]
      refine or_congr_right ?_
      by_cases h : a < n ∧ b < n
      · rw [if_pos h, Finset.mem_singleton]
        grind
      · rw [if_neg h]
        grind
    · rw [adds_iff ht, hsize]
      by_cases h : a < n ∧ b < n <;> simp [h]
  insertStarts {t s} ht hs k := by
    have hsize : t.finite.size = n := ht.1
    refine congrArg Except.ok (finite_join rfl (fun i j => ?_) ?_)
    · rw [mem_insertStarts ht hs, hsize]
      refine or_congr_right ?_
      by_cases h : k < n
      · rw [if_pos h, Finset.mem_product, Finset.mem_singleton, OffsetSet.finite,
          OffsetSet.mem_members]
        grind
      · rw [if_neg h]
        grind
    · rw [gainsAt_iff ht hs, hsize]
      by_cases h : k < n <;> simp [h, OffsetSet.finite]
  union ht hu := by
    refine congrArg Except.ok (finite_join rfl (fun i j => ?_) ?_)
    · rw [mem_union ht hu]
      simp [finite]
    · rw [gains_iff ht hu, Prod.exists]
      simp [finite]
  keepStarts ht hs := congrArg Except.ok <| finite_keep rfl fun i j => by
    simp [mem_keepStarts, OffsetSet.finite]
  dropStarts ht hs := congrArg Except.ok <| finite_keep rfl fun i j => by
    simp [mem_dropStarts, OffsetSet.finite]
  keepEnds ht hs := congrArg Except.ok <| finite_keep rfl fun i j => by
    simp [mem_keepEnds, OffsetSet.finite]
  whereStarts ht hu := congrArg Except.ok <| finite_keep rfl fun i j => by
    simp [mem_whereStarts hu, finite]
  whereNotStarts ht hu := congrArg Except.ok <| finite_keep rfl fun i j => by
    simp [mem_whereNotStarts hu, finite]
  starts {t} ht := by
    have hmembers : t.finite.members.image Prod.fst = t.starts.members := by
      ext i
      simp [mem_starts ht, finite]
    change Except.ok (FiniteOffsets.mk t.size _) = _
    rw [hmembers, OffsetSet.finite, size_starts]
  ends ht := congrArg (FiniteOffsets.mk _) (by ext j; simp [mem_ends, finite])

/-! ### Runs among sets of one size -/

/-- A set that is made has the size `n`. -/
def SpanChange.Sized (n : Nat) : SpanChange → Prop
  | empty size => size = n
  | _ => True

instance (n : Nat) : DecidablePred (SpanChange.Sized n) := fun c => by
  cases c <;> unfold SpanChange.Sized <;> infer_instance

/-- A set that is made has the size `n`. -/
def SpanCommand.Sized (n : Nat) : SpanCommand → Prop
  | plain c => c.Sized n
  | spans _ c => c.Sized n
  | _ => True

instance (n : Nat) : DecidablePred (SpanCommand.Sized n) := fun c => by
  cases c <;> unfold SpanCommand.Sized <;> infer_instance

section Common

variable {n : Nat} {regs : Registers OffsetSet SpanSet}

/-- A change of spans has one outcome, whichever operations it is run with. -/
theorem SpanChange.common_outcome (hregs : regs.Sized n) {t : SpanSet} (ht : t.Sized n)
    {c : SpanChange} (hc : c.Sized n) :
    ∃ (u : SpanSet) (answer : Option Bool), u.Sized n ∧
      ∀ {σ τ : Type} {ops : SpanOps σ τ} {f : OffsetSet → σ} {g : SpanSet → τ},
        ops.Carries n f g → c.outcome ops (regs.map f g) (g t) = .ok (g u, answer) := by
  obtain ⟨hplain, hspans⟩ := hregs
  cases c with
  | empty size =>
    subst hc
    exact ⟨.empty size, none, SpanSet.sized_empty, fun h => by simp [outcome, h.empty]⟩
  | lift a =>
    refine ⟨.lift (regs.plain a), none, SpanSet.sized_lift (hplain a), fun h => ?_⟩
    simp [outcome, Registers.map, h.lift]
  | copy a => exact ⟨regs.spans a, none, hspans a, fun _ => rfl⟩
  | insert start stop =>
    refine ⟨t.insert start stop, some (t.adds start stop), SpanSet.sized_insert ht, fun h => ?_⟩
    simp [outcome, h.insert ht]
  | insertStarts a stop =>
    refine ⟨t.insertStarts (regs.plain a) stop, some (t.gainsAt (regs.plain a) stop),
      SpanSet.sized_insertStarts ht (hplain a), fun h => ?_⟩
    simp [outcome, Registers.map, h.insertStarts ht (hplain a), Except.map]
  | unite a =>
    refine ⟨t.union (regs.spans a), some (t.gains (regs.spans a)),
      SpanSet.sized_union ht (hspans a), fun h => ?_⟩
    simp [outcome, Registers.map, h.union ht (hspans a), Except.map]
  | keepStarts a =>
    refine ⟨t.keepStarts (regs.plain a), none, SpanSet.sized_revise ht fun _ => rfl, fun h => ?_⟩
    simp [outcome, Registers.map, h.keepStarts ht (hplain a), Except.map]
  | dropStarts a =>
    refine ⟨t.dropStarts (regs.plain a), none, SpanSet.sized_revise ht fun _ => rfl, fun h => ?_⟩
    simp [outcome, Registers.map, h.dropStarts ht (hplain a), Except.map]
  | keepEnds a =>
    refine ⟨t.keepEnds (regs.plain a), none, SpanSet.sized_keepEnds ht, fun h => ?_⟩
    simp [outcome, Registers.map, h.keepEnds ht (hplain a), Except.map]
  | whereStarts a =>
    refine ⟨t.whereStarts (regs.spans a), none, SpanSet.sized_revise ht fun _ => rfl, fun h => ?_⟩
    simp [outcome, Registers.map, h.whereStarts ht (hspans a), Except.map]
  | whereNotStarts a =>
    refine ⟨t.whereNotStarts (regs.spans a), none, SpanSet.sized_revise ht fun _ => rfl,
      fun h => ?_⟩
    simp [outcome, Registers.map, h.whereNotStarts ht (hspans a), Except.map]

theorem Registers.Sized.setPlain (h : regs.Sized n) {s : OffsetSet} (hs : s.size = n) (r : Nat) :
    (regs.setPlain r s).Sized n := by
  refine ⟨fun a => ?_, h.2⟩
  by_cases ha : a = r
  · simp [Registers.setPlain, ha, hs]
  · simp [Registers.setPlain, ha, h.1 a]

theorem Registers.Sized.setSpans (h : regs.Sized n) {t : SpanSet} (ht : t.Sized n) (r : Nat) :
    (regs.setSpans r t).Sized n := by
  refine ⟨h.1, fun a => ?_⟩
  by_cases ha : a = r
  · simp [Registers.setSpans, ha, ht]
  · simp [Registers.setSpans, ha, h.2 a]

/-- A command leads from sets of one size to sets of that size and has one answer, whichever
operations it is run with. -/
theorem SpanCommand.common_step (hregs : regs.Sized n) {c : SpanCommand} (hc : c.Sized n) :
    ∃ (next : Registers OffsetSet SpanSet) (answer : Option Bool), next.Sized n ∧
      ∀ {σ τ : Type} {ops : SpanOps σ τ} {f : OffsetSet → σ} {g : SpanSet → τ},
        ops.Carries n f g → c.step ops (regs.map f g) = (next.map f g, .ok answer) := by
  cases c with
  | plain c =>
    obtain ⟨s, answer, hout, hs⟩ := OffsetCommand.sized_outcome hregs.1 hc
    refine ⟨regs.setPlain c.target s, answer, hregs.setPlain hs _, fun {σ τ ops f g} h => ?_⟩
    have hstep : c.step OffsetSet.ops regs.plain =
        ((regs.setPlain c.target s).plain, .ok answer) := by
      rw [OffsetCommand.step, hout, Registers.setPlain]
    have hcarry : c.step ops.plain (f ∘ regs.plain) =
        (f ∘ (regs.setPlain c.target s).plain, .ok answer) := by
      rw [h.plain.step, hstep]
      rfl
    simp only [step, Registers.map, hcarry]
    rfl
  | starts r a =>
    have hsize : (regs.spans a).starts.size = n := SpanSet.size_starts.trans (hregs.2 a).1
    refine ⟨regs.setPlain r (regs.spans a).starts, none, hregs.setPlain hsize r, fun h => ?_⟩
    rw [Registers.map_setPlain]
    simp only [step, Registers.map, Function.comp_apply, h.starts (hregs.2 a)]
  | ends r a =>
    refine ⟨regs.setPlain r (regs.spans a).ends, none, hregs.setPlain (hregs.2 a).1 r, fun h => ?_⟩
    rw [Registers.map_setPlain]
    simp only [step, Registers.map, Function.comp_apply, h.ends (hregs.2 a)]
  | spans r c =>
    obtain ⟨u, answer, hu, hout⟩ := SpanChange.common_outcome hregs (hregs.2 r) hc
    refine ⟨regs.setSpans r u, answer, hregs.setSpans hu r, fun {σ τ ops f g} h => ?_⟩
    have hout : c.outcome ops (regs.map f g) ((regs.map f g).spans r) = .ok (g u, answer) := hout h
    rw [step, hout, Registers.map_setSpans]

/-- Whatever the script is, nothing is refused, and the registers stay in step and the answers the
same. -/
theorem SpanCommand.common_run (hregs : regs.Sized n) {cs : List SpanCommand}
    (hcs : ∀ c ∈ cs, c.Sized n) :
    ∃ (done : Registers OffsetSet SpanSet) (answers : List (Option Bool)), done.Sized n ∧
      ∀ {σ τ : Type} {ops : SpanOps σ τ} {f : OffsetSet → σ} {g : SpanSet → τ},
        ops.Carries n f g → run ops (regs.map f g) cs = (done.map f g, answers.map .ok) := by
  induction cs generalizing regs with
  | nil => exact ⟨regs, [], hregs, fun _ => rfl⟩
  | cons c cs ih =>
    obtain ⟨hc, hcs⟩ := List.forall_mem_cons.1 hcs
    obtain ⟨next, answer, hnext, hstep⟩ := common_step hregs hc
    obtain ⟨done, answers, hdone, hrun⟩ := ih hnext hcs
    refine ⟨done, answer :: answers, hdone, fun h => ?_⟩
    simp only [run, hstep h, hrun h, List.map_cons]

end Common

/-! ### What registers hold after a script -/

/-- What can be read off a span set is what a finite set of pairs says. -/
structure SpanSet.Denotes (t : SpanSet) (T : FiniteSpans) : Prop where
  size : t.size = T.size
  below : ∀ r ∈ T.members, r.1 < T.size ∧ r.2 < T.size
  startsOf : ∀ i j, (∃ s, t.startsOf j = some s ∧ i ∈ s) ↔ (i, j) ∈ T.members
  inhabited : ∀ j s, t.startsOf j = some s → s.isEmpty = false
  ends : ∀ j, j ∈ t.ends ↔ ∃ s, t.startsOf j = some s
  ordered : t.toList.Pairwise fun a b => a.2 < b.2 ∨ a.2 = b.2 ∧ a.1 < b.1
  listed : ∀ r, r ∈ t.toList ↔ r ∈ T.members
  length : t.toList.length = t.card
  card : t.card = T.members.card
  isEmpty : t.isEmpty = true ↔ T.members = ∅

theorem SpanSet.denotes {n : Nat} {t : SpanSet} (ht : t.Sized n) : t.Denotes t.finite where
  size := rfl
  below r hr := by
    have hr : (r.1, r.2) ∈ t := mem_members.1 hr
    exact ⟨(ht.start_lt hr).trans_eq ht.1.symm, end_lt_of_mem hr⟩
  startsOf _ _ := mem_iff_startsOf.symm.trans mem_members.symm
  inhabited _ _ := isEmpty_of_startsOf
  ends _ := mem_ends_iff_startsOf
  ordered := t.pairwise_toList
  listed _ := mem_toList.trans mem_members.symm
  length := t.card_eq_length_toList.symm
  card := t.card_eq_card_members
  isEmpty := isEmpty_iff_members

/-- Registers with nothing in them. -/
def Registers.blank {σ τ : Type} (ops : SpanOps σ τ) (n : Nat) : Registers σ τ :=
  ⟨fun _ => ops.plain.empty n, fun _ => ops.empty n⟩

theorem Registers.blank_eq_map {σ τ : Type} {n : Nat} {ops : SpanOps σ τ} {f : OffsetSet → σ}
    {g : SpanSet → τ} (h : ops.Carries n f g) : blank ops n = (blank SpanSet.ops n).map f g := by
  rw [blank, h.plain.empty, h.empty]
  rfl

/-- Run a script for sets of one size on span sets, on ends kept beside the rows and on finite sets
of pairs. Nothing is refused and all three answer alike; the ends that are kept are those of the
rows, which hold what the span sets do; and the pairs say all that can be read off the span sets,
off one or off two of them. -/
theorem scripts_of_span_sets_denote_finite_sets (n : Nat) (cs : List SpanCommand)
    (hcs : ∀ c ∈ cs, c.Sized n) :
    let done := SpanCommand.run SpanSet.ops (.blank SpanSet.ops n) cs
    let kept := SpanCommand.run IndexedSpans.ops (.blank IndexedSpans.ops n) cs
    let finite := SpanCommand.run FiniteSpans.ops (.blank FiniteSpans.ops n) cs
    (done.2 = finite.2 ∧ kept.2 = finite.2 ∧ ∀ reply ∈ finite.2, ∃ answer, reply = .ok answer) ∧
    (∀ r, (done.1.plain r).Denotes (finite.1.plain r) ∧ kept.1.plain r = done.1.plain r) ∧
    (∀ r, (done.1.spans r).Denotes (finite.1.spans r) ∧
      kept.1.spans r = (done.1.spans r).indexed ∧ (kept.1.spans r).Sound) ∧
    ∀ r a,
      (done.1.spans r = done.1.spans a ↔
        (finite.1.spans r).members = (finite.1.spans a).members) ∧
      (kept.1.spans r = kept.1.spans a ↔
        (finite.1.spans r).members = (finite.1.spans a).members) := by
  intro done kept finite
  have hblank : (Registers.blank SpanSet.ops n).Sized n :=
    ⟨fun _ => rfl, fun _ => SpanSet.sized_empty⟩
  -- one run of which the other three are images
  obtain ⟨regs, answers, ⟨hplain, hspans⟩, hrun⟩ := SpanCommand.common_run hblank hcs
  have hall : ∀ {σ τ : Type} {ops : SpanOps σ τ} {f : OffsetSet → σ} {g : SpanSet → τ},
      ops.Carries n f g → SpanCommand.run ops (.blank ops n) cs = (regs.map f g, answers.map .ok) :=
    fun h => by rw [Registers.blank_eq_map h, hrun h]
  have hdone : done = (regs.map id id, answers.map .ok) := hall (SpanSet.carries_id n)
  have hkept : kept = (regs.map id SpanSet.indexed, answers.map .ok) :=
    hall (SpanSet.carries_indexed n)
  have hfinite : finite = (regs.map OffsetSet.finite SpanSet.finite, answers.map .ok) :=
    hall (SpanSet.carries_finite n)
  rw [hdone, hkept, hfinite]
  refine ⟨⟨rfl, rfl, by simp⟩, fun r => ⟨(regs.plain r).denotes, rfl⟩,
    fun r => ⟨SpanSet.denotes (hspans r), rfl, (regs.spans r).sound_indexed⟩, fun r a => ?_⟩
  have heq := SpanSet.eq_iff_members (hspans r) (hspans a)
  have hsize : (regs.spans r).size = (regs.spans a).size := (hspans r).1.trans (hspans a).1.symm
  exact ⟨heq, (SpanSet.indexed_inj hsize).trans heq⟩

/-- When the last start of an end goes, the end goes: what is left is the empty set. -/
theorem span_set_without_its_starts_is_empty :
    let cs : List SpanCommand := [.spans 0 (.insert 0 2), .spans 0 (.insert 1 2),
      .plain (.ofList 0 3 [0, 1]), .spans 0 (.dropStarts 0)]
    let kept := SpanCommand.run IndexedSpans.ops (.blank IndexedSpans.ops 3) cs
    (∀ c ∈ cs, c.Sized 3) ∧ (kept.1.spans 0).Sound ∧ kept.1.spans 0 = kept.1.spans 1 := by
  intro cs kept
  have hcs : ∀ c ∈ cs, c.Sized 3 := by decide
  obtain ⟨-, -, hspans, heq⟩ := scripts_of_span_sets_denote_finite_sets 3 cs hcs
  exact ⟨hcs, (hspans 0).2.2, (heq 0 1).2.2 (by decide)⟩

end PatternSweep
