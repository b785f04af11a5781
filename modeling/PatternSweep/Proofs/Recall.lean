import Mathlib.Data.Finset.Card
import PatternSweep.Proofs.ExactMatches

/-!
# What a workspace remembers

A workspace holds the masks that were asked for, and a sweep that finds one there does not work it
out again. `Call` is something that can be asked of a sweep, and `Sweep.answer` asks it. Whatever
was asked before, an answer is the one that an empty workspace would have led to
(`Sweep.yields_answers`).

`Asks least most x` says which atoms a computation adds to the workspace: all of `least` and none
but those of `most`. Every node sets all its parts going at least once, whatever the sets are, but
for a repetition that permits no round; so a sweep asks for the masks of exactly the atoms that it
visits (`Sweep.asks_offsets`, `Sweep.asks_spans`), and the number of masks says how many there were
(`workspace_never_changes_answers`).
-/

namespace PatternSweep

/-! ### Atoms that are visited -/

/-- Whether the mask of the atom is kept. That of a single character is looked up each time. -/
def Atom.isKept : Atom → Bool
  | .literal _ => false
  | .any | .oneOf _ => true

namespace Pattern

mutual

/-- The atoms that a sweep visits: all but those under a repetition that permits no round. -/
def visited : Pattern → List Atom
  | .atom a => [a]
  | .seq ps | .alt ps => visitedAll ps
  | .repeated e min max => if min = 0 ∧ max = some 0 then [] else visited e
  | .ahead _ c p => visited c ++ visited p

/-- The atoms that are visited in any of the patterns. -/
def visitedAll : List Pattern → List Atom
  | [] => []
  | p :: ps => visited p ++ visitedAll ps

end

end Pattern

/-- The atoms whose masks the workspace holds. -/
def Workspace.atoms (w : Workspace) : List Atom := w.masks.map (·.1)

/-- The atoms of a list whose masks a sweep over the subject keeps: none if it has no occurrences.
-/
def Subject.kept (s : Subject) (atoms : List Atom) : Set Atom :=
  {a | a ∈ atoms ∧ a.isKept = true ∧ s.occurrences.isSome = true}

section

variable {s : Subject} {a : Atom} {as bs : List Atom}

theorem Subject.kept_eq_empty (h : ∀ a ∈ as, a.isKept = false ∨ s.occurrences.isSome = false) :
    s.kept as = ∅ := by
  refine Set.eq_empty_of_forall_notMem fun a ⟨ha, hkept, hsome⟩ => ?_
  cases h a ha with
  | inl hnot => exact Bool.false_ne_true (hnot.symm.trans hkept)
  | inr hnone => exact Bool.false_ne_true (hnone.symm.trans hsome)

theorem Subject.kept_singleton (ha : a.isKept = true) (h : s.occurrences.isSome = true) :
    s.kept [a] = {a} := by
  ext b
  constructor
  · exact fun hb => List.mem_singleton.1 hb.1
  · rintro rfl
    exact ⟨List.mem_singleton.2 rfl, ha, h⟩

theorem Subject.kept_append : s.kept (as ++ bs) = s.kept as ∪ s.kept bs :=
  Set.ext fun a => by
    simp only [kept, Set.mem_ofPred_eq, Set.mem_union, List.mem_append, or_and_right]

end

/-! ### Computations that ask for masks -/

/-- From every workspace, `x` leads to one that still has a mask of every atom, has one of all those
of `least`, and has no other new ones than some of `most`. -/
structure Asks {β : Type} (least most : Set Atom) (x : Run β) : Prop where
  nodup : ∀ {w : Workspace}, w.atoms.Nodup → (x.run w).2.atoms.Nodup
  keeps : ∀ {w : Workspace} {a}, a ∈ w.atoms → a ∈ (x.run w).2.atoms
  least : ∀ {w : Workspace} {a}, a ∈ least → a ∈ (x.run w).2.atoms
  most : ∀ {w : Workspace} {a}, a ∈ (x.run w).2.atoms → a ∈ w.atoms ∨ a ∈ most

namespace Asks

variable {β γ δ : Type} {A B C : Set Atom} {x : Run β} {f : β → Run γ}

theorem pure {a : β} : Asks ∅ A (pure a) := ⟨id, id, fun h => h.elim, Or.inl⟩

theorem mono (h : Asks A C x) (hBA : B ⊆ A) {D : Set Atom} (hCD : C ⊆ D) : Asks B D x :=
  ⟨h.nodup, h.keeps, fun hb => h.least (hBA hb), fun ha => (h.most ha).imp_right (@hCD _)⟩

theorem bind (hx : Asks A C x) (hf : ∀ a, Asks B C (f a)) : Asks (A ∪ B) C (x >>= f) where
  nodup hw := (hf _).nodup (hx.nodup hw)
  keeps ha := (hf _).keeps (hx.keeps ha)
  least ha := ha.elim (fun ha => (hf _).keeps (hx.least ha)) fun ha => (hf _).least ha
  most ha := ((hf _).most ha).elim hx.most Or.inr

/-- What comes after may ask for nothing of its own. -/
theorem bind_within (hx : Asks A C x) (hf : ∀ a, Asks ∅ C (f a)) : Asks A C (x >>= f) :=
  (hx.bind hf).mono (Set.subset_union_left) subset_rfl

/-- To ask for nothing but some of `A` is closed. -/
theorem closed (A : Set Atom) : Closed Run (Asks ∅ A) := ⟨pure, bind_within⟩

/-- Two computations that each ask for masks of their own. -/
theorem both (hx : Asks A A x) (hf : ∀ a, Asks B B (f a)) : Asks (A ∪ B) (A ∪ B) (x >>= f) :=
  (hx.mono subset_rfl Set.subset_union_left).bind fun a =>
    (hf a).mono subset_rfl Set.subset_union_right

/-- Going through a list asks for what its members ask for. -/
theorem through {s : Subject} {ps : List Pattern} (go : List Pattern → γ → Run β)
    (f : Pattern → γ → Run δ) (next : γ → δ → γ) (last : γ → β)
    (hnil : ∀ c, go [] c = Pure.pure (last c))
    (hcons : ∀ p ps c, go (p :: ps) c = f p c >>= fun r => go ps (next c r))
    (h : ∀ p ∈ ps, ∀ c, Asks (s.kept p.visited) (s.kept p.visited) (f p c)) (c : γ) :
    Asks (s.kept (Pattern.visitedAll ps)) (s.kept (Pattern.visitedAll ps)) (go ps c) := by
  induction ps generalizing c with
  | nil =>
    rw [hnil, Pattern.visitedAll, Subject.kept_eq_empty (by simp)]
    exact pure
  | cons p ps ih =>
    rw [hcons, Pattern.visitedAll, Subject.kept_append]
    exact (h p (by simp) c).both fun r => ih (fun q hq => h q (List.mem_cons_of_mem _ hq)) _

end Asks

namespace Repetition

variable {σ : Type} [JoinSet σ] [DecidableEq σ] {A : Set Atom} {step : σ → Nat → Run σ}
  {min room done ceiling : Nat} {max extra : Option Nat} {input set : σ}
  (hstep : ∀ set n, Asks A A (step set n))

include hstep

omit [JoinSet σ] [DecidableEq σ] in
theorem asks_within (set : σ) (n : Nat) : Asks ∅ A (step set n) :=
  (hstep set n).mono (Set.empty_subset _) subset_rfl

/-- The first application, if there is one, asks for all there is to ask. -/
theorem asks_exact_of_lt (hmin : done < min) : Asks A A (exact step min (room + 1) done set) := by
  unfold exact
  rw [if_neg (Nat.not_le.2 hmin)]
  refine (hstep _ _).bind_within fun next => ?_
  split
  next => exact Asks.pure
  next =>
    split
    next => exact Asks.pure
    next => exact (Asks.closed A).exact (asks_within hstep)

theorem asks_grow_of_left (hextra : extra.any (· ≤ done) = false) :
    Asks A A (grow step min extra (room + 1) done set) := by
  unfold grow
  rw [if_neg (by rw [hextra]; exact Bool.false_ne_true)]
  refine (hstep _ _).bind_within fun next => ?_
  simp only
  split
  next => exact Asks.pure
  next => exact (Asks.closed A).grow (asks_within hstep)

/-- A repetition that permits a round applies its step at least once. -/
theorem asks_run (h : ¬(min = 0 ∧ max = some 0)) :
    Asks A A (run input min max (ceiling + 1) step) := by
  unfold run
  by_cases hmin : min = 0
  · subst hmin
    have hexact : exact step 0 (ceiling + 1) 0 input = Pure.pure (.alive input 0 false) := by
      unfold exact
      rfl
    have hextra : (max.map (· - 0)).any (· ≤ 0) = false := by
      cases max with
      | none => rfl
      | some m =>
        simp only [Nat.sub_zero, Option.map_some, Option.any_some, decide_eq_false_iff_not]
        intro hm
        exact h ⟨rfl, congrArg some (Nat.le_zero.1 hm)⟩
    rw [hexact, pure_bind]
    exact (asks_grow_of_left hstep hextra).bind_within fun r => Asks.pure
  · refine (asks_exact_of_lt hstep (Nat.pos_of_ne_zero hmin)).bind_within fun first => ?_
    cases first with
    | dead => exact Asks.pure
    | alive => exact ((Asks.closed A).grow (asks_within hstep)).bind_within fun r => Asks.pure

omit hstep in
/-- One that permits none leaves its input as it is. -/
theorem run_zero : run input 0 (some 0) (ceiling + 1) step = Pure.pure ⟨input, 0, false⟩ := by
  unfold run exact grow
  rfl

end Repetition

namespace Sweep

variable {s : Sweep} {p c : Pattern} {ps : List Pattern}

theorem asks_classMask (a : Atom) (o : Occurrences) : Asks {a} {a} (classMask a o) := by
  have hrun : ∀ w : Workspace, (a ∈ w.atoms ∧ ((classMask a o).run w).2 = w) ∨
      (a ∉ w.atoms ∧ ((classMask a o).run w).2.atoms = a :: w.atoms) := by
    intro w
    unfold classMask
    cases h : w.masks.lookup a with
    | some mask =>
      refine Or.inl ⟨?_, by simp [h]; rfl⟩
      obtain ⟨l₁, l₂, hl, -⟩ := List.lookup_eq_some_iff.1 h
      exact List.mem_map.2 ⟨(a, mask), by simp [hl], rfl⟩
    | none =>
      refine Or.inr ⟨fun ha => ?_, by simp [h]; rfl⟩
      obtain ⟨r, hr, rfl⟩ := List.mem_map.1 ha
      simpa using List.lookup_eq_none_iff.1 h r hr
  constructor
  · intro w hw
    rcases hrun w with ⟨-, hsame⟩ | ⟨hnew, hcons⟩
    · rw [hsame]
      exact hw
    · rw [hcons]
      exact List.nodup_cons.2 ⟨hnew, hw⟩
  · intro w b hb
    rcases hrun w with ⟨-, hsame⟩ | ⟨-, hcons⟩
    · rw [hsame]
      exact hb
    · rw [hcons]
      exact List.mem_cons_of_mem _ hb
  · rintro w _ rfl
    rcases hrun w with ⟨ha, hsame⟩ | ⟨-, hcons⟩
    · rw [hsame]
      exact ha
    · rw [hcons]
      exact List.mem_cons_self
  · intro w b hb
    rcases hrun w with ⟨-, hsame⟩ | ⟨-, hcons⟩
    · rw [hsame] at hb
      exact Or.inl hb
    · rw [hcons] at hb
      exact (List.mem_cons.1 hb).symm

/-- An atom asks for its own mask, if that is kept and there are occurrences to answer. -/
theorem asks_atomMask (a : Atom) :
    Asks (s.subject.kept [a]) (s.subject.kept [a]) (s.atomMask a) := by
  unfold atomMask
  cases h : s.subject.occurrences with
  | none =>
    rw [Subject.kept_eq_empty fun b _ => Or.inr (by rw [h]; rfl)]
    exact Asks.pure
  | some o =>
    have hsome : s.subject.occurrences.isSome = true := by rw [h]; rfl
    cases a with
    | literal c =>
      rw [Subject.kept_eq_empty fun b hb => Or.inl (by rw [List.mem_singleton.1 hb]; rfl)]
      exact Asks.pure
    | any =>
      rw [Subject.kept_singleton rfl hsome]
      exact asks_classMask _ o
    | oneOf k =>
      rw [Subject.kept_singleton rfl hsome]
      exact asks_classMask _ o

theorem asks_hits (a : Atom) (input : OffsetSet) :
    Asks (s.subject.kept [a]) (s.subject.kept [a]) (s.hits a input) := by
  unfold hits
  refine (asks_atomMask a).bind_within fun mask => ?_
  cases mask with
  | none => exact Asks.pure
  | some mask => exact Asks.pure

theorem asks_atomSpans (a : Atom) (input : SpanSet) :
    Asks (s.subject.kept [a]) (s.subject.kept [a]) (s.atomSpans a input) := by
  unfold atomSpans
  refine (asks_atomMask a).bind_within fun mask => ?_
  cases mask with
  | none => exact Asks.pure
  | some mask => exact Asks.pure

theorem asks_record {A : Set Atom} {node : Pattern} {action : Unit → Action} :
    Asks ∅ A (s.record node action) := by
  unfold record
  split
  next => exact ⟨id, id, fun h => h.elim, Or.inl⟩
  next => exact Asks.pure

section

variable {σ : Type} [Recordable σ] {node : Pattern} {input : σ} {A : Set Atom}

theorem asks_step {x : Run σ} (h : Asks A A x) : Asks A A (s.step node input x) := by
  unfold step
  exact h.bind_within fun out => asks_record.bind_within fun _ => Asks.pure

theorem asks_repetition [JoinSet σ] [DecidableEq σ] {e : Pattern} {min ceiling : Nat}
    {max : Option Nat} {element : σ → Run σ}
    (h : ∀ set, Asks (s.subject.kept e.visited) (s.subject.kept e.visited) (element set)) :
    Asks (s.subject.kept (Pattern.repeated e min max).visited)
      (s.subject.kept (Pattern.repeated e min max).visited)
      (s.repetition node input min max (ceiling + 1) element) := by
  rw [Pattern.visited]
  unfold repetition
  split
  next hnone =>
    obtain ⟨rfl, rfl⟩ := hnone
    rw [Repetition.run_zero, Subject.kept_eq_empty (by simp)]
    exact Asks.pure
  next hround =>
    refine (Repetition.asks_run (fun set n => ?_) hround).bind_within fun r => Asks.pure
    exact (h set).bind_within fun next => asks_record.bind_within fun _ => Asks.pure

end

/-- A sweep over spans asks for the masks of the atoms that it visits. -/
theorem asks_spans (s : Sweep) (p : Pattern) (input : SpanSet) :
    Asks (s.subject.kept p.visited) (s.subject.kept p.visited) (s.spans p input) := by
  induction p using Pattern.induct generalizing input with
  | atom a =>
    rw [spans, Pattern.visited]
    exact asks_step (asks_atomSpans a input)
  | seq ps ih =>
    rw [spans, Pattern.visited]
    refine asks_step (Asks.through (seqSpans s) s.spans (fun _ r => r) id (fun _ => ?_)
      (fun _ _ _ => ?_) ih input)
    · rw [seqSpans]; rfl
    · rw [seqSpans]
  | alt ps ih =>
    rw [spans, Pattern.visited]
    refine asks_step (Asks.through (fun ps => altSpans s ps input) (fun p _ => s.spans p input)
      (fun out r => out.union r) id (fun _ => ?_) (fun _ _ _ => ?_) (fun p hp _ => ih p hp input)
      (.empty input.size))
    · rw [altSpans]; rfl
    · rw [altSpans]
  | repeated e min max ih =>
    rw [spans]
    exact asks_step (asks_repetition fun set => ih set)
  | ahead positive c p ihc ihp =>
    rw [spans, Pattern.visited, Subject.kept_append]
    exact asks_step ((ihc _).both fun _ => ihp _)

theorem asks_lookahead (s : Sweep) (c : Pattern) (entries : OffsetSet) (positive : Bool) :
    Asks (s.subject.kept c.visited) (s.subject.kept c.visited) (s.lookahead c entries positive) :=
  (asks_spans s c _).bind_within fun _ => Asks.pure

/-- A sweep over offsets asks for the masks of the atoms that it visits. -/
theorem asks_offsets (s : Sweep) (p : Pattern) (input : OffsetSet) :
    Asks (s.subject.kept p.visited) (s.subject.kept p.visited) (s.offsets p input) := by
  induction p using Pattern.induct generalizing input with
  | atom a =>
    rw [offsets, Pattern.visited]
    exact asks_step ((asks_hits a input).bind_within fun hits => Asks.pure)
  | seq ps ih =>
    rw [offsets, Pattern.visited]
    refine asks_step (Asks.through (seqOffsets s) s.offsets (fun _ r => r) id (fun _ => ?_)
      (fun _ _ _ => ?_) ih input)
    · rw [seqOffsets]; rfl
    · rw [seqOffsets]
  | alt ps ih =>
    rw [offsets, Pattern.visited]
    refine asks_step (Asks.through (fun ps => altOffsets s ps input) (fun p _ => s.offsets p input)
      (fun out r => out.union r) id (fun _ => ?_) (fun _ _ _ => ?_) (fun p hp _ => ih p hp input)
      (.empty input.size))
    · rw [altOffsets]; rfl
    · rw [altOffsets]
  | repeated e min max ih =>
    rw [offsets]
    exact asks_step (asks_repetition fun set => ih set)
  | ahead positive c p =>
    rw [offsets, Pattern.visited, Subject.kept_append]
    refine asks_step ((asks_spans s c _).both fun _ => ?_)
    exact (asks_spans s p _).bind_within fun body => Asks.pure

end Sweep

/-! ### Calls -/

/-- What can be asked of a sweep: to carry offsets or spans through a pattern, for the entries at
which a condition matches or does not, and for the mask of a pattern. -/
inductive Call
  | offsets (p : Pattern) (input : OffsetSet)
  | spans (p : Pattern) (input : SpanSet)
  | lookahead (condition : Pattern) (entries : OffsetSet) (positive : Bool)
  | mask (p : Pattern)

/-- What a sweep answers. -/
inductive Answer
  | offsets (output : OffsetSet)
  | spans (output : SpanSet)
  | mask (mask : Option OffsetSet)
  deriving DecidableEq

namespace Call

/-- The sets of the call range over `n` offsets. -/
def Fits (n : Nat) : Call → Prop
  | .offsets _ input => input.size = n
  | .spans _ input => input.Sized n
  | .lookahead _ entries _ => entries.size = n
  | .mask _ => True

/-- The atoms that the call has visited. -/
def visited : Call → List Atom
  | .offsets p _ | .spans p _ | .lookahead p _ _ => p.visited
  | .mask (.atom a) => [a]
  | .mask _ => []

end Call

namespace Sweep

variable {s : Sweep} {text : List Char}

/-- Answers a call. Only an atom has a mask. -/
def answer (s : Sweep) : Call → Run Answer
  | .offsets p input => do return .offsets (← s.offsets p input)
  | .spans p input => do return .spans (← s.spans p input)
  | .lookahead c entries positive => do return .offsets (← s.lookahead c entries positive)
  | .mask (.atom a) => do return .mask (← s.atomMask a)
  | .mask _ => return .mask none

/-- The answer to a call that nothing was asked before. -/
def freshAnswer (s : Sweep) (call : Call) : Answer := ((s.answer call).run .empty).1

theorem asks_answer (s : Sweep) (call : Call) :
    Asks (s.subject.kept call.visited) (s.subject.kept call.visited) (s.answer call) := by
  cases call with
  | offsets p input => exact (asks_offsets s p input).bind_within fun out => Asks.pure
  | spans p input => exact (asks_spans s p input).bind_within fun out => Asks.pure
  | lookahead c entries positive =>
    exact (asks_lookahead s c entries positive).bind_within fun out => Asks.pure
  | mask p =>
    cases p with
    | atom a => exact (asks_atomMask a).bind_within fun mask => Asks.pure
    | seq | alt | repeated | ahead =>
      simp only [Call.visited, answer]
      rw [Subject.kept_eq_empty (by simp)]
      exact Asks.pure

theorem asks_answers (s : Sweep) (calls : List Call) :
    Asks (s.subject.kept (calls.flatMap Call.visited)) (s.subject.kept (calls.flatMap Call.visited))
      (calls.mapM s.answer) := by
  induction calls with
  | nil =>
    rw [List.flatMap_nil, List.mapM_nil, Subject.kept_eq_empty (by simp)]
    exact Asks.pure
  | cons call calls ih =>
    rw [List.flatMap_cons, List.mapM_cons, Subject.kept_append]
    exact (asks_answer s call).both fun r => ih.bind_within fun rs => Asks.pure

/-- Of something that is determined by a property, every sound workspace gives what the empty one
gives. -/
theorem yields_fresh {β : Type} {x : Run β} {f : β → Answer} {P : β → Prop} {s : Subject}
    (h : Yields s x P) (hP : ∀ a b, P a → P b → a = b) :
    Yields s (do return f (← x)) (· = ((do return f (← x) : Run Answer).run .empty).1) := by
  intro w hw
  obtain ⟨hresult, hsound⟩ := h w hw
  exact ⟨congrArg f (hP _ _ hresult (h _ (Workspace.sound_empty s)).1), hsound⟩

theorem yields_answer (hs : s.subject.Over text) {call : Call}
    (hcall : call.Fits (text.length + 1)) :
    Yields s.subject (s.answer call) (· = s.freshAnswer call) := by
  cases call with
  | offsets p input =>
    exact yields_fresh (realises_offsets hs p input (· ∈ input) ⟨hcall, fun _ => Iff.rfl⟩)
      fun _ _ h h' => h.eq h'
  | spans p input =>
    exact yields_fresh (realises_spans hs p input (· ∈ input) ⟨hcall, fun _ => Iff.rfl⟩)
      fun _ _ h h' => h.eq h'
  | lookahead c entries positive =>
    refine yields_fresh (yields_lookahead hs c hcall positive) fun a b ha hb => ?_
    exact OffsetSet.ext_mem (ha.1.trans hb.1.symm) fun i => (ha.2 i).trans (hb.2 i).symm
  | mask p =>
    cases p with
    | atom a => exact yields_fresh yields_atomMask fun _ _ h h' => h.trans h'.symm
    | seq | alt | repeated | ahead => exact Yields.pure rfl

theorem yields_answers (hs : s.subject.Over text) {calls : List Call}
    (hcalls : ∀ call ∈ calls, call.Fits (text.length + 1)) :
    Yields s.subject (calls.mapM s.answer) (· = calls.map s.freshAnswer) := by
  induction calls with
  | nil =>
    rw [List.mapM_nil]
    exact Yields.pure rfl
  | cons call calls ih =>
    obtain ⟨hcall, hrest⟩ := List.forall_mem_cons.1 hcalls
    rw [List.mapM_cons, List.map_cons]
    refine (yields_answer hs hcall).bind fun r hr => (ih hrest).bind fun rs hrs => ?_
    rw [hr, hrs]
    exact Yields.pure rfl

/-- The mask that is answered for an atom holds the offsets whose character it takes. -/
theorem mem_of_freshAnswer_mask (hs : s.subject.Over text) {p : Pattern} {mask : OffsetSet}
    (h : s.freshAnswer (.mask p) = .mask (some mask)) :
    ∃ a, p = .atom a ∧ ∀ i, i ∈ mask ↔ ∃ c, text[i]? = some c ∧ a.accepts c = true := by
  cases p with
  | atom a =>
    refine ⟨a, rfl, fun i => ?_⟩
    have hmask : ((s.atomMask a).run .empty).1 = s.subject.mask? a :=
      (yields_atomMask _ (Workspace.sound_empty _)).1
    rw [← hs.takes_iff]
    exact Subject.mem_mask hs (hmask.symm.trans (Answer.mask.inj h))
  | seq | alt | repeated | ahead => cases h

/-- After some calls there is one mask for each kept atom that was visited. -/
theorem length_masks (s : Sweep) (calls : List Call) :
    ((calls.mapM s.answer).run .empty).2.masks.length =
      if s.subject.occurrences.isSome = true then
        ((calls.flatMap Call.visited).filter Atom.isKept).toFinset.card
      else 0 := by
  have hasks := asks_answers s calls
  have hempty : Workspace.empty.atoms = [] := rfl
  have hnodup := hasks.nodup (w := .empty) (by rw [hempty]; exact List.nodup_nil)
  have hmem : ∀ a, a ∈ ((calls.mapM s.answer).run .empty).2.atoms ↔
      a ∈ s.subject.kept (calls.flatMap Call.visited) :=
    fun a => ⟨fun ha => (hasks.most ha).resolve_left (by rw [hempty]; exact List.not_mem_nil),
      hasks.least⟩
  rw [← List.length_map (f := (·.1))]
  show ((calls.mapM s.answer).run .empty).2.atoms.length = _
  rw [← List.toFinset_card_of_nodup hnodup]
  split
  next hsome =>
    congr 1
    ext a
    rw [List.mem_toFinset, hmem, List.mem_toFinset, List.mem_filter]
    exact ⟨fun ha => ⟨ha.1, ha.2.1⟩, fun ha => ⟨ha.1, ha.2, hsome⟩⟩
  next hnone =>
    rw [Finset.card_eq_zero, List.toFinset_eq_empty_iff, List.eq_nil_iff_forall_not_mem]
    exact fun a ha => hnone ((hmem a).1 ha).2.2

end Sweep

/-- **What a workspace remembers never changes an answer.** After any calls of one sweep, each
answer is the one that an empty workspace leads to, and the mask that is answered for an atom holds
exactly the offsets whose character it takes. In the end the workspace holds no mask if the subject
has no occurrences, and else one for each of the different atoms visited, single characters apart.
-/
theorem workspace_never_changes_answers (s : Sweep) (text : List Char) (hs : s.subject.Over text)
    (calls : List Call) (hcalls : ∀ call ∈ calls, call.Fits (text.length + 1)) :
    ((calls.mapM s.answer).run .empty).1 = calls.map s.freshAnswer ∧
      (∀ p mask, s.freshAnswer (.mask p) = .mask (some mask) →
        ∃ a, p = .atom a ∧ ∀ i, i ∈ mask ↔ ∃ c, text[i]? = some c ∧ a.accepts c = true) ∧
      (s.subject.occurrences = none →
        ((calls.mapM s.answer).run .empty).2.masks.length = 0) ∧
      (s.subject.occurrences ≠ none →
        ((calls.mapM s.answer).run .empty).2.masks.length =
          ((calls.flatMap Call.visited).filter Atom.isKept).toFinset.card) := by
  refine ⟨(Sweep.yields_answers hs hcalls _ (Workspace.sound_empty _)).1,
    fun p mask h => Sweep.mem_of_freshAnswer_mask hs h, fun hnone => ?_, fun hsome => ?_⟩
  · rw [Sweep.length_masks, hnone]
    rfl
  · rw [Sweep.length_masks, if_pos (Option.isSome_iff_ne_none.2 hsome)]

/-- Two sweeps over the text `ba`. The first knows where the `a` are, and is asked for any
characters, for the same after no digit at all, and for their mask: one mask is kept, and it is that
there is none. The second knows where every character is, and is asked for the mask of the class
`[a]`, for a match of the class, and for its mask again: the mask is put together once and found
again twice, and it is the offset before the `a`. -/
theorem workspace_never_changes_answers_in_ba :
    (let s : Sweep := ⟨.indexed (.build ['b', 'a'] ['a']), false⟩
    let calls := [Call.offsets (.repeated (.atom .any) 1 none) (.full 3),
      .spans (.seq [.repeated (.atom (.oneOf ⟨[.shorthand .digit], false⟩)) 0 (some 0),
        .repeated (.atom .any) 1 none]) (.lift (.full 3)),
      .mask (.atom .any)]
    ((calls.mapM s.answer).run .empty).1 = calls.map s.freshAnswer ∧
      ((calls.mapM s.answer).run .empty).2.masks.length = 1) ∧
    let s : Sweep := ⟨.indexed (.build ['b', 'a'] ['a', 'b']), false⟩
    let a : Atom := .oneOf ⟨[.char 'a'], false⟩
    let calls := [Call.mask (.atom a), .offsets (.atom a) (.full 3), .mask (.atom a)]
    ((calls.mapM s.answer).run .empty).1 = calls.map s.freshAnswer ∧
      calls.map s.freshAnswer =
        [.mask (some (.ofList 3 [1])), .offsets (.ofList 3 [2]), .mask (some (.ofList 3 [1]))] ∧
      ((calls.mapM s.answer).run .empty).2.masks = [(a, some (.ofList 3 [1]))] := by
  constructor
  · intro s calls
    obtain ⟨hanswers, -, -, hlength⟩ := workspace_never_changes_answers s ['b', 'a']
      (Or.inr ⟨['a'], rfl⟩) calls (by
        simp only [calls, List.forall_mem_cons]
        exact ⟨rfl, SpanSet.sized_lift rfl, trivial, by simp⟩)
    exact ⟨hanswers, (hlength (Option.some_ne_none _)).trans (by decide)⟩
  · intro s a calls
    obtain ⟨hanswers, -⟩ := workspace_never_changes_answers s ['b', 'a']
      (Or.inr ⟨['a', 'b'], rfl⟩) calls (by
        simp only [calls, List.forall_mem_cons]
        exact ⟨trivial, rfl, trivial, by simp⟩)
    exact ⟨hanswers, by decide +kernel, by decide +kernel⟩

end PatternSweep
