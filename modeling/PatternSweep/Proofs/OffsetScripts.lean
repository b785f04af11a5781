import Mathlib.Logic.Function.Basic
import PatternSweep.Proofs.WordReading

/-!
# Scripts of offset sets

A script is a list of commands that make and change sets in numbered registers. What a command does
is left to the `OffsetOps` it is run with, and there are three of them: the operations of offset
sets, the same changes made to bare words with no bit cut off that need not be, and those of finite
sets of numbers. A map from one kind of sets to another that `Carries` every operation over carries
over every run (`OffsetOps.Carries.run`): from offset sets to their words and to their members. So
whatever a script does, the words and the members stay in step with the offset sets, reply for
reply, and what is then read off the words, word by word, is what the sets say
(`OffsetSet.readsAs`, `scripts_of_offset_sets_denote_finite_sets`).
-/

namespace PatternSweep

/-- The ways to make a set of offsets and to change it. Inserting and uniting say too whether a
member was added, and what takes a second set may refuse it for its size. -/
structure OffsetOps (σ : Type) where
  empty : (size : Nat) → σ
  full : (size : Nat) → σ
  ofList : (size : Nat) → List Nat → σ
  insert : σ → Nat → σ × Bool
  erase : σ → Nat → σ
  clear : σ → σ
  shifted : σ → σ
  union : σ → σ → Except SizeMismatch (σ × Bool)
  inter : σ → σ → Except SizeMismatch σ
  diff : σ → σ → Except SizeMismatch σ

/-- A change of one of several sets, which have numbers. -/
inductive OffsetCommand
  /-- `r` becomes the empty set of a size. -/
  | empty (r size : Nat)
  /-- `r` becomes the set of all offsets below a size. -/
  | full (r size : Nat)
  /-- `r` becomes the set of the offsets of a list. -/
  | ofList (r size : Nat) (ps : List Nat)
  /-- `r` becomes what `a` is. -/
  | copy (r a : Nat)
  /-- `r` becomes the union of `a` and `b`. -/
  | union (r a b : Nat)
  /-- `r` becomes `a`, moved one offset forward. -/
  | shifted (r a : Nat)
  /-- An offset is put into `r`. -/
  | insert (r p : Nat)
  /-- An offset is taken out of `r`. -/
  | erase (r p : Nat)
  /-- All offsets are taken out of `r`. -/
  | clear (r : Nat)
  /-- The members of `a` are put into `r`. -/
  | unite (r a : Nat)
  /-- The members of `r` that are not in `a` are taken out of it. -/
  | keep (r a : Nat)
  /-- The members of `a` are taken out of `r`. -/
  | drop (r a : Nat)
  deriving DecidableEq, Repr

/-- What a command answers: whether a member was added if it says so, or which sizes differ. -/
abbrev Reply := Except SizeMismatch (Option Bool)

namespace OffsetCommand

/-- The register that is written. -/
def target : OffsetCommand → Nat
  | empty r _ | full r _ | ofList r _ _ | copy r _ | union r _ _ | shifted r _ | insert r _
  | erase r _ | clear r | unite r _ | keep r _ | drop r _ => r

variable {σ : Type} (ops : OffsetOps σ)

/-- What the written register becomes, and the answer. -/
def outcome (sets : Nat → σ) : OffsetCommand → Except SizeMismatch (σ × Option Bool)
  | empty _ size => .ok (ops.empty size, none)
  | full _ size => .ok (ops.full size, none)
  | ofList _ size ps => .ok (ops.ofList size ps, none)
  | copy _ a => .ok (sets a, none)
  | union _ a b => (ops.union (sets a) (sets b)).map fun u => (u.1, none)
  | shifted _ a => .ok (ops.shifted (sets a), none)
  | insert r p => .ok ((ops.insert (sets r) p).1, some (ops.insert (sets r) p).2)
  | erase r p => .ok (ops.erase (sets r) p, none)
  | clear r => .ok (ops.clear (sets r), none)
  | unite r a => (ops.union (sets r) (sets a)).map fun u => (u.1, some u.2)
  | keep r a => (ops.inter (sets r) (sets a)).map fun u => (u, none)
  | drop r a => (ops.diff (sets r) (sets a)).map fun u => (u, none)

/-- The registers after a command, and its answer. A command that is refused changes nothing. -/
def step (sets : Nat → σ) (c : OffsetCommand) : (Nat → σ) × Reply :=
  match c.outcome ops sets with
  | .ok (s, answer) => (Function.update sets c.target s, .ok answer)
  | .error e => (sets, .error e)

/-- The registers after a script, and the answer of each command. -/
def run : (sets : Nat → σ) → List OffsetCommand → (Nat → σ) × List Reply
  | sets, [] => (sets, [])
  | sets, c :: cs =>
    let now := step ops sets c
    let done := run now.1 cs
    (done.1, now.2 :: done.2)

end OffsetCommand

/-! ### Sets of one size -/

namespace OffsetCommand

/-- A set that is made has the size `n`. -/
def Sized (n : Nat) : OffsetCommand → Prop
  | empty _ size | full _ size | ofList _ size _ => size = n
  | _ => True

instance (n : Nat) : DecidablePred (Sized n) := fun c => by
  cases c <;> unfold Sized <;> infer_instance

end OffsetCommand

/-! ### Maps that carry scripts over -/

/-- The map `f` takes the outcome of every operation to that of the operation on the other side. -/
structure OffsetOps.Carries {σ τ : Type} (A : OffsetOps σ) (B : OffsetOps τ) (f : σ → τ) :
    Prop where
  empty : ∀ n, B.empty n = f (A.empty n)
  full : ∀ n, B.full n = f (A.full n)
  ofList : ∀ n ps, B.ofList n ps = f (A.ofList n ps)
  insert : ∀ s p, B.insert (f s) p = Prod.map f id (A.insert s p)
  erase : ∀ s p, B.erase (f s) p = f (A.erase s p)
  clear : ∀ s, B.clear (f s) = f (A.clear s)
  shifted : ∀ s, B.shifted (f s) = f (A.shifted s)
  union : ∀ s t, B.union (f s) (f t) = (A.union s t).map (Prod.map f id)
  inter : ∀ s t, B.inter (f s) (f t) = (A.inter s t).map f
  diff : ∀ s t, B.diff (f s) (f t) = (A.diff s t).map f

namespace OffsetOps.Carries

variable {σ τ : Type} {A : OffsetOps σ} {B : OffsetOps τ} {f : σ → τ}

theorem refl (A : OffsetOps σ) : A.Carries A id where
  empty _ := rfl
  full _ := rfl
  ofList _ _ := rfl
  insert _ _ := rfl
  erase _ _ := rfl
  clear _ := rfl
  shifted _ := rfl
  union s t := by cases h : A.union s t <;> simp [h, Except.map]
  inter s t := by cases h : A.inter s t <;> simp [h, Except.map]
  diff s t := by cases h : A.diff s t <;> simp [h, Except.map]

theorem outcome (h : A.Carries B f) (sets : Nat → σ) (c : OffsetCommand) :
    c.outcome B (f ∘ sets) = (c.outcome A sets).map (Prod.map f id) := by
  cases c with
  | empty r n => simp [OffsetCommand.outcome, h.empty, Except.map]
  | full r n => simp [OffsetCommand.outcome, h.full, Except.map]
  | ofList r n ps => simp [OffsetCommand.outcome, h.ofList, Except.map]
  | copy r a => rfl
  | union r a b =>
    simp only [OffsetCommand.outcome, Function.comp_apply, h.union]
    cases A.union (sets a) (sets b) <;> rfl
  | shifted r a => simp [OffsetCommand.outcome, h.shifted, Except.map]
  | insert r p => simp [OffsetCommand.outcome, h.insert, Except.map]
  | erase r p => simp [OffsetCommand.outcome, h.erase, Except.map]
  | clear r => simp [OffsetCommand.outcome, h.clear, Except.map]
  | unite r a =>
    simp only [OffsetCommand.outcome, Function.comp_apply, h.union]
    cases A.union (sets r) (sets a) <;> rfl
  | keep r a =>
    simp only [OffsetCommand.outcome, Function.comp_apply, h.inter]
    cases A.inter (sets r) (sets a) <;> rfl
  | drop r a =>
    simp only [OffsetCommand.outcome, Function.comp_apply, h.diff]
    cases A.diff (sets r) (sets a) <;> rfl

theorem step (h : A.Carries B f) (sets : Nat → σ) (c : OffsetCommand) :
    c.step B (f ∘ sets) = Prod.map (f ∘ ·) id (c.step A sets) := by
  rw [OffsetCommand.step, OffsetCommand.step, h.outcome]
  cases c.outcome A sets with
  | ok u => exact Prod.ext (Function.comp_update f sets c.target u.1).symm rfl
  | error e => rfl

/-- Whatever the script is, the registers stay in step and the answers are the same. -/
theorem run (h : A.Carries B f) (sets : Nat → σ) (cs : List OffsetCommand) :
    OffsetCommand.run B (f ∘ sets) cs = Prod.map (f ∘ ·) id (OffsetCommand.run A sets cs) := by
  induction cs generalizing sets with
  | nil => rfl
  | cons c cs ih =>
    simp only [OffsetCommand.run, h.step, Prod.map_fst, ih]
    rfl

end OffsetOps.Carries

/-! ### Offset sets, their words and their members -/

/-- The operations of offset sets. -/
def OffsetSet.ops : OffsetOps OffsetSet where
  empty := .empty
  full := .full
  ofList := .ofList
  insert s p := (s.insert p, s.adds p)
  erase := .erase
  clear := .clear
  shifted := .shifted
  union s t := (s.union? t).map fun u => (u, s.gains t)
  inter := OffsetSet.inter?
  diff := OffsetSet.diff?

/-- A size and words that are changed in place. Nothing is asked of the words. -/
structure BareWords where
  size : Nat
  words : List UInt64
  deriving DecidableEq, Repr

namespace BareWords

/-- One bit is turned on if it is below the size; it is new if it was off before. -/
def insert (b : BareWords) (p : Nat) : BareWords × Bool :=
  if p < b.size then (⟨b.size, Bits.turnOn b.words p⟩, !Bits.get b.words p) else (b, false)

/-- A change of the words by those of another set, if that has the same size. -/
def change (f : List UInt64 → List UInt64 → List UInt64) (b c : BareWords) :
    Except SizeMismatch BareWords :=
  if b.size = c.size then .ok ⟨b.size, f b.words c.words⟩ else .error ⟨b.size, c.size⟩

/-- The operations on the words alone: the last word is cut where a set is made full and where one
is shifted, and nowhere else. -/
def ops : OffsetOps BareWords where
  empty n := ⟨n, List.replicate (Bits.wordCount n) 0⟩
  full n := ⟨n, Bits.clearTail n (List.replicate (Bits.wordCount n) (Bits.lowOnes 64))⟩
  ofList n ps := ps.foldl (fun b p => (b.insert p).1) ⟨n, List.replicate (Bits.wordCount n) 0⟩
  insert := insert
  erase b p := if p < b.size then ⟨b.size, Bits.turnOff b.words p⟩ else b
  clear b := ⟨b.size, b.words.map fun _ => 0⟩
  shifted b := ⟨b.size, Bits.clearTail b.size (Bits.shift 0 b.words)⟩
  union b c := (b.change Bits.union c).map fun u => (u, Bits.gains b.words c.words)
  inter := change Bits.inter
  diff := change Bits.diff

/-- Whether an offset is below the size and its bit is on. -/
def contains (b : BareWords) (p : Nat) : Bool := p < b.size && Bits.test b.words p

/-- The places of the bits that are on, found from the lowest up. -/
def toList (b : BareWords) : List Nat := (Bits.Positions.start b.words).toList

/-- The bits that are on, counted word by word. -/
def card (b : BareWords) : Nat := Bits.sumOnes b.words

/-- Whether every word is zero. -/
def isEmpty (b : BareWords) : Bool := b.words.all (· = 0)

/-- Whether the sizes are one and the bits of the first are among those of the second. -/
def isSubset (b c : BareWords) : Bool := b.size = c.size && Bits.within b.words c.words

end BareWords

/-- A finite set of offsets below a size. -/
structure FiniteOffsets where
  size : ℕ
  members : Finset ℕ
  deriving DecidableEq

namespace FiniteOffsets

/-- The set with some offsets more, and whether one of them is new. -/
def join (S : FiniteOffsets) (new : Finset ℕ) : FiniteOffsets × Bool :=
  (⟨S.size, S.members ∪ new⟩, decide (¬new ⊆ S.members))

/-- A change of the members by those of another set, if that has the same size. -/
def change (f : Finset ℕ → Finset ℕ → Finset ℕ) (S T : FiniteOffsets) :
    Except SizeMismatch FiniteOffsets :=
  if S.size = T.size then .ok ⟨S.size, f S.members T.members⟩ else .error ⟨S.size, T.size⟩

/-- The operations of finite sets. What is not below the size is left out. -/
def ops : OffsetOps FiniteOffsets where
  empty n := ⟨n, ∅⟩
  full n := ⟨n, Finset.range n⟩
  ofList n ps := ⟨n, {p ∈ ps.toFinset | p < n}⟩
  insert S p := S.join (if p < S.size then {p} else ∅)
  erase S p := ⟨S.size, S.members.erase p⟩
  clear S := ⟨S.size, ∅⟩
  shifted S := ⟨S.size, {p ∈ S.members.image (· + 1) | p < S.size}⟩
  union S T := if S.size = T.size then .ok (S.join T.members) else .error ⟨S.size, T.size⟩
  inter := change (· ∩ ·)
  diff := change (· \ ·)

end FiniteOffsets

namespace OffsetSet

variable {s t : OffsetSet}

/-- The words of a set by themselves. -/
def bare (s : OffsetSet) : BareWords := ⟨s.size, s.words⟩

/-- The members of a set by themselves. -/
def finite (s : OffsetSet) : FiniteOffsets := ⟨s.size, s.members⟩

theorem bare_insert (s : OffsetSet) (p : Nat) :
    s.bare.insert p = ((s.insert p).bare, s.adds p) := by
  unfold BareWords.insert
  split
  next h =>
    have h : p < s.size := h
    rw [bare, bare, words_insert h, adds, decide_eq_true h]
    rfl
  next h =>
    have h : ¬p < s.size := h
    rw [insert_eq_self h, adds, decide_eq_false h]
    rfl

theorem bare_foldl_insert (s : OffsetSet) (ps : List Nat) :
    ps.foldl (fun b p => (b.insert p).1) s.bare = (ps.foldl insert s).bare := by
  induction ps generalizing s with
  | nil => rfl
  | cons p ps ih => rw [List.foldl_cons, List.foldl_cons, bare_insert, ih]

/-- Where sets of one size are combined, the words are. -/
theorem bare_change {f : OffsetSet → OffsetSet → OffsetSet}
    {g : List UInt64 → List UInt64 → List UInt64} (hsize : (f s t).size = s.size)
    (hwords : s.size = t.size → (f s t).words = g s.words t.words) :
    s.bare.change g t.bare = (sameSize f s t).map bare := by
  by_cases h : s.size = t.size
  · simp [BareWords.change, sameSize, bare, Except.map, h, hwords h, hsize]
  · simp [BareWords.change, sameSize, bare, Except.map, h]

/-- Where sets of one size are combined, the members are. -/
theorem finite_change {f : OffsetSet → OffsetSet → OffsetSet}
    {g : Finset ℕ → Finset ℕ → Finset ℕ} (hsize : (f s t).size = s.size)
    (hmembers : s.size = t.size → (f s t).members = g s.members t.members) :
    s.finite.change g t.finite = (sameSize f s t).map finite := by
  by_cases h : s.size = t.size
  · simp [FiniteOffsets.change, sameSize, finite, Except.map, h, hmembers h, hsize]
  · simp [FiniteOffsets.change, sameSize, finite, Except.map, h]

/-- The words in place go through what the words of the offset sets go through. -/
theorem carries_bare : ops.Carries BareWords.ops bare where
  empty n := by simp [BareWords.ops, ops, bare, words_empty]
  full n := by
    have hlength : (List.replicate (Bits.wordCount n) (Bits.lowOnes 64)).length =
        Bits.wordCount n := List.length_replicate
    simp [BareWords.ops, ops, bare, words_full, Bits.clearTail_eq_keep hlength]
  ofList n ps := by
    have hempty : (⟨n, List.replicate (Bits.wordCount n) 0⟩ : BareWords) = (empty n).bare := by
      rw [bare, words_empty, size_empty]
    change List.foldl _ _ ps = _
    rw [hempty, bare_foldl_insert, foldl_insert_empty]
    rfl
  insert s p := bare_insert s p
  erase s p := by
    by_cases h : p < s.size
    · simp [BareWords.ops, ops, bare, h, words_erase]
    · simp [BareWords.ops, ops, bare, h, erase_eq_self h]
  clear s := by simp [BareWords.ops, ops, bare, words_clear]
  shifted s := by
    have hlength : (Bits.shift 0 s.words).length = Bits.wordCount s.size :=
      (Bits.length_shift 0 s.words).trans s.length_words
    simp [BareWords.ops, ops, bare, words_shifted, Bits.clearTail_eq_keep hlength]
  union s t := by
    change (s.bare.change Bits.union t.bare).map _ = ((sameSize union s t).map _).map _
    rw [bare_change (size_union s t) words_union]
    cases sameSize union s t <;> rfl
  inter s t := bare_change (size_inter s t) words_inter
  diff s t := bare_change (size_diff s t) fun _ => words_diff

theorem members_insert (s : OffsetSet) (p : Nat) :
    (s.insert p).members = s.members ∪ if p < s.size then {p} else ∅ := by
  ext q
  by_cases hp : p < s.size
  · have hq : q = p ∧ q < s.size ↔ q = p := and_iff_left_of_imp fun h => h ▸ hp
    simp [mem_insert, hp, hq, or_comm]
  · simp [insert_eq_self hp, hp]

theorem members_shifted (s : OffsetSet) :
    s.shifted.members = {p ∈ s.members.image (· + 1) | p < s.size} := by
  ext q
  simp only [mem_members, mem_shifted, Finset.mem_filter, Finset.mem_image]
  grind

theorem members_union (h : s.size = t.size) : (s.union t).members = s.members ∪ t.members := by
  ext p
  simp [mem_union h]

theorem adds_eq (s : OffsetSet) (p : Nat) :
    s.adds p = decide (¬(if p < s.size then {p} else ∅) ⊆ s.members) := by
  rw [Bool.eq_iff_iff, adds_iff, decide_eq_true_eq]
  by_cases hp : p < s.size <;> simp [hp]

theorem gains_eq (h : s.size = t.size) : s.gains t = decide (¬t.members ⊆ s.members) := by
  rw [Bool.eq_iff_iff, gains_iff h, decide_eq_true_eq, Finset.subset_iff]
  simp

/-- The finite sets go through what the members of the offset sets go through. -/
theorem carries_finite : ops.Carries FiniteOffsets.ops finite where
  empty n := congrArg (FiniteOffsets.mk n) (by ext p; simp [ops, not_mem_empty])
  full n := congrArg (FiniteOffsets.mk n) (by ext p; simp [ops, mem_full])
  ofList n ps := congrArg (FiniteOffsets.mk n) (by ext p; simp [ops, mem_ofList])
  insert s p :=
    Prod.ext (congrArg (FiniteOffsets.mk s.size) (members_insert s p).symm) (adds_eq s p).symm
  erase s p := congrArg (FiniteOffsets.mk s.size) <| by
    ext q
    simp [ops, finite, mem_erase, and_comm]
  clear s := congrArg (FiniteOffsets.mk s.size) (by ext q; simp [ops, clear, not_mem_empty])
  shifted s := congrArg (FiniteOffsets.mk s.size) (members_shifted s).symm
  union s t := by
    by_cases h : s.size = t.size
    · simp [FiniteOffsets.ops, FiniteOffsets.join, ops, finite, union?, sameSize, Except.map, h,
        members_union h, gains_eq h]
    · simp [FiniteOffsets.ops, ops, finite, union?, sameSize, Except.map, h]
  inter s t := finite_change (size_inter s t) fun _ => by ext p; simp [mem_inter]
  diff s t := finite_change (size_diff s t) fun _ => by ext p; simp [mem_diff]

end OffsetSet

/-- Among sets of one size no command is refused, and the set that is written has that size. -/
theorem OffsetCommand.sized_outcome {n : Nat} {sets : Nat → OffsetSet} {c : OffsetCommand}
    (h : ∀ r, (sets r).size = n) (hc : c.Sized n) :
    ∃ s answer, c.outcome OffsetSet.ops sets = .ok (s, answer) ∧ s.size = n := by
  have hsame : ∀ f r a, OffsetSet.sameSize f (sets r) (sets a) = .ok (f (sets r) (sets a)) :=
    fun f r a => if_pos ((h r).trans (h a).symm)
  cases c with
  | empty r size => exact ⟨_, _, rfl, hc⟩
  | full r size => exact ⟨_, _, rfl, hc⟩
  | ofList r size ps => exact ⟨_, _, rfl, hc⟩
  | copy r a => exact ⟨_, _, rfl, h a⟩
  | union r a b =>
    refine ⟨(sets a).union (sets b), none, ?_, h a⟩
    simp only [outcome, OffsetSet.ops, OffsetSet.union?, hsame, Except.map]
  | shifted r a => exact ⟨_, _, rfl, h a⟩
  | insert r p => exact ⟨_, _, rfl, h r⟩
  | erase r p => exact ⟨_, _, rfl, h r⟩
  | clear r => exact ⟨_, _, rfl, h r⟩
  | unite r a =>
    refine ⟨(sets r).union (sets a), some ((sets r).gains (sets a)), ?_, h r⟩
    simp only [outcome, OffsetSet.ops, OffsetSet.union?, hsame, Except.map]
  | keep r a =>
    refine ⟨(sets r).inter (sets a), none, ?_, h r⟩
    simp only [outcome, OffsetSet.ops, OffsetSet.inter?, hsame, Except.map]
  | drop r a =>
    refine ⟨(sets r).diff (sets a), none, ?_, h r⟩
    simp only [outcome, OffsetSet.ops, OffsetSet.diff?, hsame, Except.map]

/-! ### What registers hold after a script -/

/-- The words have the length that the size asks for, and no bit past the size is on. -/
structure BareWords.Clean (b : BareWords) : Prop where
  length : b.words.length = Bits.wordCount b.size
  tail : ∀ p, b.size ≤ p → Bits.get b.words p = false

/-- What can be read off an offset set is what a finite set says. -/
structure OffsetSet.Denotes (s : OffsetSet) (S : FiniteOffsets) : Prop where
  size : s.size = S.size
  below : ∀ p ∈ S.members, p < S.size
  contains : ∀ p, s.contains p = true ↔ p ∈ S.members
  ascending : s.toList.Pairwise (· < ·)
  listed : ∀ p, p ∈ s.toList ↔ p ∈ S.members
  card : s.card = S.members.card
  isEmpty : s.isEmpty = true ↔ S.members = ∅

theorem OffsetSet.clean (s : OffsetSet) : s.bare.Clean :=
  ⟨s.length_words, s.get_of_size_le⟩

/-- What is read off the words is what is read off a set. -/
structure BareWords.ReadsAs (b : BareWords) (s : OffsetSet) : Prop where
  contains : ∀ p, b.contains p = s.contains p
  toList : b.toList = s.toList
  card : b.card = s.card
  isEmpty : b.isEmpty = s.isEmpty
  isSubset : ∀ t : OffsetSet, b.isSubset t.bare = s.isSubset t

theorem OffsetSet.bare_contains (s : OffsetSet) (p : Nat) :
    s.bare.contains p = s.contains p := by
  rw [BareWords.contains, Bits.test_eq_get]
  exact Bool.and_eq_right_iff_imp.2 fun hp => decide_eq_true (lt_size_of_mem hp)

theorem OffsetSet.bare_isSubset (s t : OffsetSet) : s.bare.isSubset t.bare = s.isSubset t := by
  rw [BareWords.isSubset, isSubset, isEmpty, words_diff]
  by_cases h : s.size = t.size
  · rw [bare, bare, Bits.within_eq_all_diff (length_words_eq h)]
  · simp [bare, h]

theorem OffsetSet.readsAs (s : OffsetSet) : s.bare.ReadsAs s where
  contains := s.bare_contains
  toList := Bits.Positions.toList_start s.words
  card := Bits.sumOnes_eq_count s.words
  isEmpty := rfl
  isSubset := s.bare_isSubset

theorem OffsetSet.denotes (s : OffsetSet) : s.Denotes s.finite where
  size := rfl
  below _ hp := lt_size_of_mem (mem_members.1 hp)
  contains _ := mem_members.symm
  ascending := s.pairwise_toList
  listed _ := mem_toList.trans mem_members.symm
  card := s.card_eq_card_members
  isEmpty := isEmpty_iff_members

theorem OffsetSet.bare_inj {s t : OffsetSet} : s.bare = t.bare ↔ s = t := by
  refine ⟨fun h => ?_, congrArg bare⟩
  obtain ⟨hsize, hwords⟩ := BareWords.mk.inj h
  exact ext_contains hsize fun p => congrArg (Bits.get · p) hwords

/-- Sets of unequal size are refused before anything is written. -/
theorem OffsetCommand.refused {sets : Nat → OffsetSet} {r a : Nat}
    (h : (sets r).size ≠ (sets a).size) {c : OffsetCommand}
    (hc : c = .unite r a ∨ c = .keep r a ∨ c = .drop r a) :
    c.step OffsetSet.ops sets = (sets, .error ⟨(sets r).size, (sets a).size⟩) := by
  obtain rfl | rfl | rfl := hc <;>
    simp [step, outcome, OffsetSet.ops, OffsetSet.union?, OffsetSet.inter?, OffsetSet.diff?,
      OffsetSet.sameSize, Except.map, h]

/-- Run a script on offset sets, on their words in place and on their members. All three answer
alike; the words stay clean and are those of the offset sets, also when they are read; and the
members say all that can be read off the sets, off one or off two of them. -/
theorem scripts_of_offset_sets_denote_finite_sets (sets : Nat → OffsetSet)
    (cs : List OffsetCommand) :
    let done := OffsetCommand.run OffsetSet.ops sets cs
    let bare := OffsetCommand.run BareWords.ops (OffsetSet.bare ∘ sets) cs
    let finite := OffsetCommand.run FiniteOffsets.ops (OffsetSet.finite ∘ sets) cs
    (done.2 = finite.2 ∧ bare.2 = finite.2) ∧
    (∀ r, (bare.1 r = (done.1 r).bare ∧ (bare.1 r).Clean ∧ (bare.1 r).ReadsAs (done.1 r)) ∧
      (done.1 r).Denotes (finite.1 r)) ∧
    (∀ r a, ((done.1 r).isSubset (done.1 a) = true ↔ (finite.1 r).size = (finite.1 a).size ∧
        (finite.1 r).members ⊆ (finite.1 a).members) ∧
      ((done.1 r).size = (done.1 a).size →
        (done.1 r = done.1 a ↔ (finite.1 r).members = (finite.1 a).members) ∧
        (bare.1 r = bare.1 a ↔ (finite.1 r).members = (finite.1 a).members))) ∧
    ∀ r a, (done.1 r).size ≠ (done.1 a).size →
      ∀ c, c = OffsetCommand.unite r a ∨ c = .keep r a ∨ c = .drop r a →
        c.step OffsetSet.ops done.1 = (done.1, .error ⟨(done.1 r).size, (done.1 a).size⟩) ∧
        c.step BareWords.ops bare.1 = (bare.1, .error ⟨(done.1 r).size, (done.1 a).size⟩) := by
  intro done bare finite
  have hbare : bare = Prod.map (OffsetSet.bare ∘ ·) id done := OffsetSet.carries_bare.run sets cs
  have hfinite : finite = Prod.map (OffsetSet.finite ∘ ·) id done :=
    OffsetSet.carries_finite.run sets cs
  rw [hbare, hfinite]
  refine ⟨⟨rfl, rfl⟩,
    fun r => ⟨⟨rfl, (done.1 r).clean, (done.1 r).readsAs⟩, (done.1 r).denotes⟩,
    fun r a => ⟨?_, ?_⟩, fun r a hne c hc => ?_⟩
  · exact OffsetSet.isSubset_iff
  · intro h
    have heq := OffsetSet.eq_iff_members h
    exact ⟨heq, OffsetSet.bare_inj.trans heq⟩
  · have hdone := OffsetCommand.refused hne hc
    refine ⟨hdone, ?_⟩
    change c.step BareWords.ops (OffsetSet.bare ∘ done.1) = _
    rw [OffsetSet.carries_bare.step, hdone]
    rfl

/-- The shift goes from one word to the next, and off the end of the last. -/
example :
    let done := OffsetCommand.run OffsetSet.ops (fun _ => .empty 65)
      [.insert 0 63, .shifted 1 0, .unite 0 1, .shifted 0 0]
    (done.1 0).toList = [64] ∧ done.2 = [.ok (some true), .ok none, .ok (some true), .ok none] := by
  decide

end PatternSweep
