import PatternSweep.Pattern.Render
import PatternSweep.Proofs.Grammar

/-!
# Shapes of patterns

A pattern that was built and not read need not be one that a text denotes. What a text can say of a
node is `Regular`: a class has members and no reversed range, a repetition has its counts in order,
and a sequence or an alternation has at least as many parts as is asked for. `Sound` patterns have
regular nodes with one part or more, and `Canonical` ones have two parts or more and do not nest too
deep in writing. `Pattern.collapse` puts the part in the place of every sequence and alternation of
one part; it leaves a canonical pattern as it is.
-/

namespace PatternSweep

open Grammar

namespace Pattern

/-! ### Nodes -/

/-- The pattern `q` is a node of another one: its root or a node of a direct part. -/
inductive NodeOf (q : Pattern) : Pattern → Prop
  | root : NodeOf q q
  | part {t c : Pattern} (hc : c ∈ t.children) (h : NodeOf q c) : NodeOf q t

/-- Every node has the property. -/
def Everywhere (P : Pattern → Prop) (t : Pattern) : Prop := ∀ q, q.NodeOf t → P q

section

variable {P Q : Pattern → Prop} {t : Pattern}

theorem everywhere_iff : t.Everywhere P ↔ P t ∧ ∀ c ∈ t.children, c.Everywhere P := by
  constructor
  · exact fun h => ⟨h t .root, fun c hc q hq => h q (.part hc hq)⟩
  · rintro ⟨ht, hparts⟩ q hq
    cases hq with
    | root => exact ht
    | part hc hq => exact hparts _ hc q hq

@[simp] theorem everywhere_atom_iff {a : Atom} : (atom a).Everywhere P ↔ P (.atom a) := by
  simp [everywhere_iff (t := .atom a), children]

@[simp] theorem everywhere_seq_iff {ps : List Pattern} :
    (seq ps).Everywhere P ↔ P (.seq ps) ∧ ∀ p ∈ ps, p.Everywhere P := everywhere_iff

@[simp] theorem everywhere_alt_iff {ps : List Pattern} :
    (alt ps).Everywhere P ↔ P (.alt ps) ∧ ∀ p ∈ ps, p.Everywhere P := everywhere_iff

@[simp] theorem everywhere_repeated_iff {e : Pattern} {min : Nat} {max : Option Nat} :
    (repeated e min max).Everywhere P ↔ P (.repeated e min max) ∧ e.Everywhere P := by
  rw [everywhere_iff, children, List.forall_mem_singleton]

@[simp] theorem everywhere_ahead_iff {positive : Bool} {c p : Pattern} :
    (ahead positive c p).Everywhere P ↔
      P (.ahead positive c p) ∧ c.Everywhere P ∧ p.Everywhere P := by
  rw [everywhere_iff, children, List.forall_mem_cons, List.forall_mem_singleton]

theorem Everywhere.mono (h : t.Everywhere P) (hPQ : ∀ q, P q → Q q) : t.Everywhere Q :=
  fun q hq => hPQ q (h q hq)

end

/-- What a text can say of a node whose parts, if it is a sequence or an alternation, are at least
`least`: a class has a member and no range from a character to an earlier one, and the least count
of a repetition is not above its greatest. -/
def Regular (least : Nat) : Pattern → Prop
  | .atom (.oneOf k) => k.items ≠ [] ∧ ∀ first last, .range first last ∈ k.items → first ≤ last
  | .atom _ => True
  | .seq ps | .alt ps => least ≤ ps.length
  | .repeated _ min max => ∀ m ∈ max, min ≤ m
  | .ahead _ _ _ => True

/-- The counts of a node are numbers of 64 bits. -/
def HasWordCounts : Pattern → Prop
  | .repeated _ min max => min < UInt64.size ∧ ∀ m ∈ max, m < UInt64.size
  | _ => True

/-- No node is an empty sequence, alternation or class, and none has a reversed range or counts out
of order. -/
def Sound (t : Pattern) : Prop := t.Everywhere (Regular 1)

theorem Regular.sound {p : Pattern} (h : p.Regular 2) : p.Regular 1 := by
  cases p with
  | atom a =>
    cases a with
    | literal | any | oneOf => exact h
  | seq | alt => exact Nat.le_of_succ_le h
  | repeated | ahead => exact h

/-! ### Nesting in writing -/

/-- The nesting of a text that nests `n` groups, in parentheses if `yes`. -/
def grouped (yes : Bool) (n : Nat) : Nat := if yes then n + 1 else n

@[simp] theorem grouped_true (n : Nat) : grouped true n = n + 1 := rfl

@[simp] theorem grouped_false (n : Nat) : grouped false n = n := rfl

mutual

/-- The number of groups that lie one inside the other where the pattern is written. A lookahead
counts as a group around its condition and around its body. -/
def nesting : Pattern → Nat
  | .atom _ => 0
  | .seq ps => partNesting isLoose ps
  | .alt ps => partNesting isAlt ps
  | .repeated e _ _ => grouped e.needsGroup (nesting e)
  | .ahead _ c p => 1 + max (nesting c) (grouped p.needsGroup (nesting p))

/-- The greatest nesting of several parts, those in parentheses that `loose` picks out. -/
def partNesting (loose : Pattern → Bool) : List Pattern → Nat
  | [] => 0
  | p :: ps => max (grouped (loose p) (nesting p)) (partNesting loose ps)

end

theorem partNesting_le_iff {loose : Pattern → Bool} {ps : List Pattern} {n : Nat} :
    partNesting loose ps ≤ n ↔ ∀ p ∈ ps, grouped (loose p) p.nesting ≤ n := by
  induction ps with
  | nil => simp [partNesting]
  | cons p ps ih => rw [partNesting, Nat.max_le, ih, List.forall_mem_cons]

/-- A pattern that some text denotes: its nodes are regular, its sequences and alternations have two
parts or more, and in writing it nests no more groups than a reader has room for. -/
structure Canonical (t : Pattern) : Prop where
  nodes : t.Everywhere (Regular 2)
  nesting : t.nesting ≤ nestingLimit

/-! ### Single parts -/

mutual

/-- The pattern with every sequence and alternation of one part replaced by that part. -/
def collapse : Pattern → Pattern
  | .atom a => .atom a
  | .seq ps => oneOr .seq (collapses ps)
  | .alt ps => oneOr .alt (collapses ps)
  | .repeated e min max => .repeated (collapse e) min max
  | .ahead positive c p => .ahead positive (collapse c) (collapse p)

/-- `collapse` of every pattern. -/
def collapses : List Pattern → List Pattern
  | [] => []
  | p :: ps => collapse p :: collapses ps

end

theorem collapses_eq_map (ps : List Pattern) : collapses ps = ps.map collapse := by
  induction ps with
  | nil => rfl
  | cons p ps ih => rw [collapses, ih, List.map_cons]

/-- A pattern without sequences and alternations of one part stays as it is. -/
theorem collapse_eq_self {t : Pattern} (h : t.Everywhere (Regular 2)) : t.collapse = t := by
  induction t using Pattern.induct with
  | atom a => rfl
  | seq ps ih | alt ps ih =>
    obtain ⟨hlength, hparts⟩ := everywhere_iff.1 h
    have hps : ps.map collapse = ps.map id :=
      List.map_congr_left fun p hp => ih p hp (hparts p hp)
    rw [collapse, collapses_eq_map, hps, List.map_id, oneOr_of_two_le hlength]
  | repeated e min max ih =>
    obtain ⟨-, he⟩ := everywhere_repeated_iff.1 h
    rw [collapse, ih he]
  | ahead positive c p ihc ihp =>
    obtain ⟨-, hc, hp⟩ := everywhere_ahead_iff.1 h
    rw [collapse, ihc hc, ihp hp]

end Pattern

end PatternSweep
