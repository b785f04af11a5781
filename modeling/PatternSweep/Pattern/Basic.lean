import PatternSweep.CharClass

/-!
# Patterns

A pattern is a tree whose leaves are `Atom`s, each of which stands for one character of the text.
Sequences and alternations may have any number of parts, also none; a repetition may have a least
count above its greatest. `Pattern.induct` is induction with a hypothesis for every direct part.
-/

namespace PatternSweep

/-- A leaf of a pattern: it takes exactly one character. -/
inductive Atom
  | literal (c : Char)
  | any
  | oneOf (k : CharClass)
  deriving DecidableEq, Repr

/-- Whether an atom takes a character; `any` takes every one but the line feed. -/
def Atom.accepts : Atom → Char → Bool
  | literal d, c => c = d
  | any, c => c != '\n'
  | oneOf k, c => k.accepts c

/-- A pattern tree. -/
inductive Pattern
  | atom (a : Atom)
  /-- The parts one after the other. -/
  | seq (parts : List Pattern)
  /-- Any one of the branches. -/
  | alt (branches : List Pattern)
  /-- The element from `min` to `max` times over, without an upper limit for `none`. -/
  | repeated (element : Pattern) (min : Nat) (max : Option Nat)
  /-- The body, where the condition does (or, if not `positive`, does not) match from the same
  start. -/
  | ahead (positive : Bool) (condition body : Pattern)
  deriving Repr

namespace Pattern

/-- Induction with a hypothesis for every direct part. -/
@[elab_as_elim]
theorem induct {motive : Pattern → Prop}
    (atom : ∀ a, motive (.atom a))
    (seq : ∀ ps, (∀ p ∈ ps, motive p) → motive (.seq ps))
    (alt : ∀ ps, (∀ p ∈ ps, motive p) → motive (.alt ps))
    (repeated : ∀ e min max, motive e → motive (.repeated e min max))
    (ahead : ∀ b c p, motive c → motive p → motive (.ahead b c p)) : ∀ p, motive p :=
  fun p => p.rec (motive_1 := motive) (motive_2 := fun ps => ∀ p ∈ ps, motive p)
    atom seq alt repeated ahead (by simp)
    (fun _ _ hp hps => List.forall_mem_cons.2 ⟨hp, hps⟩)

mutual

/-- Decides equality of patterns. -/
def decEq : (p q : Pattern) → Decidable (p = q)
  | .atom a, .atom b => decidable_of_iff (a = b) (by simp)
  | .seq ps, .seq qs => match decEqList ps qs with
    | .isTrue h => .isTrue (by rw [h])
    | .isFalse h => .isFalse (by simpa using h)
  | .alt ps, .alt qs => match decEqList ps qs with
    | .isTrue h => .isTrue (by rw [h])
    | .isFalse h => .isFalse (by simpa using h)
  | .repeated e m n, .repeated f k l => match decEq e f with
    | .isTrue h => decidable_of_iff (m = k ∧ n = l) (by simp [h])
    | .isFalse h => .isFalse (by simp [h])
  | .ahead a c p, .ahead b d q => match decEq c d, decEq p q with
    | .isTrue hc, .isTrue hp => decidable_of_iff (a = b) (by simp [hc, hp])
    | .isFalse h, _ => .isFalse (by simp [h])
    | _, .isFalse h => .isFalse (by simp [h])
  | .atom _, .seq _ | .atom _, .alt _ | .atom _, .repeated _ _ _ | .atom _, .ahead _ _ _
  | .seq _, .atom _ | .seq _, .alt _ | .seq _, .repeated _ _ _ | .seq _, .ahead _ _ _
  | .alt _, .atom _ | .alt _, .seq _ | .alt _, .repeated _ _ _ | .alt _, .ahead _ _ _
  | .repeated _ _ _, .atom _ | .repeated _ _ _, .seq _ | .repeated _ _ _, .alt _
  | .repeated _ _ _, .ahead _ _ _
  | .ahead _ _ _, .atom _ | .ahead _ _ _, .seq _ | .ahead _ _ _, .alt _
  | .ahead _ _ _, .repeated _ _ _ => .isFalse (by simp)

/-- Decides equality of lists of patterns. -/
def decEqList : (ps qs : List Pattern) → Decidable (ps = qs)
  | [], [] => .isTrue rfl
  | [], _ :: _ | _ :: _, [] => .isFalse (by simp)
  | p :: ps, q :: qs => match decEq p q, decEqList ps qs with
    | .isTrue hp, .isTrue hps => .isTrue (by rw [hp, hps])
    | .isFalse h, _ => .isFalse (by simp [h])
    | _, .isFalse h => .isFalse (by simp [h])

end

instance : DecidableEq Pattern := decEq

/-- The pattern of one character. -/
def lit (c : Char) : Pattern := .atom (.literal c)

/-- The direct parts, in the order in which they are matched. -/
def children : Pattern → List Pattern
  | .atom _ => []
  | .seq ps | .alt ps => ps
  | .repeated e _ _ => [e]
  | .ahead _ c p => [c, p]

mutual

/-- The number of nodes of the tree. -/
def nodeCount : Pattern → Nat
  | .atom _ => 1
  | .seq ps | .alt ps => 1 + nodeCounts ps
  | .repeated e _ _ => 1 + nodeCount e
  | .ahead _ c p => 1 + (nodeCount c + nodeCount p)

/-- The number of nodes of all the trees. -/
def nodeCounts : List Pattern → Nat
  | [] => 0
  | p :: ps => nodeCount p + nodeCounts ps

end

mutual

/-- The number of nodes on the longest way from the root to a leaf. -/
def depth : Pattern → Nat
  | .atom _ => 1
  | .seq ps | .alt ps => 1 + depths ps
  | .repeated e _ _ => 1 + depth e
  | .ahead _ c p => 1 + max (depth c) (depth p)

/-- The greatest depth of the trees, `0` for none. -/
def depths : List Pattern → Nat
  | [] => 0
  | p :: ps => max (depth p) (depths ps)

end

mutual

/-- Whether there is a lookahead anywhere in the tree. -/
def hasLookahead : Pattern → Bool
  | .atom _ => false
  | .seq ps | .alt ps => haveLookahead ps
  | .repeated e _ _ => hasLookahead e
  | .ahead _ _ _ => true

/-- Whether there is a lookahead in any of the trees. -/
def haveLookahead : List Pattern → Bool
  | [] => false
  | p :: ps => hasLookahead p || haveLookahead ps

end

/-- Whether the pattern is an atom that takes the character. -/
def accepts : Pattern → Char → Bool
  | .atom a, c => a.accepts c
  | _, _ => false

end Pattern
end PatternSweep
