import PatternSweep.EditStates
import PatternSweep.Pattern.Basic
import PatternSweep.SpanSet

/-!
# What happens during a sweep

An `Event` records what one node of a pattern did with a set: it was applied as a whole, or a
repetition finished one more round. The sets are recorded by their members.
-/

namespace PatternSweep

/-- The members of a set, in its order. -/
inductive Members
  | offsets (ps : List Nat)
  | spans (ps : List (Nat × Nat))
  | states (ss : List (Nat × Nat × Nat))
  deriving DecidableEq, Repr

/-- The number of members. -/
def Members.length : Members → Nat
  | offsets ps => ps.length
  | spans ps => ps.length
  | states ss => ss.length

/-- Sets whose members can be recorded. -/
class Recordable (σ : Type) where
  members : σ → Members

instance : Recordable OffsetSet := ⟨fun s => .offsets s.toList⟩

instance : Recordable SpanSet := ⟨fun s => .spans s.toList⟩

instance : Recordable EditStates := ⟨fun s => .states s.toList⟩

/-- What a node did. -/
inductive Action
  /-- The node took the members of `input` to those of `output`. -/
  | step (input output : Members)
  /-- A repetition finished the round `number`. -/
  | round (number : Nat) (reached : Members)
  deriving DecidableEq, Repr

/-- A node and what it did. -/
structure Event where
  node : Pattern
  action : Action
  deriving DecidableEq, Repr

end PatternSweep
