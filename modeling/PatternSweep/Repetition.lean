import PatternSweep.EditStates
import PatternSweep.SpanSet

/-!
# Repetition

`Repetition.run` applies a step again and again and gives the join of the sets that a permitted
number of applications reaches. First come the applications up to the least count, each to the
result of the one before; then what has been reached is joined with its image until that adds
nothing or the greatest count is used up. Each of the two phases is cut after `ceiling`
applications. The step may have effects of a monad, such as keeping a record.
-/

namespace PatternSweep

/-- Finite sets that can be joined. -/
class JoinSet (σ : Type) where
  /-- The members of both sets. -/
  join : σ → σ → σ
  /-- Whether there is no member. -/
  isEmpty : σ → Bool

instance : JoinSet OffsetSet := ⟨OffsetSet.union, OffsetSet.isEmpty⟩

instance : JoinSet SpanSet := ⟨SpanSet.union, SpanSet.isEmpty⟩

instance : JoinSet EditStates := ⟨EditStates.union, EditStates.isEmpty⟩

/-- The outcome of a repetition. -/
structure Repetition (σ : Type) where
  /-- The join of the sets reached by a permitted number of applications. -/
  reached : σ
  /-- How often the step was applied. -/
  applications : Nat
  /-- Whether the ceiling ended a phase. -/
  cut : Bool
  deriving DecidableEq

namespace Repetition

/-- The outcome of the applications up to the least count. -/
inductive Exact (σ : Type)
  /-- No application can reach anything any more. -/
  | dead (set : σ) (applications : Nat)
  /-- What the least count reaches. -/
  | alive (set : σ) (applications : Nat) (cut : Bool)
  deriving DecidableEq

variable {σ : Type} [JoinSet σ] [DecidableEq σ] {m : Type → Type} [Monad m]

/-- The applications up to the least count, `done` of which have been made. A set that the step
leaves as it is stands for all further applications. -/
@[specialize]
def exact (step : σ → Nat → m σ) (min : Nat) : (room done : Nat) → σ → m (Exact σ)
  | 0, done, set => pure (.alive set done (done < min))
  | room + 1, done, set =>
    if min ≤ done then pure (.alive set done false)
    else do
      let next ← step set (done + 1)
      if JoinSet.isEmpty next then return .dead next (done + 1)
      else if next = set then return .alive set (done + 1) false
      else exact step min room (done + 1) next

/-- The applications past the least count, `done` of which have been made, at most `extra`. The
number that the step is told, the least count and the applications past it, is taken to fit a
machine word. -/
@[specialize]
def grow (step : σ → Nat → m σ) (min : Nat) (extra : Option Nat) :
    (room done : Nat) → σ → m (Repetition σ)
  | 0, done, set => pure ⟨set, done, !extra.any (· ≤ done)⟩
  | room + 1, done, set =>
    if extra.any (· ≤ done) then pure ⟨set, done, false⟩
    else do
      let next ← step set (min + (done + 1))
      let joined := JoinSet.join set next
      if joined = set then return ⟨set, done + 1, false⟩
      else grow step min extra room (done + 1) joined

/-- The step applied to `input` from `min` to `max` times. It is told the number of the
application, which counts on from `min` in the second phase. -/
@[specialize]
def run (input : σ) (min : Nat) (max : Option Nat) (ceiling : Nat) (step : σ → Nat → m σ) :
    m (Repetition σ) := do
  match ← exact step min ceiling 0 input with
  | .dead set n => return ⟨set, n, false⟩
  | .alive set n cut =>
    let r ← grow step min (max.map (· - min)) ceiling 0 set
    return ⟨r.reached, n + r.applications, cut || r.cut⟩

/-- What a round is reported with: the image itself up to the least count, and everything reached
so far after it. -/
def view (set next : σ) (number min : Nat) : σ :=
  if number ≤ min then next else JoinSet.join set next

end Repetition
end PatternSweep
