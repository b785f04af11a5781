import PatternSweep.Limits
import PatternSweep.Matching
import PatternSweep.Pattern.Parse
import PatternSweep.Pattern.Render

/-!
# Queries

A `Query` is a pattern made ready for matching: with the text it was written in, its layout, and
the limits that every match keeps. Each match first checks its limits, the number of edits before
the length of the text, and does no work unless they hold.
-/

namespace PatternSweep

/-- A pattern made ready for matching. -/
structure Query where
  root : Pattern
  /-- The pattern in writing. -/
  source : String
  limits : Limits
  layout : Layout
  layout_eq : layout = .of root

/-- Why a pattern could not be read or matched. -/
inductive Failure
  | unreadable (e : SyntaxError)
  | unmatched (e : MatchError)
  deriving DecidableEq, Repr

namespace Failure

/-- The wording of what lies behind a failure. -/
def cause : Failure → String
  | unreadable e => e.message
  | unmatched e => e.message

/-- The wording of a failure. -/
def message : Failure → String
  | unreadable e => "Syntax error: " ++ e.message
  | unmatched e => e.message

end Failure

namespace Query

/-- The query for a pattern and the text it was written in. -/
def build (root : Pattern) (source : String) : Query := ⟨root, source, .standard, .of root, rfl⟩

/-- The query that a written pattern denotes. -/
def parse (written : String) : Except SyntaxError Query := do
  return build (← Pattern.parse written) written

/-- The query for a pattern that was built and not read. -/
def ofPattern (root : Pattern) : Query := build root root.render

/-- The query under other limits. -/
def withLimits (q : Query) (limits : Limits) : Query := { q with limits := limits }

/-- The length of the pattern on its axis. -/
def axisLength (q : Query) : Nat := q.layout.length

/-- A text that keeps the limits. -/
def subject (q : Query) (text : String) : Except MatchError Subject := do
  let chars := text.toList
  q.limits.checkLength chars.length
  return .plain chars

/-- The offsets of `text` at which a match ends, ascending. -/
def matchEnds (q : Query) (text : String) : Except MatchError (List Nat) := do
  return (← q.subject text).matchEnds q.root

/-- `matchEnds` with the events of the sweep. -/
def watchEnds (q : Query) (text : String) : Except MatchError (List Nat × List Event) := do
  return (← q.subject text).watchEnds q.root

/-- `matchEnds` for a text whose characters have been looked up before. -/
def matchEndsIn (q : Query) (o : Occurrences) : Except MatchError (List Nat) := do
  q.limits.checkLength o.text.length
  return (Subject.indexed o).matchEnds q.root

/-- All matches in `text`, by end and then by start. -/
def matchSpans (q : Query) (text : String) : Except MatchError (List Span) := do
  return (← q.subject text).matchSpans q.root

/-- Whether there is a match in `text`. -/
def isMatch (q : Query) (text : String) : Except MatchError Bool := do
  return !(← q.matchEnds text).isEmpty

/-- The ends of matches in `text` with at most `distance` edits. -/
def matchWithin (q : Query) (text : String) (distance : Nat) : Except MatchError EndDistances := do
  q.limits.checkDistance distance
  return (← q.subject text).endDistances q.root q.layout distance

/-- `matchWithin` with the events of the sweep. -/
def watchWithin (q : Query) (text : String) (distance : Nat) :
    Except MatchError (EndDistances × List Event) := do
  q.limits.checkDistance distance
  return (← q.subject text).watchDistances q.root q.layout distance

end Query

/-- The ends of the matches of a written pattern in a text. -/
def matchEnds (written text : String) (limits : Limits) : Except Failure (List Nat) := do
  let q ← (Query.parse written).mapError .unreadable
  ((q.withLimits limits).matchEnds text).mapError .unmatched

/-- The ends of the matches of a written pattern in a text with at most `distance` edits. -/
def matchWithin (written text : String) (distance : Nat) (limits : Limits) :
    Except Failure EndDistances := do
  let q ← (Query.parse written).mapError .unreadable
  ((q.withLimits limits).matchWithin text distance).mapError .unmatched

end PatternSweep
