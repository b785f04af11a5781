import PatternSweep.EndDistances
import PatternSweep.Span
import PatternSweep.Sweep.Edits

/-!
# Matches in a text

A match may start at every offset, so one sweep that sets out from all offsets at once finds all
ends, all spans, or all ends within a number of edits.
-/

namespace PatternSweep.Subject

/-- What a sweep gives that starts with an empty workspace and is not watched. -/
def unwatched {α : Type} (s : Subject) (run : Sweep → Run α) : α :=
  (run ⟨s, false⟩ |>.run .empty).1

/-- What a sweep gives, and its events. -/
def watched {α : Type} (s : Subject) (run : Sweep → Run α) : α × List Event :=
  let r := run ⟨s, true⟩ |>.run .empty
  (r.1, r.2.events.toList)

/-- The sweep that finds the ends of all matches. -/
def endSweep (s : Subject) (p : Pattern) (w : Sweep) : Run (List Nat) := do
  return (← w.offsets p s.allOffsets).toList

/-- The sweep that finds the states after a match with edits. -/
def editSweep (p : Pattern) (l : Layout) (maxDistance : Nat) (w : Sweep) : Run EditStates :=
  w.finalStates p l maxDistance

/-- The offsets at which a match ends, ascending. -/
def matchEnds (s : Subject) (p : Pattern) : List Nat := s.unwatched (s.endSweep p)

/-- `matchEnds` with the events of the sweep. -/
def watchEnds (s : Subject) (p : Pattern) : List Nat × List Event := s.watched (s.endSweep p)

/-- All matches, by end and then by start. -/
def matchSpans (s : Subject) (p : Pattern) : List Span :=
  (s.unwatched fun w => w.spans p (.lift s.allOffsets)).toList.map fun r => ⟨r.1, r.2⟩

/-- The states after a match with at most `maxDistance` edits. -/
def editStates (s : Subject) (p : Pattern) (l : Layout) (maxDistance : Nat) : EditStates :=
  s.unwatched (editSweep p l maxDistance)

/-- The ends of matches with at most `maxDistance` edits. -/
def endDistances (s : Subject) (p : Pattern) (l : Layout) (maxDistance : Nat) : EndDistances :=
  .ofRaw (s.editStates p l maxDistance).matchEnds

/-- `endDistances` with the events of the sweep. -/
def watchDistances (s : Subject) (p : Pattern) (l : Layout) (maxDistance : Nat) :
    EndDistances × List Event :=
  let r := s.watched (editSweep p l maxDistance)
  (.ofRaw r.1.matchEnds, r.2)

end PatternSweep.Subject
