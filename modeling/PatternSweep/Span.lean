import PatternSweep.Json.Basic

/-!
# Spans

A `Span` is the piece of a text between two offsets, ordered by its start and then by its end.
-/

namespace PatternSweep

/-- The characters from the offset `start` up to the offset `stop`. -/
structure Span where
  start : Nat
  stop : Nat
  deriving DecidableEq, Repr

namespace Span

/-- The number of characters. -/
def length (s : Span) : Nat := s.stop - s.start

/-- Whether there are no characters. -/
def isEmpty (s : Span) : Bool := s.start = s.stop

/-- The two offsets with two points between them. -/
def describe (s : Span) : String := toString s.start ++ ".." ++ toString s.stop

/-- The offsets as JSON. -/
def toJson (s : Span) : Json := .obj [("start", .nat s.start), ("end", .nat s.stop)]

/-- Whether one span comes before another: by start, and by end for spans with one start. -/
def before (s t : Span) : Bool := s.start < t.start || (s.start = t.start && s.stop < t.stop)

/-- The greatest of several spans. -/
def greatest? : List Span → Option Span
  | [] => none
  | s :: rest => some (rest.foldl (fun top t => if top.before t then t else top) s)

end Span
end PatternSweep
