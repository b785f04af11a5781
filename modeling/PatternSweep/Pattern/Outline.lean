import PatternSweep.Pattern.Render

/-!
# Outlines of patterns

An outline has one line for every node of a pattern, set in by one `indent` for each level; the
parts of a lookahead are named on lines of their own and lie one level deeper. Below the greatest
depth, if there is one, a part is shown by three dots.
-/

namespace PatternSweep

/-- How outlines are set. -/
structure Outline where
  indent : String
  /-- The greatest depth that is shown. -/
  maxDepth : Option Nat
  deriving DecidableEq, Repr

namespace Outline

/-- Two blanks for each level, and no greatest depth. -/
def standard : Outline := ⟨"  ", none⟩

/-- A line at a level. -/
def line (o : Outline) (level : Nat) (text : String) : String :=
  String.join (List.replicate level o.indent) ++ text ++ "\n"

/-- `text`, or three dots below the greatest depth. -/
def bounded (o : Outline) (level : Nat) (text : Unit → String) : String :=
  if o.maxDepth.any (· < level) then o.line level "..." else text ()

mutual

/-- The lines of a pattern, its root at a level. -/
def lines (o : Outline) (level : Nat) : Pattern → String
  | .atom a => o.bounded level fun _ => o.line level (Pattern.atom a).label
  | .seq ps => o.bounded level fun _ =>
    o.line level (Pattern.seq ps).label ++ partLines o (level + 1) ps
  | .alt ps => o.bounded level fun _ =>
    o.line level (Pattern.alt ps).label ++ partLines o (level + 1) ps
  | .repeated e min max => o.bounded level fun _ =>
    o.line level (Pattern.repeated e min max).label ++ lines o (level + 1) e
  | .ahead positive c p => o.bounded level fun _ =>
    o.line level (Pattern.ahead positive c p).label ++
      o.line (level + 1) "condition:" ++ lines o (level + 2) c ++
      o.line (level + 1) "body:" ++ lines o (level + 2) p

/-- The lines of several patterns at a level. -/
def partLines (o : Outline) (level : Nat) : List Pattern → String
  | [] => ""
  | p :: ps => lines o level p ++ partLines o level ps

end

/-- The outline of a pattern. -/
def print (o : Outline) (p : Pattern) : String := o.lines 0 p

end Outline
end PatternSweep
