import PatternSweep.Event

/-!
# Sets in words

How sets of offsets, spans and edit states are shown: members in square brackets with commas
between them, pairs and triples in parentheses.
-/

namespace PatternSweep

/-- Texts in square brackets with commas between them. -/
def listText (items : List String) : String := "[" ++ String.intercalate ", " items ++ "]"

/-- A pair in parentheses. -/
def pairText (r : Nat × Nat) : String := "(" ++ toString r.1 ++ ", " ++ toString r.2 ++ ")"

/-- A triple in parentheses. -/
def tripleText (r : Nat × Nat × Nat) : String :=
  "(" ++ toString r.1 ++ ", " ++ toString r.2.1 ++ ", " ++ toString r.2.2 ++ ")"

/-- Numbers in square brackets. -/
def numbersText (ns : List Nat) : String := listText (ns.map toString)

/-- Pairs in square brackets. -/
def pairsText (ps : List (Nat × Nat)) : String := listText (ps.map pairText)

/-- The digits of a set of offsets and its members. -/
def OffsetSet.describe (s : OffsetSet) : String :=
  "PositionSet[" ++ s.digits ++ "] (positions: " ++ numbersText s.toList ++ ")"

/-- The digits of the ends of a set of spans and its members. -/
def SpanSet.text (t : SpanSet) : String :=
  t.ends.digits ++ " (pairs: " ++ pairsText t.toList ++ ")"

/-- `SpanSet.text` with the kind of the set before it. -/
def SpanSet.describe (t : SpanSet) : String := "TrackedPositionSet[" ++ t.text ++ "]"

/-- The bounds of a set of states, the number of its members, and its planes. -/
def EditStates.describe (s : EditStates) : String :=
  let bounds := [s.textLength, s.patternLength, s.maxDistance].map toString
  let plane (r : Cell × OffsetSet) :=
    " p" ++ toString r.1.pattern ++ "/d" ++ toString r.1.distance ++ "=" ++ numbersText r.2.toList
  "FuzzyState[" ++ String.intercalate "x" bounds ++ "] (active: " ++ toString s.card ++ ")" ++
    String.join (s.rows.map plane)

namespace Members

/-- All members. -/
def text : Members → String
  | offsets ps => numbersText ps
  | spans ps => pairsText ps
  | states ss => listText (ss.map tripleText)

/-- All members, but of states only how many there are. -/
def summary : Members → String
  | states ss => toString ss.length ++ " states"
  | members => members.text

end Members
end PatternSweep
