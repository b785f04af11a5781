import PatternSweep.Describe
import PatternSweep.Json.Read
import PatternSweep.Json.Write
import PatternSweep.Pattern.Render

/-!
# Traces

A `Trace` is the record of a watched sweep in a form that can be kept and shown: every event with
the label of its node and the node in writing. `Trace.format` shows it line by line, `toJson` and
`ofJson?` turn it into JSON and back.
-/

namespace PatternSweep

/-- An event, its node given by label and writing. -/
structure TraceEntry where
  node : String
  pattern : String
  action : Action
  deriving DecidableEq, Repr

/-- The entries of a sweep in their order. -/
structure Trace where
  entries : List TraceEntry
  deriving DecidableEq, Repr

/-- The entry of an event. -/
def TraceEntry.ofEvent (e : Event) : TraceEntry := ⟨e.node.label, e.node.render, e.action⟩

/-- The line of an entry; the rounds of a repetition are set in. -/
def TraceEntry.line (e : TraceEntry) : String :=
  match e.action with
  | .step input output =>
    e.node ++ " `" ++ e.pattern ++ "`: " ++ input.summary ++ " -> " ++ output.summary ++ "\n"
  | .round number reached =>
    "  " ++ e.node ++ " `" ++ e.pattern ++ "` #" ++ toString number ++ ": " ++ reached.summary ++
      "\n"

namespace Trace

/-- The trace of some events. -/
def ofEvents (events : List Event) : Trace := ⟨events.map TraceEntry.ofEvent⟩

/-- No entries. -/
def empty : Trace := ⟨[]⟩

/-- The number of entries. -/
def length (t : Trace) : Nat := t.entries.length

/-- Whether there is no entry. -/
def isEmpty (t : Trace) : Bool := t.entries.isEmpty

/-- The rounds of the repetitions that are written as `pattern`. -/
def roundsOf (t : Trace) (pattern : String) : List (Nat × Members) :=
  t.entries.filterMap fun e =>
    match e.action with
    | .round number reached => if e.pattern = pattern then some (number, reached) else none
    | .step _ _ => none

/-- A line for every entry. -/
def format (t : Trace) : String := String.join (t.entries.map TraceEntry.line)

end Trace

/-! ### Traces as JSON -/

/-- Members as JSON, with the kind of the set first. -/
def Members.toJson : Members → Json
  | offsets ps => .obj [("kind", .str "exact"), ("positions", .arr (ps.map Json.nat))]
  | spans ps =>
    .obj [("kind", .str "tracked"), ("pairs", .arr (ps.map fun r => .arr [.nat r.1, .nat r.2]))]
  | states ss =>
    .obj [("kind", .str "fuzzy"),
      ("states", .arr (ss.map fun r => .arr [.nat r.1, .nat r.2.1, .nat r.2.2]))]

/-- Members from JSON. -/
def Members.ofJson? : Json → Option Members
  | .obj [("kind", .str "exact"), ("positions", .arr items)] =>
    offsets <$> items.mapM fun
      | .nat n => some n
      | _ => none
  | .obj [("kind", .str "tracked"), ("pairs", .arr items)] =>
    spans <$> items.mapM fun
      | .arr [.nat m, .nat n] => some (m, n)
      | _ => none
  | .obj [("kind", .str "fuzzy"), ("states", .arr items)] =>
    states <$> items.mapM fun
      | .arr [.nat l, .nat m, .nat n] => some (l, m, n)
      | _ => none
  | _ => none

/-- An action as JSON, with its kind first. -/
def Action.toJson : Action → Json
  | step input output =>
    .obj [("action", .str "step"), ("input", input.toJson), ("output", output.toJson)]
  | round number reached =>
    .obj [("action", .str "iteration"), ("iteration", .nat number), ("set", reached.toJson)]

/-- An action from JSON. -/
def Action.ofJson? : Json → Option Action
  | .obj [("action", .str "step"), ("input", i), ("output", o)] => do
    return step (← Members.ofJson? i) (← Members.ofJson? o)
  | .obj [("action", .str "iteration"), ("iteration", .nat number), ("set", s)] => do
    return round number (← Members.ofJson? s)
  | _ => none

/-- An entry as JSON. -/
def TraceEntry.toJson (e : TraceEntry) : Json :=
  .obj [("node", .str e.node), ("pattern", .str e.pattern), ("action", e.action.toJson)]

/-- An entry from JSON. -/
def TraceEntry.ofJson? : Json → Option TraceEntry
  | .obj [("node", .str node), ("pattern", .str pattern), ("action", a)] => do
    return ⟨node, pattern, ← Action.ofJson? a⟩
  | _ => none

namespace Trace

/-- A trace as JSON. -/
def toJson (t : Trace) : Json := .obj [("entries", .arr (t.entries.map TraceEntry.toJson))]

/-- A trace from JSON. -/
def ofJson? : Json → Option Trace
  | .obj [("entries", .arr items)] => Trace.mk <$> items.mapM TraceEntry.ofJson?
  | _ => none

/-- A trace as a text of JSON on lines of its own. -/
def writeText (t : Trace) : String := t.toJson.pretty

/-- The trace that a text of JSON denotes. -/
def readText? (text : String) : Option Trace := do ofJson? (← Json.parse text)

end Trace
end PatternSweep
