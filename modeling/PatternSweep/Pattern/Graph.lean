import PatternSweep.Pattern.Render

/-!
# Patterns as graphs

A pattern is drawn as a directed graph in the DOT language. Its nodes are numbered in the order in
which they are visited, each before its parts; the edge to a part follows everything that belongs
to the part.
-/

namespace PatternSweep

/-- A line of a drawing. -/
inductive GraphLine
  | node (id : Nat) (label : String)
  | edge (source target : Nat)
  deriving DecidableEq, Repr

/-- A line in the DOT language. -/
def GraphLine.text : GraphLine → String
  | node id label => "  n" ++ toString id ++ " [label=" ++ Text.quotedText label ++ "]\n"
  | edge source target => "  n" ++ toString source ++ " -> n" ++ toString target ++ "\n"

namespace Pattern

/-- The lines of a node before those of its parts. -/
def withRoot (id : Nat) (label : String) (parts : List GraphLine × Nat) : List GraphLine × Nat :=
  (.node id label :: parts.1, parts.2)

/-- The lines of a part and then the edge that leads to it. -/
def withEdge (parent id : Nat) (part : List GraphLine × Nat) : List GraphLine × Nat :=
  (part.1 ++ [.edge parent id], part.2)

mutual

/-- The lines of a pattern whose root has the number `id`, and the number of the next node. -/
def graph (id : Nat) : Pattern → List GraphLine × Nat
  | .atom a => ([.node id (Pattern.atom a).label], id + 1)
  | .seq ps => withRoot id (Pattern.seq ps).label (graphParts id (id + 1) ps)
  | .alt ps => withRoot id (Pattern.alt ps).label (graphParts id (id + 1) ps)
  | .repeated e min max =>
    withRoot id (Pattern.repeated e min max).label (withEdge id (id + 1) (graph (id + 1) e))
  | .ahead positive c p =>
    let condition := withEdge id (id + 1) (graph (id + 1) c)
    let body := withEdge id condition.2 (graph condition.2 p)
    withRoot id (Pattern.ahead positive c p).label (condition.1 ++ body.1, body.2)

/-- The lines of the parts of the node `parent`, the first of which has the number `id`. -/
def graphParts (parent id : Nat) : List Pattern → List GraphLine × Nat
  | [] => ([], id)
  | p :: ps =>
    let first := withEdge parent id (graph id p)
    let rest := graphParts parent first.2 ps
    (first.1 ++ rest.1, rest.2)

end

/-- The drawing of a pattern in the DOT language. -/
def toDot (p : Pattern) : String :=
  "digraph Pattern \x7b\n  rankdir=TB;\n  node [shape=box];\n" ++
    String.join ((p.graph 0).1.map GraphLine.text) ++ "\x7d\n"

end Pattern
end PatternSweep
