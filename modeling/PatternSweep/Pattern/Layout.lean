import PatternSweep.Pattern.Basic

/-!
# Lengths on the pattern axis

Matching with edits walks along an axis on which every part of a pattern takes a fixed length: an
atom one, a sequence the sum of its parts, an alternation its longest branch, a repetition the
length of its element (every round uses the same stretch), and a lookahead the length of its body
(the condition takes none). A `Layout` holds these lengths in the shape of the pattern.
-/

namespace PatternSweep

/-- The length of a part and the layouts of its own parts. -/
inductive Layout
  | node (length : Nat) (children : List Layout)
  deriving Repr

namespace Layout

/-- The length on the axis. -/
def length : Layout → Nat
  | node n _ => n

/-- The layouts of the direct parts. -/
def children : Layout → List Layout
  | node _ ls => ls

/-- The layout of the `i`-th part; a part that is not there takes no length. -/
def child (l : Layout) (i : Nat) : Layout := (l.children[i]?).getD (node 0 [])

/-- Whether the part takes no length. -/
def isEmpty (l : Layout) : Bool := l.length = 0

/-- The layout of parts that follow one another. -/
def sequence (ls : List Layout) : Layout := node ((ls.map length).foldl (· + ·) 0) ls

/-- The layout of branches that share a stretch as long as the longest. -/
def alternation (ls : List Layout) : Layout := node ((ls.map length).foldl max 0) ls

/-- The layout of a repetition of an element. -/
def repetition (l : Layout) : Layout := node l.length [l]

/-- The layout of a lookahead. -/
def lookahead (condition body : Layout) : Layout := node body.length [condition, body]

mutual

/-- The layout of a pattern. -/
def of : Pattern → Layout
  | .atom _ => node 1 []
  | .seq ps => sequence (ofList ps)
  | .alt ps => alternation (ofList ps)
  | .repeated e _ _ => repetition (of e)
  | .ahead _ c p => lookahead (of c) (of p)

/-- The layouts of several patterns. -/
def ofList : List Pattern → List Layout
  | [] => []
  | p :: ps => of p :: ofList ps

end

theorem ofList_eq_map (ps : List Pattern) : ofList ps = ps.map of := by
  induction ps with
  | nil => rfl
  | cons p ps ih => rw [ofList, ih, List.map_cons]

end Layout

/-- The length of a pattern on the axis. -/
def Pattern.axisLength (p : Pattern) : Nat := (Layout.of p).length

end PatternSweep
