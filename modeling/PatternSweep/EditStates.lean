import PatternSweep.OffsetTable

/-!
# Sets of edit states

A state `(text, pattern, distance)` says that the part of a pattern up to the offset `pattern` of
its axis matches a piece of text that ends at the offset `text`, at the cost of `distance` edits.
An `EditStates` is a set of states within three bounds, filed by pattern offset and distance:
the offsets under one such `Cell` are a *plane*, the planes of one pattern offset are a *layer*.
`toList` lists the states in ascending order.
-/

namespace PatternSweep

/-- The place of a plane: a pattern offset and a distance. -/
structure Cell where
  pattern : Nat
  distance : Nat
  deriving DecidableEq, Repr

theorem Cell.eq_of_not_lt {a b : Cell}
    (h₁ : ¬(a.pattern < b.pattern ∨ a.pattern = b.pattern ∧ a.distance < b.distance))
    (h₂ : ¬(b.pattern < a.pattern ∨ b.pattern = a.pattern ∧ b.distance < a.distance)) : a = b := by
  obtain ⟨p, d⟩ := a
  obtain ⟨q, e⟩ := b
  rw [Cell.mk.injEq]
  simp only at h₁ h₂
  omega

/-- Cells are ordered by pattern offset and then by distance. -/
instance : Key Cell where
  before a b := a.pattern < b.pattern || (a.pattern = b.pattern && a.distance < b.distance)
  irrefl a := by simp
  trans {a b c} h₁ h₂ := by
    simp only [Bool.or_eq_true, Bool.and_eq_true, decide_eq_true_eq] at *
    omega
  total h₁ h₂ := Cell.eq_of_not_lt (by simpa using h₁) (by simpa using h₂)

/-- A set of states `(text, pattern, distance)` within three bounds. -/
structure EditStates where
  textLength : Nat
  patternLength : Nat
  maxDistance : Nat
  /-- The planes, by pattern offset and then by distance. -/
  table : OffsetTable Cell
  cell_le : ∀ r ∈ table.rows, r.1.pattern ≤ patternLength ∧ r.1.distance ≤ maxDistance
  size_eq : ∀ r ∈ table.rows, r.2.size = textLength + 1
  deriving DecidableEq

/-- Two sets of states that had to share their bounds do not. -/
structure BoundsMismatch where
  left : EditStates
  right : EditStates

namespace EditStates

/-- No states. -/
def empty (textLength patternLength maxDistance : Nat) : EditStates :=
  ⟨textLength, patternLength, maxDistance, .empty, by simp [OffsetTable.empty],
    by simp [OffsetTable.empty]⟩

/-- No states, within the bounds of `s`. -/
def emptyLike (s : EditStates) : EditStates := empty s.textLength s.patternLength s.maxDistance

/-- The states of a table that lie within the bounds of `s`. -/
def within (s : EditStates) (table : OffsetTable Cell) : EditStates where
  textLength := s.textLength
  patternLength := s.patternLength
  maxDistance := s.maxDistance
  table :=
    (table.select fun c => c.pattern ≤ s.patternLength && c.distance ≤ s.maxDistance).revise
      fun _ plane => plane.resize (s.textLength + 1)
  cell_le x hx := by
    obtain ⟨r, hr, -, rfl⟩ := OffsetTable.mem_rows_revise.1 hx
    simpa using (OffsetTable.mem_rows_select.1 hr).2
  size_eq x hx := by
    obtain ⟨r, -, -, rfl⟩ := OffsetTable.mem_rows_revise.1 hx
    simp

/-- The planes, by pattern offset and then by distance. -/
def rows (s : EditStates) : List (Cell × OffsetSet) := s.table.rows

/-- The text offsets of the states at `(pattern, distance)`, if there are any. -/
def plane (s : EditStates) (pattern distance : Nat) : Option OffsetSet :=
  s.table.row? ⟨pattern, distance⟩

/-- Whether a state is a member. -/
def contains (s : EditStates) (text pattern distance : Nat) : Bool :=
  (s.plane pattern distance).any (·.contains text)

/-- The states `(t, pattern, distance)` for `t` in `offsets` added, as far as they are within
bounds. -/
def insertPlane (s : EditStates) (pattern distance : Nat) (offsets : OffsetSet) : EditStates :=
  s.within (s.table.add ⟨pattern, distance⟩ (offsets.resize (s.textLength + 1)))

/-- One state added, if it is within bounds. -/
def insert (s : EditStates) (text pattern distance : Nat) : EditStates :=
  if text ≤ s.textLength ∧ pattern ≤ s.patternLength ∧ distance ≤ s.maxDistance then
    s.insertPlane pattern distance (OffsetSet.ofList (s.textLength + 1) [text])
  else s

/-- Every text offset at the start of the pattern, without edits. -/
def seeded (textLength patternLength maxDistance : Nat) : EditStates :=
  (empty textLength patternLength maxDistance).insertPlane 0 0 (.full (textLength + 1))

/-- The planes at one pattern offset, by distance. -/
def layer (s : EditStates) (pattern : Nat) : List (Nat × OffsetSet) :=
  s.rows.filterMap fun r => if r.1.pattern = pattern then some (r.1.distance, r.2) else none

/-- The text offsets at one pattern offset, whatever their distance. -/
def layerOffsets (s : EditStates) (pattern : Nat) : OffsetSet :=
  (s.layer pattern).foldl (fun all r => all.union r.2) (.empty (s.textLength + 1))

/-- The layer at `source`, alone, moved to `target`; nothing if `target` is out of bounds. -/
def relocate (s : EditStates) (source target : Nat) : EditStates :=
  s.within <| (s.table.select (·.pattern = source)).rekey (fun c => ⟨target, c.distance⟩) (by
    intro a ha b hb h
    have pa : a.1.pattern = source := by simpa using (OffsetTable.mem_rows_select.1 ha).2
    have pb : b.1.pattern = source := by simpa using (OffsetTable.mem_rows_select.1 hb).2
    simpa [Key.before, pa, pb] using h)

/-- The states without those at pattern offset `pattern` whose text offset is not allowed. -/
def restrictLayer (s : EditStates) (pattern : Nat) (allowed : OffsetSet) : EditStates :=
  s.within <| s.table.revise fun c plane =>
    if c.pattern = pattern then plane.inter allowed else plane

/-- From each state at `(pattern, distance)`, the state one text offset on at the cost of one more
edit. -/
def deleteAt (pattern : Nat) (s : EditStates) (distance : Nat) : EditStates :=
  match s.plane pattern distance with
  | some plane => s.insertPlane pattern (distance + 1) plane.shifted
  | none => s

/-- The states closed, at one pattern offset, under skipping a character of the text at the cost
of an edit. -/
def applyDeletions (s : EditStates) (pattern : Nat) : EditStates :=
  (List.range s.maxDistance).foldl (deleteAt pattern) s

/-- Whether one state is not after another, by text offset, pattern offset and distance. -/
def inOrder (a b : Nat × Nat × Nat) : Bool :=
  a.1 < b.1 || a.1 = b.1 && (a.2.1 < b.2.1 || a.2.1 = b.2.1 && a.2.2 ≤ b.2.2)

/-- All states in ascending order of text offset, pattern offset and distance. -/
def toList (s : EditStates) : List (Nat × Nat × Nat) :=
  (s.rows.flatMap fun r => r.2.toList.map fun text => (text, r.1.pattern, r.1.distance)).mergeSort
    inOrder

/-- The number of states. -/
def card (s : EditStates) : Nat := s.table.card

/-- Whether there is no state. -/
def isEmpty (s : EditStates) : Bool := s.table.isEmpty

/-- The text offsets at the end of the pattern, by distance. -/
def matchEnds (s : EditStates) : List (Nat × List Nat) :=
  (s.layer s.patternLength).map fun r => (r.1, r.2.toList)

/-- The states of both sets that lie within the bounds of the first. -/
def union (s u : EditStates) : EditStates := s.within (s.table.union u.table)

/-- Whether two sets have the same bounds. -/
def isCompatible (s u : EditStates) : Bool :=
  s.textLength = u.textLength && s.patternLength = u.patternLength && s.maxDistance = u.maxDistance

/-- `union` for sets with the same bounds. -/
def union? (s u : EditStates) : Except BoundsMismatch EditStates :=
  if s.isCompatible u then .ok (s.union u) else .error ⟨s, u⟩

end EditStates
end PatternSweep
