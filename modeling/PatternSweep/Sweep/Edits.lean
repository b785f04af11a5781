import PatternSweep.Pattern.Layout
import PatternSweep.Sweep.Exact

/-!
# Sweeps with edits

`Sweep.edits` carries edit states through a pattern that is laid out on an axis: a part that is
entered at the offset `entry` of the axis reads the layer there and writes the layer at `entry`
plus its length. From a state `(t, p, d)` an atom goes

* to `(t + 1, p + 1, d)` if it takes the character at `t`,
* to `(t + 1, p + 1, d + 1)` by a substitution,
* to `(t, p + 1, d + 1)` by leaving out the atom,
* to `(t + 1, p, d + 1)`, before any of these, by passing over the character at `t`.

The condition of a lookahead is matched without edits, and its sweep is not watched.
-/

namespace PatternSweep.Sweep

/-- What an atom makes of one plane of states: the `hits` go on as they are, and every state goes
on at the cost of an edit, if one may still be made. -/
def atomPlane (exit : Nat) (distance : Nat) (plane hits : OffsetSet) (output : EditStates) :
    EditStates :=
  let matched := output.insertPlane exit distance hits.shifted
  if distance < output.maxDistance then
    (matched.insertPlane exit (distance + 1) plane.shifted).insertPlane exit (distance + 1) plane
  else matched

/-- Carries the states of the layer at `entry` through an atom. -/
def atomEdits (s : Sweep) (a : Atom) (state : EditStates) (entry : Nat) : Run EditStates := do
  let work := (state.relocate entry entry).applyDeletions entry
  let mask ← s.atomMask a
  return (work.layer entry).foldl (fun output r =>
    let hits := match mask with
      | some mask => r.2.inter mask
      | none => r.2.filter (s.subject.takes a)
    atomPlane (entry + 1) r.1 r.2 hits output) state.emptyLike

mutual

/-- Carries the states of the layer at `entry` through a pattern. The ceiling of a
repetition, the length of the text and the greatest distance and two more, is taken to fit a machine
word. -/
def edits (s : Sweep) : Pattern → Layout → EditStates → Nat → Run EditStates
  | .atom a, _, state, entry => s.step (.atom a) state (s.atomEdits a state entry)
  | .seq ps, l, state, entry => s.step (.seq ps) state (seqEdits s ps l.children state entry)
  | .alt ps, l, state, entry =>
    s.step (.alt ps) state
      (altEdits s ps l.children state entry (entry + l.length) state.emptyLike)
  | .repeated e min max, l, state, entry =>
    s.step (.repeated e min max) state do
      let exit := entry + (l.child 0).length
      let looped ← s.repetition (.repeated e min max) (state.relocate entry entry) min max
        (s.subject.length + state.maxDistance + 2)
        fun set => do return (← edits s e (l.child 0) set entry).relocate exit entry
      return looped.relocate entry exit
  | .ahead positive c p, l, state, entry =>
    s.step (.ahead positive c p) state do
      let passed ← lookahead { s with watched := false } c (state.layerOffsets entry) positive
      edits s p (l.child 1) ((state.relocate entry entry).restrictLayer entry passed) entry

/-- Carries states through one pattern after the other, as far as there are layouts. -/
def seqEdits (s : Sweep) : List Pattern → List Layout → EditStates → Nat → Run EditStates
  | p :: ps, l :: ls, state, entry => do
    seqEdits s ps ls (← edits s p l state entry) (entry + l.length)
  | _, _, state, _ => return state

/-- Adds to `output` what each of the patterns makes of `state`, moved from the end of the pattern
to `exit`. -/
def altEdits (s : Sweep) :
    List Pattern → List Layout → EditStates → (entry exit : Nat) → EditStates → Run EditStates
  | p :: ps, l :: ls, state, entry, exit, output => do
    let reached ← edits s p l state entry
    altEdits s ps ls state entry exit (output.union (reached.relocate (entry + l.length) exit))
  | _, _, _, _, _, output => return output

end

/-- The states after the whole pattern, with the characters that follow passed over at a cost. -/
def finalStates (s : Sweep) (p : Pattern) (l : Layout) (maxDistance : Nat) : Run EditStates := do
  let reached ← s.edits p l (.seeded s.subject.length l.length maxDistance) 0
  return reached.applyDeletions l.length

end PatternSweep.Sweep
