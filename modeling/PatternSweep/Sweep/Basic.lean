import PatternSweep.Event
import PatternSweep.Repetition
import PatternSweep.Subject

/-!
# Sweeps over a text

A sweep carries a set of offsets through a pattern over one text. While it runs it keeps a
`Workspace`: the masks of atoms, worked out once for each, and the events, if it is watched.
This module holds what the sweeps over offsets, spans and edit states share.
-/

namespace PatternSweep

/-- What a sweep has worked out and recorded. -/
structure Workspace where
  /-- The masks asked for so far of atoms that are not single characters. -/
  masks : List (Atom × Option OffsetSet)
  /-- The events in their order. -/
  events : Array Event

/-- Nothing worked out and nothing recorded. -/
def Workspace.empty : Workspace := ⟨[], #[]⟩

/-- A computation during a sweep. -/
abbrev Run := StateM Workspace

/-- What a sweep is over, and whether its events are recorded. -/
structure Sweep where
  subject : Subject
  watched : Bool

namespace Sweep

/-- The mask of a class of characters, from the workspace if it is there. -/
def classMask (a : Atom) (o : Occurrences) : Run (Option OffsetSet) := do
  match (← get).masks.lookup a with
  | some mask => return mask
  | none =>
    let mask := o.offsetsSuchThat a.accepts
    modify fun w => { w with masks := (a, mask) :: w.masks }
    return mask

/-- The offsets of the characters that an atom takes, if they can be had without going through the
text. -/
def atomMask (s : Sweep) (a : Atom) : Run (Option OffsetSet) :=
  match s.subject.occurrences, a with
  | none, _ => return none
  | some o, .literal c => return o.offsetsOf c
  | some o, a => classMask a o

/-- The offsets of a set whose character an atom takes. -/
def hits (s : Sweep) (a : Atom) (input : OffsetSet) : Run OffsetSet := do
  match ← s.atomMask a with
  | some mask => return input.inter mask
  | none => return input.filter (s.subject.takes a)

/-- Records an event if the sweep is watched. -/
def record (s : Sweep) (node : Pattern) (action : Unit → Action) : Run Unit :=
  if s.watched then modify fun w => { w with events := w.events.push ⟨node, action ()⟩ }
  else return

variable {σ : Type} [Recordable σ]

/-- The application of a node to a set, recorded when it is done. -/
def step (s : Sweep) (node : Pattern) (input : σ) (apply : Run σ) : Run σ := do
  let output ← apply
  s.record node fun _ => .step (Recordable.members input) (Recordable.members output)
  return output

/-- The sets that a repetition of `element` reaches, every round being recorded. -/
def repetition [JoinSet σ] [DecidableEq σ] (s : Sweep) (node : Pattern) (input : σ) (min : Nat)
    (max : Option Nat) (ceiling : Nat) (element : σ → Run σ) : Run σ := do
  let r ← Repetition.run input min max ceiling fun set number => do
    let next ← element set
    s.record node fun _ => .round number (Recordable.members (Repetition.view set next number min))
    return next
  return r.reached

end Sweep
end PatternSweep
