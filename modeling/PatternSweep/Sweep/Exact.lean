import PatternSweep.Sweep.Basic

/-!
# Exact sweeps

`Sweep.offsets` takes a set of offsets through a pattern: the result holds the offsets at which a
match ends that starts at an offset of the set. `Sweep.spans` does the same for spans, whose
starts it carries along: the span `(s, i)` becomes all `(s, j)` such that a match goes from `i` to
`j`. A lookahead is decided on spans, for its condition has to match from the start of the body.
-/

namespace PatternSweep.Sweep

/-- The spans made longer by a character that the atom takes. -/
def atomSpans (s : Sweep) (a : Atom) (input : SpanSet) : Run SpanSet := do
  match ← s.atomMask a with
  | some mask => return input.advance mask.contains
  | none => return input.advance (s.subject.takes a)

/-- The offsets of `entries` from which something, or if not `positive` nothing, was matched. -/
def allowed (positive : Bool) (entries : OffsetSet) (matched : SpanSet) : OffsetSet :=
  if positive then matched.starts else entries.diff matched.starts

mutual

/-- Carries spans through a pattern. -/
def spans (s : Sweep) : Pattern → SpanSet → Run SpanSet
  | .atom a, input => s.step (.atom a) input (s.atomSpans a input)
  | .seq ps, input => s.step (.seq ps) input (seqSpans s ps input)
  | .alt ps, input => s.step (.alt ps) input (altSpans s ps input (.empty input.size))
  | .repeated e min max, input =>
    s.step (.repeated e min max) input <|
      s.repetition (.repeated e min max) input min max (s.subject.length + 2) (spans s e)
  | .ahead positive c p, input =>
    s.step (.ahead positive c p) input do
      let matched ← spans s c (.lift input.ends)
      spans s p (input.keepEnds (allowed positive input.ends matched))

/-- Carries spans through one pattern after the other. -/
def seqSpans (s : Sweep) : List Pattern → SpanSet → Run SpanSet
  | [], input => return input
  | p :: ps, input => do seqSpans s ps (← spans s p input)

/-- Adds to `output` what each of the patterns makes of `input`. -/
def altSpans (s : Sweep) : List Pattern → SpanSet → SpanSet → Run SpanSet
  | [], _, output => return output
  | p :: ps, input, output => do altSpans s ps input (output.union (← spans s p input))

end

/-- The offsets of `entries` from which the condition matches, or if not `positive` does not. -/
def lookahead (s : Sweep) (condition : Pattern) (entries : OffsetSet) (positive : Bool) :
    Run OffsetSet := do
  return allowed positive entries (← s.spans condition (.lift entries))

mutual

/-- Carries offsets through a pattern. -/
def offsets (s : Sweep) : Pattern → OffsetSet → Run OffsetSet
  | .atom a, input => s.step (.atom a) input do return (← s.hits a input).shifted
  | .seq ps, input => s.step (.seq ps) input (seqOffsets s ps input)
  | .alt ps, input => s.step (.alt ps) input (altOffsets s ps input (.empty input.size))
  | .repeated e min max, input =>
    s.step (.repeated e min max) input <|
      s.repetition (.repeated e min max) input min max (s.subject.length + 2) (offsets s e)
  | .ahead positive c p, input =>
    s.step (.ahead positive c p) input do
      let matched ← spans s c (.lift input)
      let body ← spans s p (.lift input)
      return (if positive then body.whereStarts matched else body.whereNotStarts matched).ends

/-- Carries offsets through one pattern after the other. -/
def seqOffsets (s : Sweep) : List Pattern → OffsetSet → Run OffsetSet
  | [], input => return input
  | p :: ps, input => do seqOffsets s ps (← offsets s p input)

/-- Adds to `output` what each of the patterns makes of `input`. -/
def altOffsets (s : Sweep) : List Pattern → OffsetSet → OffsetSet → Run OffsetSet
  | [], _, output => return output
  | p :: ps, input, output => do altOffsets s ps input (output.union (← offsets s p input))

end

end PatternSweep.Sweep
