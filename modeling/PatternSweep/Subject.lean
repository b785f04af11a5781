import PatternSweep.Occurrences
import PatternSweep.Pattern.Basic

/-!
# The text that is matched

A `Subject` is a text, with or without the offsets of some of its characters worked out before.
-/

namespace PatternSweep

/-- A text to be matched. -/
structure Subject where
  chars : Array Char
  /-- The offsets of the characters of an alphabet, if they are known. -/
  occurrences : Option Occurrences

namespace Subject

/-- A text of which nothing is known before. -/
def plain (text : List Char) : Subject := ⟨text.toArray, none⟩

/-- The text of `o`, with the offsets that `o` knows. -/
def indexed (o : Occurrences) : Subject := ⟨o.text.toArray, some o⟩

/-- The number of characters. -/
def length (s : Subject) : Nat := s.chars.size

/-- Whether the atom `a` takes the character at an offset; there is none at the end. -/
def takes (s : Subject) (a : Atom) (p : Nat) : Bool := s.chars[p]?.any a.accepts

/-- Every offset, the end of the text included. -/
def allOffsets (s : Subject) : OffsetSet := .full (s.length + 1)

end Subject
end PatternSweep
