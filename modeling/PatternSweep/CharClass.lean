/-!
# Character classes

A `Shorthand` is one of the classes `\d`, `\s`, `\w` or the complement of one; all three hold
ASCII characters only, so every other character is in the complements. A `CharClass` is a bracket
expression: characters, ranges and shorthands, with the complement taken if it is negated.
-/

namespace PatternSweep

/-- The class of a backslash letter: decimal digits, blanks, word characters, or a complement. -/
inductive Shorthand
  | digit
  | nonDigit
  | space
  | nonSpace
  | word
  | nonWord
  deriving DecidableEq, Repr

namespace Shorthand

/-- The digits `0` to `9`. -/
def isDigit (c : Char) : Bool := '0' ≤ c && c ≤ '9'

/-- Space, tab, line feed, carriage return, form feed and vertical tab. -/
def isSpace (c : Char) : Bool :=
  c = ' ' || c = '\t' || c = '\n' || c = '\r' || c = '\x0c' || c = '\x0b'

/-- ASCII letters, digits and the underscore. -/
def isWord (c : Char) : Bool :=
  isDigit c || ('a' ≤ c && c ≤ 'z') || ('A' ≤ c && c ≤ 'Z') || c = '_'

/-- The letter that stands for the class after a backslash. -/
def letter : Shorthand → Char
  | digit => 'd'
  | nonDigit => 'D'
  | space => 's'
  | nonSpace => 'S'
  | word => 'w'
  | nonWord => 'W'

/-- The class that a letter stands for after a backslash. -/
def ofLetter? : Char → Option Shorthand
  | 'd' => some digit
  | 'D' => some nonDigit
  | 's' => some space
  | 'S' => some nonSpace
  | 'w' => some word
  | 'W' => some nonWord
  | _ => none

/-- Whether a character is in the class. -/
def accepts : Shorthand → Char → Bool
  | digit, c => isDigit c
  | nonDigit, c => !isDigit c
  | space, c => isSpace c
  | nonSpace, c => !isSpace c
  | word, c => isWord c
  | nonWord, c => !isWord c

theorem ofLetter?_eq_some_iff {c : Char} {s : Shorthand} : ofLetter? c = some s ↔ c = s.letter := by
  constructor
  · intro h
    unfold ofLetter? at h
    split at h <;> cases h <;> rfl
  · rintro rfl
    cases s <;> rfl

end Shorthand

/-- One member of a bracket expression. -/
inductive ClassItem
  | char (c : Char)
  | range (first last : Char)
  | shorthand (s : Shorthand)
  deriving DecidableEq, Repr

/-- Whether a character is covered; a range whose ends are reversed covers none. -/
def ClassItem.accepts : ClassItem → Char → Bool
  | char d, c => c = d
  | range first last, c => first ≤ c && c ≤ last
  | shorthand s, c => s.accepts c

/-- A bracket expression. -/
structure CharClass where
  /-- The members, in the order they are written. -/
  items : List ClassItem
  /-- Whether the class holds the characters that no member covers. -/
  negated : Bool
  deriving DecidableEq, Repr

namespace CharClass

/-- The class of one shorthand. -/
def ofShorthand (s : Shorthand) : CharClass := ⟨[.shorthand s], false⟩

/-- Whether a character is in the class. -/
def accepts (k : CharClass) (c : Char) : Bool := k.items.any (·.accepts c) != k.negated

/-- The shorthand that the class consists of, if it is exactly one and not negated. -/
def asShorthand? : CharClass → Option Shorthand
  | ⟨[.shorthand s], false⟩ => some s
  | _ => none

end CharClass
end PatternSweep
