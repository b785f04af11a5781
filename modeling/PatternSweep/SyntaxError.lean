import PatternSweep.Text.Quoted

/-!
# Errors in written patterns

A `SyntaxError` is a `Fault` and the offset, counted in characters of the written pattern, at which
it is reported. `Fault.message` and `SyntaxError.message` give the wording; `pointer` shows the
pattern with a caret under the offset.
-/

namespace PatternSweep

/-- What is wrong with a written pattern. -/
inductive Fault
  /-- A character that cannot stand where it does. -/
  | unexpectedChar (c : Char)
  /-- The pattern ends inside a construct. -/
  | unexpectedEnd
  | emptyPattern
  /-- A branch without a factor. -/
  | emptyAlternative
  /-- A group without its closing parenthesis. -/
  | unclosedGroup
  /-- A closing parenthesis without its group. -/
  | unbalancedParenthesis
  /-- A group whose question mark is followed by a character that names no kind of group. -/
  | unsupportedGroup (c : Char)
  | unterminatedClass
  | emptyClass
  /-- A range that ends before it starts. -/
  | invalidRange (first last : Char)
  /-- Something other than a digit where a bound has to be. -/
  | expectedNumber
  /-- A least count above the greatest. -/
  | invalidQuantifier (min max : Nat)
  /-- A bound that is no 64-bit number. -/
  | numberTooLarge
  /-- A backslash at the end. -/
  | danglingEscape
  /-- A quantifier without an atom before it. -/
  | nothingToRepeat (c : Char)
  | nestingTooDeep (limit : Nat)
  deriving DecidableEq, Repr

/-- The wording of a fault. -/
def Fault.message : Fault → String
  | unexpectedChar c => "unexpected character " ++ Text.quotedChar c
  | unexpectedEnd => "unexpected end of pattern"
  | emptyPattern => "empty pattern"
  | emptyAlternative => "empty alternative"
  | unclosedGroup => "unclosed group"
  | unbalancedParenthesis => "unbalanced parenthesis"
  | unsupportedGroup c => "unsupported group syntax (?" ++ String.singleton c
  | unterminatedClass => "unterminated character class"
  | emptyClass => "empty character class"
  | invalidRange first last =>
    "invalid class range " ++ Text.quotedChar first ++ "-" ++ Text.quotedChar last
  | expectedNumber => "expected a number"
  | invalidQuantifier min max =>
    "invalid quantifier \x7b" ++ toString min ++ "," ++ toString max ++ "\x7d: min exceeds max"
  | numberTooLarge => "repetition bound too large"
  | danglingEscape => "dangling escape at end of pattern"
  | nothingToRepeat c => "quantifier " ++ Text.quotedChar c ++ " has nothing to repeat"
  | nestingTooDeep limit => "groups nested deeper than " ++ toString limit

/-- A fault and where it is reported. -/
structure SyntaxError where
  fault : Fault
  /-- The number of characters before the place. -/
  offset : Nat
  deriving DecidableEq, Repr

namespace SyntaxError

/-- The wording of an error. -/
def message (e : SyntaxError) : String := e.fault.message ++ " at offset " ++ toString e.offset

/-- The error, the pattern below it, and a caret under the offset. -/
def pointer (e : SyntaxError) (written : String) : String :=
  e.message ++ "\n" ++ written ++ "\n" ++ String.ofList (List.replicate e.offset ' ') ++ "^"

end SyntaxError
end PatternSweep
