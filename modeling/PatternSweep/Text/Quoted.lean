import PatternSweep.Text.Hidden

/-!
# Quoted characters and text

Between quotes, the null character, tab, carriage return, line feed, backslash and the quote
itself are written after a backslash; a character that does not show as itself is written by its
code point in lower-case hexadecimal, `\u` and braces; every other character stands for itself.
-/

namespace PatternSweep.Text

/-- The form of a character between two `quote`s. -/
def escaped (quote c : Char) : List Char :=
  if c = '\x00' then ['\\', '0']
  else if c = '\t' then ['\\', 't']
  else if c = '\r' then ['\\', 'r']
  else if c = '\n' then ['\\', 'n']
  else if c = '\\' then ['\\', '\\']
  else if c = quote then ['\\', quote]
  else if isHidden c then ['\\', 'u', '{'] ++ Nat.toDigits 16 c.toNat ++ ['}']
  else [c]

/-- A character between single quotes. -/
def quotedChar (c : Char) : String := String.ofList ('\'' :: escaped '\'' c ++ ['\''])

/-- A text between double quotes. -/
def quotedText (s : String) : String :=
  String.ofList ('"' :: s.toList.flatMap (escaped '"') ++ ['"'])

end PatternSweep.Text
