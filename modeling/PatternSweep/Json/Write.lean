import PatternSweep.Json.Basic

/-!
# Writing JSON

`Json.compact` writes a value without blanks, `Json.pretty` on lines of their own with two blanks
for each level. In a text only the quote, the backslash and the control characters below the space
are escaped, those with a letter of their own by it and the others by four hexadecimal digits.
-/

namespace PatternSweep.Json

/-- The form of a character inside a text. -/
def textChar (c : Char) : List Char :=
  if c = '"' then ['\\', '"']
  else if c = '\\' then ['\\', '\\']
  else if c = '\n' then ['\\', 'n']
  else if c = '\r' then ['\\', 'r']
  else if c = '\t' then ['\\', 't']
  else if c = '\x08' then ['\\', 'b']
  else if c = '\x0c' then ['\\', 'f']
  else if c.toNat < 0x20 then
    ['\\', 'u', '0', '0', Nat.digitChar (c.toNat / 16), Nat.digitChar (c.toNat % 16)]
  else [c]

/-- A text between quotes. -/
def textChars (s : String) : List Char := '"' :: s.toList.flatMap textChar ++ ['"']

mutual

/-- A value without blanks. -/
def compactChars : Json → List Char
  | .null | .other => ['n', 'u', 'l', 'l']
  | .bool true => ['t', 'r', 'u', 'e']
  | .bool false => ['f', 'a', 'l', 's', 'e']
  | .nat n => Nat.toDigits 10 n
  | .str s => textChars s
  | .arr [] => ['[', ']']
  | .arr (j :: js) => '[' :: compactChars j ++ compactItems js ++ [']']
  | .obj [] => ['{', '}']
  | .obj ((k, j) :: ms) =>
    '{' :: textChars k ++ ':' :: compactChars j ++ compactMembers ms ++ ['}']

/-- Further items of an array, each after a comma. -/
def compactItems : List Json → List Char
  | [] => []
  | j :: js => ',' :: compactChars j ++ compactItems js

/-- Further members of an object, each after a comma. -/
def compactMembers : List (String × Json) → List Char
  | [] => []
  | (k, j) :: ms => ',' :: textChars k ++ ':' :: compactChars j ++ compactMembers ms

end

/-- A value without blanks. -/
def compact (j : Json) : String := String.ofList (compactChars j)

/-- A new line that starts at a level. -/
def newLine (level : Nat) : List Char := '\n' :: List.replicate (2 * level) ' '

mutual

/-- A value on lines of its own, the first of which starts elsewhere. -/
def prettyChars (level : Nat) : Json → List Char
  | .arr [] => ['[', ']']
  | .arr (j :: js) =>
    '[' :: newLine (level + 1) ++ prettyChars (level + 1) j ++ prettyItems (level + 1) js ++
      newLine level ++ [']']
  | .obj [] => ['{', '}']
  | .obj ((k, j) :: ms) =>
    '{' :: newLine (level + 1) ++ textChars k ++ ':' :: ' ' :: prettyChars (level + 1) j ++
      prettyMembers (level + 1) ms ++ newLine level ++ ['}']
  | .null => compactChars .null
  | .bool b => compactChars (.bool b)
  | .nat n => compactChars (.nat n)
  | .other => compactChars .other
  | .str s => compactChars (.str s)

/-- Further items of an array, each after a comma and on a new line. -/
def prettyItems (level : Nat) : List Json → List Char
  | [] => []
  | j :: js => ',' :: newLine level ++ prettyChars level j ++ prettyItems level js

/-- Further members of an object, each after a comma and on a new line. -/
def prettyMembers (level : Nat) : List (String × Json) → List Char
  | [] => []
  | (k, j) :: ms =>
    ',' :: newLine level ++ textChars k ++ ':' :: ' ' :: prettyChars level j ++
      prettyMembers level ms

end

/-- A value on lines of its own. -/
def pretty (j : Json) : String := String.ofList (prettyChars 0 j)

end PatternSweep.Json
