import PatternSweep.Json.Basic

/-!
# Reading JSON

A text is read from left to right, one character at a time. A `Scan` holds the arrays and objects
that are open and what the next character continues; `Scan.step` takes one character,
`Scan.finish` the end of the text, and `Json.parse` is one after the other. A text is refused
unless it is exactly one value with blanks around its parts.
-/

namespace PatternSweep.Json

/-- A text that is being read. -/
structure TextDraft where
  /-- The characters read, newest first. -/
  chars : List Char
  /-- A high surrogate whose low one is to follow at once. -/
  high : Option Nat
  /-- Whether no surrogate has been left without its partner. -/
  sound : Bool

namespace TextDraft

/-- Nothing read yet. -/
def empty : TextDraft := ⟨[], none, true⟩

/-- The text with a character added; a high surrogate before it is left alone. -/
def push (t : TextDraft) (c : Char) : TextDraft := ⟨c :: t.chars, none, t.sound && t.high.isNone⟩

/-- The text with a code unit of UTF-16 added. -/
def pushUnit (t : TextDraft) (u : Nat) : TextDraft :=
  if 0xd800 ≤ u ∧ u < 0xdc00 then ⟨t.chars, some u, t.sound && t.high.isNone⟩
  else if 0xdc00 ≤ u ∧ u < 0xe000 then
    match t.high with
    | some h =>
      ⟨Char.ofNat (0x10000 + (h - 0xd800) * 0x400 + (u - 0xdc00)) :: t.chars, none, t.sound⟩
    | none => ⟨t.chars, none, false⟩
  else t.push (Char.ofNat u)

/-- The text, if every surrogate has its partner. -/
def text? (t : TextDraft) : Option String :=
  if t.sound && t.high.isNone then some (String.ofList t.chars.reverse) else none

end TextDraft

/-- The place inside a text. -/
inductive TextPart
  | plain
  /-- After a backslash. -/
  | escape
  /-- After `\u` and some of its four digits: how many are missing and the value of the rest. -/
  | hex (missing : Nat) (value : Nat)

/-- The place inside a number. -/
inductive NumberPart
  /-- After the sign. -/
  | sign
  /-- After a leading zero. -/
  | zero
  | digits
  /-- After the point. -/
  | point
  | fraction
  /-- After the letter of the exponent. -/
  | exponent
  /-- After the sign of the exponent. -/
  | exponentSign
  | exponentDigits

/-- An array or object that is open, newest part first. -/
inductive Container
  | items (done : List Json)
  /-- Between members, newest first; there are none to tell once a key has had no meaning. -/
  | members (done : Option (List (String × Json)))
  /-- At the value of a member. -/
  | member (done : Option (List (String × Json))) (key : Option String)

/-- What the next character continues. -/
inductive Place
  /-- A value is to follow, or, if `closable`, the end of an array. -/
  | value (closable : Bool)
  /-- A key is to follow, or, if `closable`, the end of an object. -/
  | key (closable : Bool)
  /-- The colon after a key is to follow. -/
  | colon (key : Option String)
  /-- A value has ended. -/
  | after (j : Json)
  /-- Inside a word of which `rest` is to follow. -/
  | word (rest : List Char) (j : Json)
  /-- Inside a text, which may be a key. -/
  | text (isKey : Bool) (draft : TextDraft) (part : TextPart)
  /-- Inside a number; `value` is that of its digits before any point. -/
  | number (negative : Bool) (part : NumberPart) (value : Nat)

/-- The state of reading after some characters. -/
structure Scan where
  /-- The open arrays and objects, innermost first. -/
  stack : List Container
  place : Place

/-- Blank, tab, line feed and carriage return. -/
def isBlank (c : Char) : Bool := c = ' ' || c = '\t' || c = '\n' || c = '\r'

/-- The value of a hexadecimal digit. -/
def hexDigit? (c : Char) : Option Nat :=
  if '0' ≤ c ∧ c ≤ '9' then some (c.toNat - '0'.toNat)
  else if 'a' ≤ c ∧ c ≤ 'f' then some (c.toNat - 'a'.toNat + 10)
  else if 'A' ≤ c ∧ c ≤ 'F' then some (c.toNat - 'A'.toNat + 10)
  else none

/-- The character that a letter stands for after a backslash. -/
def escape? : Char → Option Char
  | '"' => some '"'
  | '\\' => some '\\'
  | '/' => some '/'
  | 'b' => some '\x08'
  | 'f' => some '\x0c'
  | 'n' => some '\n'
  | 'r' => some '\r'
  | 't' => some '\t'
  | _ => none

namespace Scan

/-- Before the first character. -/
def start : Scan := ⟨[], .value false⟩

/-- The same open containers, going on at `place`. -/
def goto (s : Scan) (place : Place) : Option Scan := some { s with place := place }

/-- The members of an object with one more. -/
def addMember (done : Option (List (String × Json))) (key : Option String) (j : Json) :
    Option (List (String × Json)) := do
  return (← key, j) :: (← done)

/-- The object that has ended. -/
def endObject : Option (List (String × Json)) → Json
  | some done => .obj done.reverse
  | none => .other

/-- A character after the value `j`. -/
def afterStep (s : Scan) (j : Json) (c : Char) : Option Scan :=
  if isBlank c then s.goto (.after j)
  else match s.stack with
    | .items done :: stack =>
      if c = ',' then some ⟨.items (j :: done) :: stack, .value false⟩
      else if c = ']' then some ⟨stack, .after (.arr (j :: done).reverse)⟩
      else none
    | .member done key :: stack =>
      if c = ',' then some ⟨.members (addMember done key j) :: stack, .key false⟩
      else if c = '}' then some ⟨stack, .after (endObject (addMember done key j))⟩
      else none
    | _ => none

/-- A character where a value may start. -/
def valueStep (s : Scan) (closable : Bool) (c : Char) : Option Scan :=
  if isBlank c then s.goto (.value closable)
  else if c = '[' then some ⟨.items [] :: s.stack, .value true⟩
  else if c = '{' then some ⟨.members (some []) :: s.stack, .key true⟩
  else if c = '"' then s.goto (.text false .empty .plain)
  else if c = '-' then s.goto (.number true .sign 0)
  else if c = '0' then s.goto (.number false .zero 0)
  else if c.isDigit then s.goto (.number false .digits (c.toNat - '0'.toNat))
  else if c = 'n' then s.goto (.word ['u', 'l', 'l'] .null)
  else if c = 't' then s.goto (.word ['r', 'u', 'e'] (.bool true))
  else if c = 'f' then s.goto (.word ['a', 'l', 's', 'e'] (.bool false))
  else if c = ']' && closable then
    match s.stack with
    | .items _ :: stack => some ⟨stack, .after (.arr [])⟩
    | _ => none
  else none

/-- A character where a key may start. -/
def keyStep (s : Scan) (closable : Bool) (c : Char) : Option Scan :=
  if isBlank c then s.goto (.key closable)
  else if c = '"' then s.goto (.text true .empty .plain)
  else if c = '}' && closable then
    match s.stack with
    | .members _ :: stack => some ⟨stack, .after (.obj [])⟩
    | _ => none
  else none

/-- A character after a key. -/
def colonStep (s : Scan) (key : Option String) (c : Char) : Option Scan :=
  if isBlank c then s.goto (.colon key)
  else if c = ':' then
    match s.stack with
    | .members done :: stack => some ⟨.member done key :: stack, .value false⟩
    | _ => none
  else none

/-- A character inside a word. -/
def wordStep (s : Scan) (rest : List Char) (j : Json) (c : Char) : Option Scan :=
  match rest with
  | [] => none
  | [d] => if c = d then s.goto (.after j) else none
  | d :: rest => if c = d then s.goto (.word rest j) else none

/-- The end of a text. -/
def endText (s : Scan) (isKey : Bool) (draft : TextDraft) : Option Scan :=
  if isKey then s.goto (.colon draft.text?)
  else match draft.text? with
    | some text => s.goto (.after (.str text))
    | none => s.goto (.after .other)

/-- A character inside a text. -/
def textStep (s : Scan) (isKey : Bool) (draft : TextDraft) (part : TextPart) (c : Char) :
    Option Scan :=
  match part with
  | .plain =>
    if c = '"' then s.endText isKey draft
    else if c = '\\' then s.goto (.text isKey draft .escape)
    else if c.toNat < 0x20 then none
    else s.goto (.text isKey (draft.push c) .plain)
  | .escape =>
    if c = 'u' then s.goto (.text isKey draft (.hex 3 0))
    else do s.goto (.text isKey (draft.push (← escape? c)) .plain)
  | .hex missing value => do
    let value := 16 * value + (← hexDigit? c)
    match missing with
    | 0 => s.goto (.text isKey (draft.pushUnit value) .plain)
    | m + 1 => s.goto (.text isKey draft (.hex m value))

/-- The value of a number that may end at a place. -/
def number? (negative : Bool) (part : NumberPart) (value : Nat) : Option Json :=
  match part with
  | .zero | .digits => some (if !negative && value < natLimit then .nat value else .other)
  | .fraction | .exponentDigits => some .other
  | _ => none

/-- A character inside a number, or right after it. -/
def numberStep (s : Scan) (negative : Bool) (part : NumberPart) (value : Nat) (c : Char) :
    Option Scan :=
  let continued (part : NumberPart) (value : Nat) := s.goto (.number negative part value)
  let ended := do s.afterStep (← number? negative part value) c
  let digit := c.isDigit
  let exponent := c = 'e' || c = 'E'
  match part with
  | .sign =>
    if c = '0' then continued .zero 0
    else if digit then continued .digits (c.toNat - '0'.toNat)
    else none
  | .zero =>
    if digit then none
    else if c = '.' then continued .point value
    else if exponent then continued .exponent value
    else ended
  | .digits =>
    if digit then continued .digits (10 * value + (c.toNat - '0'.toNat))
    else if c = '.' then continued .point value
    else if exponent then continued .exponent value
    else ended
  | .point => if digit then continued .fraction value else none
  | .fraction =>
    if digit then continued .fraction value
    else if exponent then continued .exponent value
    else ended
  | .exponent =>
    if c = '+' || c = '-' then continued .exponentSign value
    else if digit then continued .exponentDigits value
    else none
  | .exponentSign => if digit then continued .exponentDigits value else none
  | .exponentDigits => if digit then continued .exponentDigits value else ended

/-- One character. -/
def step (s : Scan) (c : Char) : Option Scan :=
  match s.place with
  | .value closable => s.valueStep closable c
  | .key closable => s.keyStep closable c
  | .colon key => s.colonStep key c
  | .after j => s.afterStep j c
  | .word rest j => s.wordStep rest j c
  | .text isKey draft part => s.textStep isKey draft part c
  | .number negative part value => s.numberStep negative part value c

/-- The end of the text. -/
def finish (s : Scan) : Option Json :=
  match s.stack, s.place with
  | [], .after j => some j
  | [], .number negative part value => number? negative part value
  | _, _ => none

end Scan

/-- The value that a list of characters denotes. -/
def parseChars (cs : List Char) : Option Json := do (← cs.foldlM Scan.step Scan.start).finish

/-- The value that a text denotes. -/
def parse (text : String) : Option Json := parseChars text.toList

end PatternSweep.Json
