import PatternSweep.Escape
import PatternSweep.Pattern.Basic
import PatternSweep.SyntaxError

/-!
# Reading patterns

A pattern is read from left to right, one character at a time. A `Reader` holds what is open
around the reading place, what has been read of the innermost expression, and what the next
character continues; `Reader.step` takes one character, `Reader.finish` takes the end of the text,
and `Pattern.parse` is one after the other.

```text
expression := term ('|' term)*
term       := factor+
factor     := atom quantifier?
quantifier := '*' | '+' | '?' | '{' number (',' number?)? '}'
atom       := character | '.' | '[' '^'? item+ ']' | '\' character
            | '(' expression ')' | '(?:' expression ')'
            | '(?=' expression ')' atom | '(?!' expression ')' atom
```

A lookahead takes exactly one atom as its body. A `{` in the place of a quantifier always opens
one; a `}` elsewhere stands for itself. Groups nest at most `nestingLimit` deep, and a lookahead
counts as a group until its body has ended.
-/

namespace PatternSweep

/-- The number of groups that may be open at once. -/
def nestingLimit : Nat := 128

/-- The least number that is too large for a bound: one that takes more than 64 bits. -/
def boundLimit : Nat := 18446744073709551616

/-- What a group is for: for itself, or as the condition of a lookahead. -/
inductive GroupKind
  | plain
  | condition (positive : Bool)
  deriving DecidableEq, Repr

/-- What has been read of an expression, newest first: the branches that have ended and the
factors of the open branch. -/
structure Draft where
  branches : List Pattern
  factors : List Pattern
  deriving DecidableEq, Repr

namespace Draft

/-- Nothing read yet. -/
def empty : Draft := ⟨[], []⟩

/-- One more factor in the open branch. -/
def push (d : Draft) (p : Pattern) : Draft := { d with factors := p :: d.factors }

/-- The open branch, if it has a factor; a single factor stands for itself. -/
def branch? (d : Draft) : Option Pattern :=
  match d.factors with
  | [] => none
  | [p] => some p
  | ps => some (.seq ps.reverse)

/-- The open branch ended and an empty one opened. -/
def nextBranch? (d : Draft) : Option Draft :=
  d.branch?.map fun p => ⟨p :: d.branches, []⟩

/-- The whole expression, if the open branch has a factor; a single branch stands for itself. -/
def expression? (d : Draft) : Option Pattern :=
  d.branch?.map fun p =>
    match d.branches with
    | [] => p
    | ps => .alt (p :: ps).reverse

end Draft

/-- What is open around an expression. -/
inductive Opening
  /-- A group that starts at an offset, within an expression of which `outer` has been read. -/
  | group (start : Nat) (kind : GroupKind) (outer : Draft)
  /-- A lookahead whose body is to follow. -/
  | body (positive : Bool) (condition : Pattern)
  deriving DecidableEq, Repr

/-- A bound that is being read: the offset of its first digit and its value so far. -/
structure Bound where
  start : Nat
  value : Nat
  deriving DecidableEq, Repr

/-- The part of a bounded quantifier that is being read. -/
inductive BoundsPart
  /-- The least count, of which `number` has been read. -/
  | min (number : Option Bound)
  /-- The greatest count, of which `number` has been read, after the least. -/
  | max (min : Nat) (number : Option Bound)
  deriving DecidableEq, Repr

/-- What has been read of a bracket expression, newest member first. -/
structure Brackets where
  start : Nat
  negated : Bool
  items : List ClassItem
  deriving DecidableEq, Repr

/-- The place inside a bracket expression; `first` starts at the offset `start` of its member. -/
inductive BracketPart
  /-- Before a member. -/
  | item
  /-- After a backslash that starts a member. -/
  | escape (start : Nat)
  /-- After a character that may start a range. -/
  | single (start : Nat) (first : Char)
  /-- After such a character and a hyphen. -/
  | dash (start : Nat) (first : Char)
  /-- After such a character, a hyphen and a backslash. -/
  | dashEscape (start : Nat) (first : Char)
  deriving DecidableEq, Repr

/-- What the next character continues. -/
inductive Mode
  /-- A factor may start here. -/
  | factor
  /-- An atom has ended, and a quantifier may follow. -/
  | quantifier (p : Pattern)
  /-- After the parenthesis that opens a group. -/
  | groupStart (start : Nat)
  /-- After an opening parenthesis and a question mark. -/
  | groupKind (start : Nat)
  /-- After a backslash. -/
  | escape (start : Nat)
  /-- Inside a bounded quantifier of `p`. -/
  | bounds (start : Nat) (p : Pattern) (part : BoundsPart)
  /-- After the bracket that opens a class. -/
  | bracketStart (start : Nat)
  /-- Inside a bracket expression. -/
  | brackets (k : Brackets) (part : BracketPart)
  deriving DecidableEq, Repr

/-- The state of reading after some characters of a pattern. -/
structure Reader where
  /-- The number of characters read. -/
  offset : Nat
  /-- What is open around the expression, innermost first. -/
  stack : List Opening
  /-- What has been read of the innermost expression. -/
  draft : Draft
  mode : Mode
  deriving DecidableEq, Repr

namespace Reader

/-- Before the first character. -/
def start : Reader := ⟨0, [], .empty, .factor⟩

/-- A fault at the reading place. -/
def fail {α : Type} (r : Reader) (fault : Fault) : Except SyntaxError α := .error ⟨fault, r.offset⟩

/-- One character taken, after which `mode` goes on. -/
def enter (r : Reader) (mode : Mode) : Reader := { r with offset := r.offset + 1, mode := mode }

/-- A pattern that ends the body of every lookahead that waits for one. -/
def settle : List Opening → Pattern → List Opening × Pattern
  | .body positive c :: stack, p => settle stack (.ahead positive c p)
  | stack, p => (stack, p)

/-- The next character ends the atom `p`. -/
def endAtom (r : Reader) (p : Pattern) : Reader :=
  { r.enter (.quantifier (settle r.stack p).2) with stack := (settle r.stack p).1 }

/-- The next character ends the factor `p`. -/
def endFactor (r : Reader) (p : Pattern) : Reader :=
  { r.enter .factor with draft := r.draft.push p }

/-- Whether a lookahead waits for its body. -/
def awaitsBody (r : Reader) : Bool :=
  match r.stack with
  | .body _ _ :: _ => true
  | _ => false

/-- The group that starts at `start` opened around an empty expression. -/
def openGroup (r : Reader) (start : Nat) (kind : GroupKind) : Reader :=
  { r with stack := .group start kind r.draft :: r.stack, draft := .empty, mode := .factor }

/-- The next character closes the innermost group around `p`. -/
def closeGroup (r : Reader) (p : Pattern) : Except SyntaxError Reader :=
  match r.stack with
  | .group _ .plain outer :: stack => .ok ({ r with stack := stack, draft := outer }.endAtom p)
  | .group _ (.condition positive) outer :: stack =>
    .ok { r.enter .factor with stack := .body positive p :: stack, draft := outer }
  | _ => r.fail .unbalancedParenthesis

/-- A character where a factor may start. -/
def factorStep (r : Reader) (c : Char) : Except SyntaxError Reader :=
  match c with
  | '(' =>
    if nestingLimit ≤ r.stack.length then r.fail (.nestingTooDeep nestingLimit)
    else .ok (r.enter (.groupStart r.offset))
  | '[' => .ok (r.enter (.bracketStart r.offset))
  | '\\' => .ok (r.enter (.escape r.offset))
  | '.' => .ok (r.endAtom (.atom .any))
  | '*' | '+' | '?' | '{' => r.fail (.nothingToRepeat c)
  | ']' => r.fail (.unexpectedChar c)
  | '|' =>
    if r.awaitsBody then r.fail (.unexpectedChar c)
    else match r.draft.nextBranch? with
      | none => r.fail .emptyAlternative
      | some draft => .ok { r.enter .factor with draft := draft }
  | ')' =>
    if r.awaitsBody then r.fail (.unexpectedChar c)
    else match r.draft.expression? with
      | none => r.fail .emptyAlternative
      | some p => r.closeGroup p
  | c => .ok (r.endAtom (.lit c))

/-- A character after the atom `p`. -/
def quantifierStep (r : Reader) (p : Pattern) (c : Char) : Except SyntaxError Reader :=
  match c with
  | '*' => .ok (r.endFactor (.repeated p 0 none))
  | '+' => .ok (r.endFactor (.repeated p 1 none))
  | '?' => .ok (r.endFactor (.repeated p 0 (some 1)))
  | '{' => .ok (r.enter (.bounds r.offset p (.min none)))
  | c => { r with draft := r.draft.push p, mode := .factor }.factorStep c

/-- A character after an opening parenthesis and a question mark. -/
def groupKindStep (r : Reader) (start : Nat) (c : Char) : Except SyntaxError Reader :=
  match c with
  | ':' => .ok ((r.enter .factor).openGroup start .plain)
  | '=' => .ok ((r.enter .factor).openGroup start (.condition true))
  | '!' => .ok ((r.enter .factor).openGroup start (.condition false))
  | c => r.fail (.unsupportedGroup c)

/-- The atom that a backslash and `c` stand for. -/
def escaped (c : Char) : Pattern :=
  match Shorthand.ofLetter? c with
  | some s => .atom (.oneOf (.ofShorthand s))
  | none => .lit (Escape.meaning c)

/-- One more digit of a bound. -/
def digitStep (r : Reader) (number : Option Bound) (c : Char) : Except SyntaxError Bound :=
  let b := number.getD ⟨r.offset, 0⟩
  let value := 10 * b.value + (c.toNat - '0'.toNat)
  if value < boundLimit then .ok { b with value := value }
  else .error ⟨.numberTooLarge, b.start⟩

/-- The bounded quantifier that starts at `start` ends with the next character. -/
def endBounds (r : Reader) (start : Nat) (p : Pattern) (min : Nat) (max : Option Nat) :
    Except SyntaxError Reader :=
  match max with
  | some m =>
    if min ≤ m then .ok (r.endFactor (.repeated p min max))
    else .error ⟨.invalidQuantifier min m, start⟩
  | none => .ok (r.endFactor (.repeated p min max))

/-- A character inside a bounded quantifier. -/
def boundsStep (r : Reader) (start : Nat) (p : Pattern) (part : BoundsPart) (c : Char) :
    Except SyntaxError Reader :=
  match part with
  | .min number =>
    if c.isDigit then do
      return r.enter (.bounds start p (.min (some (← r.digitStep number c))))
    else match number with
      | none => r.fail .expectedNumber
      | some b =>
        if c = ',' then .ok (r.enter (.bounds start p (.max b.value none)))
        else if c = '}' then r.endBounds start p b.value (some b.value)
        else r.fail (.unexpectedChar c)
  | .max min number =>
    if c.isDigit then do
      return r.enter (.bounds start p (.max min (some (← r.digitStep number c))))
    else match number with
      | none => if c = '}' then r.endBounds start p min none else r.fail .expectedNumber
      | some b =>
        if c = '}' then r.endBounds start p min (some b.value) else r.fail (.unexpectedChar c)

/-- The next character ends the class `k`. -/
def endBrackets (r : Reader) (k : Brackets) : Except SyntaxError Reader :=
  if k.items.isEmpty then .error ⟨.emptyClass, k.start⟩
  else .ok (r.endAtom (.atom (.oneOf ⟨k.items.reverse, k.negated⟩)))

/-- The class with one more member. -/
def addItem (k : Brackets) (i : ClassItem) : Brackets := { k with items := i :: k.items }

/-- A character where a member of a class may start. -/
def itemStep (r : Reader) (k : Brackets) (c : Char) : Except SyntaxError Reader :=
  if c = ']' then r.endBrackets k
  else if c = '\\' then .ok (r.enter (.brackets k (.escape r.offset)))
  else .ok (r.enter (.brackets k (.single r.offset c)))

/-- The next character ends the range from `first` to `last`, which starts at `start`. -/
def endRange (r : Reader) (k : Brackets) (start : Nat) (first last : Char) :
    Except SyntaxError Reader :=
  if first ≤ last then .ok (r.enter (.brackets (addItem k (.range first last)) .item))
  else .error ⟨.invalidRange first last, start⟩

/-- A character inside a bracket expression. -/
def bracketStep (r : Reader) (k : Brackets) (part : BracketPart) (c : Char) :
    Except SyntaxError Reader :=
  match part with
  | .item => r.itemStep k c
  | .escape start =>
    match Shorthand.ofLetter? c with
    | some s => .ok (r.enter (.brackets (addItem k (.shorthand s)) .item))
    | none => .ok (r.enter (.brackets k (.single start (Escape.meaning c))))
  | .single start first =>
    if c = '-' then .ok (r.enter (.brackets k (.dash start first)))
    else r.itemStep (addItem k (.char first)) c
  | .dash start first =>
    if c = ']' then r.endBrackets (addItem (addItem k (.char first)) (.char '-'))
    else if c = '\\' then .ok (r.enter (.brackets k (.dashEscape start first)))
    else r.endRange k start first c
  | .dashEscape start first =>
    match Shorthand.ofLetter? c with
    | some s => r.fail (.unexpectedChar s.letter)
    | none => r.endRange k start first (Escape.meaning c)

/-- One character. -/
def step (r : Reader) (c : Char) : Except SyntaxError Reader :=
  match r.mode with
  | .factor => r.factorStep c
  | .quantifier p => r.quantifierStep p c
  | .groupStart start =>
    if c = '?' then .ok (r.enter (.groupKind start)) else (r.openGroup start .plain).factorStep c
  | .groupKind start => r.groupKindStep start c
  | .escape _ => .ok (r.endAtom (escaped c))
  | .bounds start p part => r.boundsStep start p part c
  | .bracketStart start =>
    if c = '^' then .ok (r.enter (.brackets ⟨start, true, []⟩ .item))
    else r.itemStep ⟨start, false, []⟩ c
  | .brackets k part => r.bracketStep k part c

/-- The end of the text where a factor may start. -/
def finishFactor (r : Reader) : Except SyntaxError Pattern :=
  if r.awaitsBody then r.fail .unexpectedEnd
  else match r.draft.expression?, r.stack with
    | none, _ => r.fail .emptyAlternative
    | some _, .group start _ _ :: _ => .error ⟨.unclosedGroup, start⟩
    | some p, _ => .ok p

/-- The end of the text. -/
def finish (r : Reader) : Except SyntaxError Pattern :=
  match r.mode with
  | .factor => r.finishFactor
  | .quantifier p => { r with draft := r.draft.push p }.finishFactor
  | .groupStart _ => r.fail .emptyAlternative
  | .groupKind _ => r.fail .unexpectedEnd
  | .escape start => .error ⟨.danglingEscape, start⟩
  | .bounds _ _ _ => r.fail .unexpectedEnd
  | .bracketStart start => .error ⟨.unterminatedClass, start⟩
  | .brackets k _ => .error ⟨.unterminatedClass, k.start⟩

end Reader

/-- The pattern that a list of characters denotes. -/
def Pattern.parseChars (cs : List Char) : Except SyntaxError Pattern :=
  if cs.isEmpty then .error ⟨.emptyPattern, 0⟩
  else do (← cs.foldlM Reader.step Reader.start).finish

/-- The pattern that a text denotes. -/
def Pattern.parse (written : String) : Except SyntaxError Pattern := parseChars written.toList

end PatternSweep
