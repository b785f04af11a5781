import PatternSweep.Escape
import PatternSweep.Pattern.Basic
import PatternSweep.Text.Quoted

/-!
# Patterns in writing

`Pattern.render` writes a pattern in the syntax in which patterns are read; parentheses stand only
where a part would otherwise be taken apart: around a sequence or an alternation inside a sequence,
around an alternation inside an alternation, and around every repeated element or lookahead body
that is not a single atom or a lookahead. `Pattern.label` names the root of a pattern.
-/

namespace PatternSweep

/-- The characters that a backslash makes stand for themselves outside brackets. -/
def Pattern.metacharacters : List Char :=
  ['\\', '|', '(', ')', '[', ']', '{', '}', '*', '+', '?', '.']

/-- The characters that a backslash makes stand for themselves inside brackets. -/
def CharClass.metacharacters : List Char := ['\\', ']', '[', '^', '-']

/-- A shorthand as a backslash and its letter. -/
def Shorthand.chars (s : Shorthand) : List Char := ['\\', s.letter]

/-- A member of a bracket expression as it is written inside the brackets. -/
def ClassItem.chars : ClassItem → List Char
  | char c => Escape.written CharClass.metacharacters c
  | range first last =>
    Escape.written CharClass.metacharacters first ++
      '-' :: Escape.written CharClass.metacharacters last
  | shorthand s => s.chars

/-- A class in writing: one plain shorthand stands without brackets. -/
def CharClass.chars (k : CharClass) : List Char :=
  match k.asShorthand? with
  | some s => s.chars
  | none =>
    '[' :: (if k.negated then ['^'] else []) ++ k.items.flatMap ClassItem.chars ++ [']']

/-- A class in writing. -/
def CharClass.render (k : CharClass) : String := String.ofList k.chars

/-- An atom in writing. -/
def Atom.chars : Atom → List Char
  | literal c => Escape.written Pattern.metacharacters c
  | any => ['.']
  | oneOf k => k.chars

/-- `cs`, in parentheses if `yes`. -/
def parenthesized (yes : Bool) (cs : List Char) : List Char :=
  if yes then '(' :: cs ++ [')'] else cs

/-- The quantifier for the counts from `min` to `max`. -/
def quantifierChars (min : Nat) (max : Option Nat) : List Char :=
  match min, max with
  | 0, none => ['*']
  | 1, none => ['+']
  | 0, some 1 => ['?']
  | n, none => '{' :: Nat.toDigits 10 n ++ [',', '}']
  | n, some m =>
    if n = m then '{' :: Nat.toDigits 10 n ++ ['}']
    else '{' :: Nat.toDigits 10 n ++ ',' :: Nat.toDigits 10 m ++ ['}']

namespace Pattern

/-- Whether the pattern is an alternation. -/
def isAlt : Pattern → Bool
  | .alt _ => true
  | _ => false

/-- Whether the pattern is a sequence or an alternation. -/
def isLoose : Pattern → Bool
  | .seq _ | .alt _ => true
  | _ => false

/-- Whether the pattern needs parentheses as a repeated element or as the body of a lookahead. -/
def needsGroup : Pattern → Bool
  | .atom _ | .ahead _ _ _ => false
  | _ => true

mutual

/-- A pattern in writing. -/
def chars : Pattern → List Char
  | .atom a => a.chars
  | .seq ps => seqChars ps
  | .alt ps => altChars ps
  | .repeated e min max => parenthesized e.needsGroup (chars e) ++ quantifierChars min max
  | .ahead positive c p =>
    ['(', '?', if positive then '=' else '!'] ++ chars c ++
      ')' :: parenthesized p.needsGroup (chars p)

/-- The parts of a sequence one after the other. -/
def seqChars : List Pattern → List Char
  | [] => []
  | p :: ps => parenthesized p.isLoose (chars p) ++ seqChars ps

/-- The branches of an alternation with bars between them. -/
def altChars : List Pattern → List Char
  | [] => []
  | p :: ps => parenthesized p.isAlt (chars p) ++ moreAltChars ps

/-- Further branches of an alternation, each after a bar. -/
def moreAltChars : List Pattern → List Char
  | [] => []
  | p :: ps => '|' :: parenthesized p.isAlt (chars p) ++ moreAltChars ps

end

/-- A pattern in writing. -/
def render (p : Pattern) : String := String.ofList p.chars

/-- The kind of the root, with what it says besides its parts. -/
def label : Pattern → String
  | .atom (.literal c) => "Literal(" ++ Text.quotedChar c ++ ")"
  | .atom .any => "AnyChar"
  | .atom (.oneOf k) => "CharacterClass(" ++ k.render ++ ")"
  | .seq _ => "Concat"
  | .alt ps => "Alternation(" ++ toString ps.length ++ ")"
  | .repeated _ min none => "Repeat\x7b" ++ toString min ++ ",\x7d"
  | .repeated _ min (some max) => "Repeat\x7b" ++ toString min ++ "," ++ toString max ++ "\x7d"
  | .ahead true _ _ => "PositiveLookahead"
  | .ahead false _ _ => "NegativeLookahead"

end Pattern
end PatternSweep
