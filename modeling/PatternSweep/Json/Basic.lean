/-!
# JSON values

The values of JSON as far as the library tells them apart: numbers are natural numbers of 64 bits,
and every other number, like every text with an unpaired surrogate and every object with such a
text for a key, is a value without a meaning here. The members of an object keep the order in which
they are written, repetitions included.
-/

namespace PatternSweep

/-- A JSON value. -/
inductive Json
  | null
  | bool (b : Bool)
  /-- A number without sign, fraction and exponent, below `2 ^ 64`. -/
  | nat (n : Nat)
  /-- Any other number, a text that is no sequence of characters, or an object that has such a text
  for a key. -/
  | other
  | str (s : String)
  | arr (items : List Json)
  | obj (members : List (String × Json))
  deriving Repr

namespace Json

/-- The least number that takes more than 64 bits. -/
def natLimit : Nat := 18446744073709551616

/-- The members of an object under `key`. -/
def named (members : List (String × Json)) (key : String) : List Json :=
  members.filterMap fun m => if m.1 = key then some m.2 else none

mutual

/-- The number of arrays and objects around the innermost value. -/
def nesting : Json → Nat
  | .arr items => 1 + itemsNesting items
  | .obj members => 1 + membersNesting members
  | _ => 0

/-- The greatest nesting of several values. -/
def itemsNesting : List Json → Nat
  | [] => 0
  | j :: js => max (nesting j) (itemsNesting js)

/-- The greatest nesting of several members. -/
def membersNesting : List (String × Json) → Nat
  | [] => 0
  | (_, j) :: ms => max (nesting j) (membersNesting ms)

end

end Json
end PatternSweep
