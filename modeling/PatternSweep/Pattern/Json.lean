import PatternSweep.Json.Read
import PatternSweep.Json.Write
import PatternSweep.Pattern.Basic

/-!
# Patterns as JSON

A node of a pattern is an object with one member, whose key names the kind of the node and whose
value holds its parts; the atom that takes any character is its name alone. When a pattern is read
back, members with unknown keys are passed over, a missing greatest count means that there is none,
and a kind without parts may be an object whose member is null. The record of a class may also be
an array of exactly its fields in order.

`Pattern.ofJson?` reads a value and `Pattern.readText?` a text. In a text the record of a node may
be an array too, and at most `Pattern.readingRoom` arrays and objects are entered one inside the
other; in a value, which is there as a whole, their number has no limit.
-/

namespace PatternSweep

/-- The one character of a text. -/
def Json.char? : Json → Option Char
  | .str s => match s.toList with
    | [c] => some c
    | _ => none
  | _ => none

/-- The fields of a record by name: of an object the members that have these keys, each at most
once, of an array, which is a record only if `listed`, its items if there is one for every name. -/
def Json.fields? (listed : Bool) (names : List String) : Json → Option (List (Option Json))
  | .obj members => names.mapM fun name =>
    match named members name with
    | [] => some none
    | [j] => some (some j)
    | _ => none
  | .arr items =>
    if listed && items.length = names.length then some (items.map some) else none
  | _ => none

/-- The name of a shorthand. -/
def Shorthand.name : Shorthand → String
  | digit => "Digit"
  | nonDigit => "NonDigit"
  | space => "Space"
  | nonSpace => "NonSpace"
  | word => "Word"
  | nonWord => "NonWord"

/-- The shorthand of a name. -/
def Shorthand.ofName? : String → Option Shorthand
  | "Digit" => some digit
  | "NonDigit" => some nonDigit
  | "Space" => some space
  | "NonSpace" => some nonSpace
  | "Word" => some word
  | "NonWord" => some nonWord
  | _ => none

/-- A shorthand from its name, or from an object of one member with that key and no content. -/
def Shorthand.ofJson? : Nat → Json → Option Shorthand
  | _, .str name => ofName? name
  | _ + 1, .obj [(name, .null)] => ofName? name
  | _, _ => none

/-- A character as a text. -/
def Json.ofChar (c : Char) : Json := .str (String.singleton c)

/-- A member of a class as JSON. -/
def ClassItem.toJson : ClassItem → Json
  | char c => .obj [("Char", .ofChar c)]
  | range first last => .obj [("Range", .arr [.ofChar first, .ofChar last])]
  | shorthand s => .obj [("Shorthand", .str s.name)]

/-- A member of a class from JSON. -/
def ClassItem.ofJson? : Nat → Json → Option ClassItem
  | _ + 1, .obj [("Char", j)] => char <$> j.char?
  | _ + 2, .obj [("Range", .arr [j, k])] => do return range (← j.char?) (← k.char?)
  | room + 1, .obj [("Shorthand", j)] => shorthand <$> Shorthand.ofJson? room j
  | _, _ => none

/-- A class as JSON. -/
def CharClass.toJson (k : CharClass) : Json :=
  .obj [("items", .arr (k.items.map ClassItem.toJson)), ("negated", .bool k.negated)]

/-- A class from JSON. -/
def CharClass.ofJson? : Nat → Json → Option CharClass
  | room + 2, j => do
    match ← j.fields? true ["items", "negated"] with
    | [some (.arr items), some (.bool negated)] =>
      return ⟨← items.mapM (ClassItem.ofJson? room), negated⟩
    | _ => none
  | _, _ => none

/-- A greatest count as JSON. -/
def Json.ofMax : Option Nat → Json
  | some n => .nat n
  | none => .null

/-- A greatest count from the field that holds it, if there is one. -/
def Json.max? : Option Json → Option (Option Nat)
  | none | some .null => some none
  | some (.nat n) => some (some n)
  | _ => none

namespace Pattern

mutual

/-- A pattern as JSON. -/
def toJson : Pattern → Json
  | .atom (.literal c) => .obj [("Literal", .ofChar c)]
  | .atom .any => .str "AnyChar"
  | .atom (.oneOf k) => .obj [("CharacterClass", k.toJson)]
  | .seq ps => .obj [("Concat", .arr (toJsons ps))]
  | .alt ps => .obj [("Alternation", .arr (toJsons ps))]
  | .repeated e min max =>
    .obj [("Repeat", .obj [("node", toJson e), ("min", .nat min), ("max", .ofMax max)])]
  | .ahead true c p =>
    .obj [("PositiveLookahead", .obj [("condition", toJson c), ("body", toJson p)])]
  | .ahead false c p =>
    .obj [("NegativeLookahead", .obj [("condition", toJson c), ("body", toJson p)])]

/-- Several patterns as JSON. -/
def toJsons : List Pattern → List Json
  | [] => []
  | p :: ps => toJson p :: toJsons ps

end

/-- A pattern from JSON, entering at most `room` arrays and objects one inside the other. The record
of a node may be an array only if `listed`. -/
def decode? (listed : Bool) : (room : Nat) → Json → Option Pattern
  | _, .str "AnyChar" => some (.atom .any)
  | _ + 1, .obj [("AnyChar", .null)] => some (.atom .any)
  | _ + 1, .obj [("Literal", j)] => lit <$> j.char?
  | room + 1, .obj [("CharacterClass", j)] => (.atom <| .oneOf ·) <$> CharClass.ofJson? room j
  | room + 2, .obj [("Concat", .arr items)] => seq <$> items.mapM (decode? listed room)
  | room + 2, .obj [("Alternation", .arr items)] => alt <$> items.mapM (decode? listed room)
  | room + 2, .obj [("Repeat", j)] => do
    match ← j.fields? listed ["node", "min", "max"] with
    | [some node, some (.nat min), max] =>
      return .repeated (← decode? listed room node) min (← Json.max? max)
    | _ => none
  | room + 2, .obj [("PositiveLookahead", j)] => do
    match ← j.fields? listed ["condition", "body"] with
    | [some c, some p] => return .ahead true (← decode? listed room c) (← decode? listed room p)
    | _ => none
  | room + 2, .obj [("NegativeLookahead", j)] => do
    match ← j.fields? listed ["condition", "body"] with
    | [some c, some p] => return .ahead false (← decode? listed room c) (← decode? listed room p)
    | _ => none
  | _, _ => none

/-- The pattern that a value of JSON denotes. -/
def ofJson? (j : Json) : Option Pattern := decode? false j.nesting j

/-- The number of arrays and objects that may lie one inside the other in a text. -/
def readingRoom : Nat := 127

/-- The pattern that a text of JSON denotes. -/
def readText? (text : String) : Option Pattern := do decode? true readingRoom (← Json.parse text)

/-- A pattern as a text of JSON without blanks. -/
def writeText (p : Pattern) : String := p.toJson.compact

end Pattern
end PatternSweep
