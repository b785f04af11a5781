import PatternSweep.Json.Read

/-!
# The grammar of JSON

`Json.Denotes cs j` says that the characters `cs` are a text of JSON and `j` is its value. It is a
definition by the rules of the standard and knows of no reading place and no open containers:

* blanks may stand around every value and around every key;
* a character inside quotes is itself, unless it is a quote, a backslash or a control character, or
  it is escaped by a letter or by the digits of its one or two code units of UTF-16;
* of the numbers those are left out that no value holds, which have a sign, a fraction or an
  exponent or take more than 64 bits.
-/

namespace PatternSweep.Json

/-! ### Texts between quotes -/

/-- A code unit of UTF-16 by its four hexadecimal digits. -/
inductive UnitForm : List Char → Nat → Prop
  | digits {a b c d : Char} {x y z t : Nat} (ha : hexDigit? a = some x) (hb : hexDigit? b = some y)
      (hc : hexDigit? c = some z) (hd : hexDigit? d = some t) :
      UnitForm ['\\', 'u', a, b, c, d] (16 * (16 * (16 * x + y) + z) + t)

/-- A character inside a text. -/
inductive CharForm : List Char → Char → Prop
  | itself {c : Char} (hquote : c ≠ '"') (hslash : c ≠ '\\') (hcontrol : 0x20 ≤ c.toNat) :
      CharForm [c] c
  | letter {l c : Char} (h : escape? l = some c) : CharForm ['\\', l] c
  | unit {cs : List Char} {c : Char} (h : UnitForm cs c.toNat) : CharForm cs c
  | units {cs ds : List Char} {c : Char} {high low : Nat} (hhigh : UnitForm cs high)
      (hlow : UnitForm ds low) (hleading : 0xd800 ≤ high ∧ high < 0xdc00)
      (htrailing : 0xdc00 ≤ low ∧ low < 0xe000)
      (hc : c.toNat = 0x10000 + (high - 0xd800) * 0x400 + (low - 0xdc00)) : CharForm (cs ++ ds) c

/-- Some characters inside a text, one after the other. -/
inductive CharForms : List Char → List Char → Prop
  | nil : CharForms [] []
  | cons {fs cs : List Char} {c : Char} {s : List Char} (hc : CharForm fs c)
      (h : CharForms cs s) : CharForms (fs ++ cs) (c :: s)

/-- A text between quotes. -/
inductive Quoted : List Char → String → Prop
  | quoted {cs : List Char} {s : String} (h : CharForms cs s.toList) :
      Quoted ('"' :: cs ++ ['"']) s

/-! ### Values -/

/-- A key and a value as they are written, and what they are. -/
structure MemberText where
  keyText : List Char
  key : String
  valueText : List Char
  value : Json

namespace MemberText

/-- The member as it is written. -/
def chars (m : MemberText) : List Char := m.keyText ++ ':' :: m.valueText

/-- The member itself. -/
def member (m : MemberText) : String × Json := (m.key, m.value)

end MemberText

/-- A key. -/
inductive KeyForm : List Char → String → Prop
  | quoted {cs : List Char} {key : String} (h : Quoted cs key) : KeyForm cs key
  | before {c : Char} {cs : List Char} {key : String} (hc : isBlank c = true)
      (h : KeyForm cs key) : KeyForm (c :: cs) key
  | after {c : Char} {cs : List Char} {key : String} (hc : isBlank c = true)
      (h : KeyForm cs key) : KeyForm (cs ++ [c]) key

/-- The characters are a text of JSON, whose value is the second. -/
inductive Denotes : List Char → Json → Prop
  | before {c : Char} {cs : List Char} {j : Json} (hc : isBlank c = true) (h : Denotes cs j) :
      Denotes (c :: cs) j
  | after {c : Char} {cs : List Char} {j : Json} (hc : isBlank c = true) (h : Denotes cs j) :
      Denotes (cs ++ [c]) j
  | null : Denotes ['n', 'u', 'l', 'l'] .null
  | yes : Denotes ['t', 'r', 'u', 'e'] (.bool true)
  | no : Denotes ['f', 'a', 'l', 's', 'e'] (.bool false)
  | nat {n : Nat} (h : n < natLimit) : Denotes (Nat.toDigits 10 n) (.nat n)
  | str {cs : List Char} {s : String} (h : Quoted cs s) : Denotes cs (.str s)
  | noItems {blanks : List Char} (h : ∀ c ∈ blanks, isBlank c = true) :
      Denotes ('[' :: blanks ++ [']']) (.arr [])
  | items (items : List (List Char × Json)) (hne : items ≠ [])
      (h : ∀ x ∈ items, Denotes x.1 x.2) :
      Denotes ('[' :: List.intercalate [','] (items.map Prod.fst) ++ [']'])
        (.arr (items.map Prod.snd))
  | noMembers {blanks : List Char} (h : ∀ c ∈ blanks, isBlank c = true) :
      Denotes ('{' :: blanks ++ ['}']) (.obj [])
  | members (members : List MemberText) (hne : members ≠ [])
      (hkeys : ∀ m ∈ members, KeyForm m.keyText m.key)
      (hvalues : ∀ m ∈ members, Denotes m.valueText m.value) :
      Denotes ('{' :: List.intercalate [','] (members.map MemberText.chars) ++ ['}'])
        (.obj (members.map MemberText.member))

end PatternSweep.Json
