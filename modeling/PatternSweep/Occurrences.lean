import PatternSweep.OffsetSet.Basic

/-!
# Where characters occur

An `Occurrences` holds, for the characters of an alphabet, the set of the offsets of one text at
which each occurs. It answers for a set of characters only if the alphabet has every character of
the text; otherwise a character without a mask could be overlooked. A text of which every character
takes one byte is searched by its bytes, any other one by its characters.
-/

namespace PatternSweep

/-- The offsets at which the characters of a text satisfy `q`. -/
def offsetsWhere (text : List Char) (q : Char → Bool) : OffsetSet :=
  .ofList (text.length + 1) (text.zipIdx.filterMap fun r => if q r.1 then some r.2 else none)

/-- Whether a character takes one byte. -/
def isAscii (c : Char) : Bool := c.val < 128

/-- The bytes of a text. -/
def textBytes (text : List Char) : List UInt8 := text.flatMap String.utf8EncodeChar

/-- The places of a byte, ascending. -/
def bytePlaces (bytes : List UInt8) (b : UInt8) : List Nat :=
  bytes.zipIdx.filterMap fun r => if r.1 = b then some r.2 else none

/-- The offsets of a character in a text. The bytes of an ASCII text stand at the offsets of its
characters, and it has no other character than ASCII ones. -/
def offsetsOfChar (text : List Char) (c : Char) : OffsetSet :=
  if text.all isAscii then
    .ofList (text.length + 1)
      (if isAscii c then bytePlaces (textBytes text) c.val.toUInt8 else [])
  else offsetsWhere text (· = c)

/-- The offsets in one text of each character of an alphabet. -/
structure Occurrences where
  text : List Char
  /-- The characters of the alphabet, each once, with their offsets. -/
  masks : List (Char × OffsetSet)
  /-- Whether every character of the text is in the alphabet. -/
  coversText : Bool

namespace Occurrences

/-- The offsets in `text` of the characters of `alphabet`. -/
def build (text alphabet : List Char) : Occurrences :=
  let letters := alphabet.eraseDups
  { text := text
    masks := letters.map fun c => (c, offsetsOfChar text c)
    coversText := text.all letters.contains }

/-- The offsets of the characters that the text itself has. -/
def ofText (text : List Char) : Occurrences := build text text

/-- The offsets of a character, if it is in the alphabet. -/
def offsetsOf (o : Occurrences) (c : Char) : Option OffsetSet := o.masks.lookup c

/-- The offsets of the characters that satisfy `q`, if the alphabet covers the text. -/
def offsetsSuchThat (o : Occurrences) (q : Char → Bool) : Option OffsetSet :=
  if o.coversText then
    some (o.masks.foldl (fun all r => if q r.1 then all.union r.2 else all)
      (.empty (o.text.length + 1)))
  else none

/-- The number of characters of the alphabet. -/
def alphabetSize (o : Occurrences) : Nat := o.masks.length

/-- The number of offsets in all masks. -/
def card (o : Occurrences) : Nat := o.masks.foldl (fun n r => n + r.2.card) 0

end Occurrences
end PatternSweep
