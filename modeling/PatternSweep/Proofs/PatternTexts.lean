import PatternSweep.Proofs.OwnCodecs

/-!
# Patterns as texts of JSON

Whatever library for JSON writes them, the texts of patterns lose nothing: the pattern is carried
over to a value of JSON and back, and the standard gives no text to two values.
-/

namespace PatternSweep

/-- **The text of a pattern loses nothing.** Let patterns be written and read by a library for JSON
that keeps its promises. The text of a pattern with counts of 64 bits is one of the value that the
pattern is written as, and that value is read as the pattern. So reading the text gives the pattern
back if no more than 127 arrays and objects lie one inside the other in it, and no two patterns have
one text, however deep they are. -/
theorem json_texts_of_patterns_lose_nothing (lib : JsonLibrary) (hlib : lib.Conforms)
    (p : Pattern) (hp : p.Everywhere Pattern.HasWordCounts) :
    Json.Denotes (lib.toText p).toList (lib.pattern.encode p) ∧
    lib.pattern.decode (lib.pattern.encode p) = some p ∧
    ((lib.pattern.encode p).nesting ≤ 127 → lib.ofText? (lib.toText p) = some p) ∧
    ∀ q : Pattern, q.Everywhere Pattern.HasWordCounts → lib.toText q = lib.toText p → q = p := by
  have hcarries := hlib.carries_pattern hp
  have hdenotes := hlib.toText p hcarries.plain
  refine ⟨hdenotes, hcarries.decode_encode, fun hnesting => ?_, fun q hq htext => ?_⟩
  · exact hlib.ofText? _ _ p hdenotes hnesting hcarries.decode_encode
  · have hcarries' := hlib.carries_pattern hq
    have hdenotes' := hlib.toText q hcarries'.plain
    rw [htext] at hdenotes'
    have hback := hcarries'.decode_encode
    rw [hdenotes'.unique hdenotes, hcarries.decode_encode] at hback
    exact (Option.some.inj hback).symm

/-- The functions of this library give back quotes, backslashes, control characters and characters
beyond sixteen bits, the greatest count there is, an alternation of nothing and a least count above
the greatest. -/
theorem json_text_of_a_strange_pattern_loses_nothing :
    let p : Pattern := .seq [.lit '"', .lit '\x01',
      .repeated (.atom (.oneOf ⟨[.range '\\' '😀', .shorthand .word], true⟩))
        18446744073709551615 (some 0),
      .ahead false (.alt []) (.atom .any)]
    JsonLibrary.own.Conforms ∧ p.Everywhere Pattern.HasWordCounts ∧ p.toJson.nesting ≤ 127 ∧
      Pattern.readText? p.writeText = some p := by
  intro p
  have hp : p.Everywhere Pattern.HasWordCounts := by
    simp [p, Pattern.lit, Pattern.HasWordCounts, UInt64.size]
  have hnesting : p.toJson.nesting ≤ 127 := by decide
  have hlossless := json_texts_of_patterns_lose_nothing .own JsonLibrary.own_conforms p hp
  exact ⟨JsonLibrary.own_conforms, hp, hnesting, hlossless.2.2.1 hnesting⟩

end PatternSweep
