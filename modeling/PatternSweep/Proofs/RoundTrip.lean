import PatternSweep.Proofs.ReaderTexts
import PatternSweep.Proofs.Writing

/-!
# Writing and reading back

A pattern that a text denotes is canonical (`fits_of_derives`): what the grammar builds has regular
nodes, and writing it takes no more groups than the text had, since parentheses are written only
where the grammar asks for them. So the canonical patterns are the ones that are read from some
text, and each of them is read back from its own writing (`reading_undoes_writing`).
-/

namespace PatternSweep

open Grammar

namespace Pattern

/-- What a phrase of the kind inside `d` groups says of the pattern that it denotes. -/
structure Fits (kind : Phrase) (d : Nat) (p : Pattern) : Prop where
  nodes : p.Everywhere (Regular 2)
  counts : p.Everywhere HasWordCounts
  room : d + grouped (kind.groups p) p.nesting ≤ nestingLimit

theorem nesting_le_grouped (yes : Bool) (n : Nat) : n ≤ grouped yes n := by
  cases yes with
  | true => exact Nat.le_succ n
  | false => exact Nat.le_refl n

theorem grouped_le (yes : Bool) (n : Nat) : grouped yes n ≤ n + 1 := by
  cases yes with
  | true => exact Nat.le_refl _
  | false => exact Nat.le_succ n

section

variable {d : Nat} {p c e : Pattern} {ps : List Pattern}

theorem Fits.group (h : Fits .expression (d + 1) p) : Fits .atom d p where
  nodes := h.nodes
  counts := h.counts
  room := by
    have := grouped_le p.needsGroup p.nesting
    have hroom : d + 1 + p.nesting ≤ nestingLimit := h.room
    simp only [Phrase.groups]
    omega

/-- A pattern that needs parentheses as a factor needs them as an atom too. -/
theorem Fits.once (h : Fits .atom d p) : Fits .factor d p where
  nodes := h.nodes
  counts := h.counts
  room := by
    have hroom := h.room
    cases p with
    | repeated e min max => exact Nat.le_of_succ_le hroom
    | atom | seq | alt | ahead => exact hroom

theorem Fits.single (h : Fits .factor d p) : Fits .term d p where
  nodes := h.nodes
  counts := h.counts
  room := by
    have hroom := h.room
    cases p with
    | seq ps => exact Nat.le_of_succ_le hroom
    | atom | alt | repeated | ahead => exact hroom

theorem Fits.whole (h : Fits .term d p) : Fits .expression d p where
  nodes := h.nodes
  counts := h.counts
  room := Nat.le_trans (Nat.add_le_add_left (nesting_le_grouped _ _) d) h.room

/-- Where there is room for each of several parts, there is room for all. -/
theorem partNesting_room {loose : Pattern → Bool} (hd : d ≤ nestingLimit)
    (h : ∀ p ∈ ps, d + grouped (loose p) p.nesting ≤ nestingLimit) :
    d + partNesting loose ps ≤ nestingLimit := by
  have hparts : partNesting loose ps ≤ nestingLimit - d :=
    partNesting_le_iff.2 fun p hp => Nat.le_sub_of_add_le' (h p hp)
  omega

theorem fits_seq (hd : d ≤ nestingLimit) (hlength : 2 ≤ ps.length)
    (h : ∀ p ∈ ps, Fits .factor d p) : Fits .term d (.seq ps) where
  nodes := everywhere_seq_iff.2 ⟨hlength, fun p hp => (h p hp).nodes⟩
  counts := everywhere_seq_iff.2 ⟨trivial, fun p hp => (h p hp).counts⟩
  room := partNesting_room hd fun p hp => (h p hp).room

theorem fits_alt (hd : d ≤ nestingLimit) (hlength : 2 ≤ ps.length)
    (h : ∀ p ∈ ps, Fits .term d p) : Fits .expression d (.alt ps) where
  nodes := everywhere_alt_iff.2 ⟨hlength, fun p hp => (h p hp).nodes⟩
  counts := everywhere_alt_iff.2 ⟨trivial, fun p hp => (h p hp).counts⟩
  room := partNesting_room hd fun p hp => (h p hp).room

theorem fits_atom {a : Atom} (hd : d ≤ nestingLimit) (ha : (Pattern.atom a).Regular 2) :
    Fits .atom d (.atom a) where
  nodes := everywhere_atom_iff.2 ha
  counts := everywhere_atom_iff.2 trivial
  room := hd

theorem fits_repeated {min : Nat} {max : Option Nat} (hcounts : (repeated e min max).HasWordCounts)
    (hle : ∀ m ∈ max, min ≤ m) (h : Fits .atom d e) : Fits .factor d (.repeated e min max) where
  nodes := everywhere_repeated_iff.2 ⟨hle, h.nodes⟩
  counts := everywhere_repeated_iff.2 ⟨hcounts, h.counts⟩
  room := h.room

theorem fits_ahead {positive : Bool} (hc : Fits .expression (d + 1) c)
    (hp : Fits .atom (d + 1) p) : Fits .atom d (.ahead positive c p) where
  nodes := everywhere_ahead_iff.2 ⟨trivial, hc.nodes, hp.nodes⟩
  counts := everywhere_ahead_iff.2 ⟨trivial, hc.counts, hp.counts⟩
  room := by
    have hcondition : d + 1 + c.nesting ≤ nestingLimit := hc.room
    have hbody : d + 1 + grouped p.needsGroup p.nesting ≤ nestingLimit := hp.room
    show d + (1 + max c.nesting (grouped p.needsGroup p.nesting)) ≤ nestingLimit
    omega

end

/-- Members that are read have no reversed range. -/
theorem le_of_isMembers {u : List Char} {items : List ClassItem} (h : IsMembers u items)
    {first last : Char} (hmem : .range first last ∈ items) : first ≤ last := by
  induction h with
  | nil => cases hmem
  | shorthand s _ ih => exact ih (by simpa using hmem)
  | char _ _ _ ih => exact ih (by simpa using hmem)
  | range _ _ hle _ ih =>
    rcases List.mem_cons.1 hmem with heq | hmem
    · cases heq
      exact hle
    · exact ih hmem

theorem regular_of_isBrackets {u : List Char} {k : CharClass} (h : IsBrackets u k) :
    (Pattern.atom (.oneOf k)).Regular 2 := by
  cases h with
  | plain h hne | negated h hne => exact ⟨hne, fun _ _ => le_of_isMembers h⟩

theorem counts_of_isQuantifier {v : List Char} {min : Nat} {max : Option Nat}
    (h : IsQuantifier v min max) :
    (min < UInt64.size ∧ ∀ m ∈ max, m < UInt64.size) ∧ ∀ m ∈ max, min ≤ m := by
  cases h with
  | star | plus | optional => simp [UInt64.size]
  | exactly h => simpa using h.lt
  | atLeast h => simpa using h.lt
  | between hn hm hle => simpa using ⟨⟨hn.lt, hm.lt⟩, hle⟩

/-- One pattern or several: what `oneOr` makes of them. -/
theorem oneOr_cases {motive : Pattern → Prop} {f : List Pattern → Pattern} {ps : List Pattern}
    (hne : ps ≠ []) (one : ∀ p ∈ ps, motive p) (several : 2 ≤ ps.length → motive (f ps)) :
    motive (oneOr f ps) := by
  match ps with
  | [p] => exact one p (List.mem_singleton_self p)
  | _ :: _ :: _ => exact several (by simp)

/-- **What a text denotes fits**, if the groups around it do. -/
theorem fits_of_derives {kind : Phrase} {d : Nat} {u : List Char} {p : Pattern}
    (h : Derives kind d u p) (hd : d ≤ nestingLimit) : Fits kind d p := by
  induction h with
  | expression terms hne _ ih =>
    have hterms : ∀ p ∈ terms.map Prod.snd, Fits .term _ p :=
      List.forall_mem_map.2 fun x hx => ih x hx hd
    exact oneOr_cases (by simpa using hne) (fun p hp => (hterms p hp).whole)
      fun hlength => fits_alt hd hlength hterms
  | term factors hne _ ih =>
    have hfactors : ∀ p ∈ factors.map Prod.snd, Fits .factor _ p :=
      List.forall_mem_map.2 fun x hx => ih x hx hd
    exact oneOr_cases (by simpa using hne) (fun p hp => (hfactors p hp).single)
      fun hlength => fits_seq hd hlength hfactors
  | once _ ih => exact (ih hd).once
  | quantified _ hv ih =>
    obtain ⟨hcounts, hle⟩ := counts_of_isQuantifier hv
    exact fits_repeated hcounts hle (ih hd)
  | character | any | escape => exact fits_atom hd trivial
  | shorthand s =>
    exact fits_atom hd ⟨by simp [CharClass.ofShorthand], by simp [CharClass.ofShorthand]⟩
  | brackets hk => exact fits_atom hd (regular_of_isBrackets hk)
  | group hroom _ _ ih => exact (ih hroom).group
  | ahead hroom _ _ _ ihc ihp => exact fits_ahead (ihc hroom) (ihp hroom)

variable {t : Pattern}

/-- A pattern that is read is canonical. -/
theorem canonical_of_parse {written : String} (h : parse written = .ok t) :
    t.Canonical ∧ t.Everywhere HasWordCounts := by
  have hfits := fits_of_derives (derives_of_parseChars h) (Nat.zero_le _)
  exact ⟨⟨hfits.nodes, by simpa [Phrase.groups] using hfits.room⟩, hfits.counts⟩

/-- A sound pattern, whose counts are numbers of 64 bits and which does not nest too deep, is read
from its writing as the collapsed pattern. -/
theorem parse_render_of_sound (hsound : t.Sound) (hcounts : t.Everywhere HasWordCounts)
    (hnesting : t.nesting ≤ nestingLimit) : parse t.render = .ok t.collapse := by
  rw [parse, render, String.toList_ofList]
  refine parseChars_of_derives (derives_chars hsound hcounts .expression 0 ?_)
  rw [Nat.zero_add]
  exact hnesting

/-- A canonical pattern is read back from its writing. -/
theorem parse_render (h : t.Canonical) (hcounts : t.Everywhere HasWordCounts) :
    parse t.render = .ok t := by
  have hsound : t.Sound := h.nodes.mono fun _ => Regular.sound
  have hparse := parse_render_of_sound hsound hcounts h.nesting
  rwa [collapse_eq_self h.nodes] at hparse

end Pattern

/-- **Reading undoes writing.** A pattern, whose counts are numbers of 64 bits, is canonical exactly
if some text is read as it; a canonical pattern is read back from its own writing; and so is what
any text was read as. -/
theorem reading_undoes_writing :
    (∀ t : Pattern, t.Canonical ∧ t.Everywhere Pattern.HasWordCounts ↔
      ∃ written, Pattern.parse written = .ok t) ∧
    (∀ t : Pattern, t.Canonical → t.Everywhere Pattern.HasWordCounts → Pattern.parse t.render = .ok t) ∧
    ∀ written t, Pattern.parse written = .ok t → Pattern.parse t.render = .ok t := by
  refine ⟨fun t => ⟨?_, ?_⟩, fun t => Pattern.parse_render, fun written t h => ?_⟩
  · rintro ⟨hcanonical, hcounts⟩
    exact ⟨t.render, Pattern.parse_render hcanonical hcounts⟩
  · rintro ⟨written, h⟩
    exact Pattern.canonical_of_parse h
  · obtain ⟨hcanonical, hcounts⟩ := Pattern.canonical_of_parse h
    exact Pattern.parse_render hcanonical hcounts

/-- Two or three characters, each of them `a` or `b`, read from the shortest text and from one with
more parentheses than it takes. -/
theorem reading_undoes_writing_of_ab :
    (∃ written, Pattern.parse written =
      .ok (.repeated (.alt [Pattern.lit 'a', Pattern.lit 'b']) 2 (some 3))) ∧
    Pattern.parse "(a|b){2,3}" =
      .ok (.repeated (.alt [Pattern.lit 'a', Pattern.lit 'b']) 2 (some 3)) ∧
    Pattern.parse "(?:(a)|b){2,3}" =
      .ok (.repeated (.alt [Pattern.lit 'a', Pattern.lit 'b']) 2 (some 3)) ∧
    Pattern.parse (Pattern.repeated (.alt [Pattern.lit 'a', Pattern.lit 'b']) 2 (some 3)).render =
      .ok (.repeated (.alt [Pattern.lit 'a', Pattern.lit 'b']) 2 (some 3)) := by
  obtain ⟨hread, hwritten, hagain⟩ := reading_undoes_writing
  have hcanonical : (Pattern.repeated (.alt [Pattern.lit 'a', Pattern.lit 'b']) 2
      (some 3)).Canonical := ⟨by simp [Pattern.Regular, Pattern.lit], by decide⟩
  have hcounts : (Pattern.repeated (.alt [Pattern.lit 'a', Pattern.lit 'b']) 2
      (some 3)).Everywhere Pattern.HasWordCounts := by
    simp [Pattern.HasWordCounts, Pattern.lit, UInt64.size]
  have hrender : (Pattern.repeated (.alt [Pattern.lit 'a', Pattern.lit 'b']) 2 (some 3)).render =
      "(a|b){2,3}" := by decide
  have hshort := hwritten _ hcanonical hcounts
  have hlong : Pattern.parse "(?:(a)|b){2,3}" =
      .ok (.repeated (.alt [Pattern.lit 'a', Pattern.lit 'b']) 2 (some 3)) := rfl
  rw [hrender] at hshort
  exact ⟨(hread _).1 ⟨hcanonical, hcounts⟩, hshort, hlong, hagain _ _ hlong⟩

end PatternSweep
