import PatternSweep.Pattern.Json
import PatternSweep.Proofs.Codecs
import PatternSweep.Proofs.Shapes

/-!
# Libraries for JSON

How patterns are written as texts of JSON and read from them is left to a `JsonLibrary`. Nothing is
known of it but what such a library promises (`JsonLibrary.Conforms`): how it treats the plain
types, that it treats classes and patterns by their variants and fields, whose names and types are
given here, and that its texts are those of the standard. By these promises every part of a pattern
is carried over, and so is the pattern (`JsonLibrary.Conforms.carries_pattern`).
-/

namespace PatternSweep

/-- Functions that write patterns as texts of JSON and read them. -/
structure JsonLibrary : Type 1 where
  bool : Codec Bool
  char : Codec Char
  count : Codec Nat
  option : {α : Type} → Codec α → Codec (Option α)
  list : {α : Type} → Codec α → Codec (List α)
  shorthand : Codec Shorthand
  classItem : Codec ClassItem
  charClass : Codec CharClass
  pattern : Codec Pattern
  /-- A pattern as a text. -/
  toText : Pattern → String
  /-- The pattern that is read from a text. -/
  ofText? : String → Option Pattern

section Types

variable (lib : JsonLibrary)

/-- The variants of the members of a class. -/
def ClassItem.variants : List (Variant ClassItem) :=
  [.holding "Char" (.single (.of lib.char id)) .char,
    .holding "Range" (.tuple [.of lib.char Prod.fst, .of lib.char Prod.snd])
      (fun b => .range b.1 b.2),
    .holding "Shorthand" (.single (.of lib.shorthand id)) .shorthand]

/-- The fields of a class. -/
def CharClass.contents : Contents CharClass :=
  .record [("items", .of (lib.list lib.classItem) CharClass.items),
    ("negated", .of lib.bool CharClass.negated)]

/-- The fields of a repetition. -/
def Pattern.repeatedContents : Contents (Pattern × Nat × Option Nat) :=
  .record [("node", .of lib.pattern fun b => b.1), ("min", .of lib.count fun b => b.2.1),
    ("max", .of (lib.option lib.count) fun b => b.2.2)]

/-- The fields of a lookahead. -/
def Pattern.aheadContents : Contents (Pattern × Pattern) :=
  .record [("condition", .of lib.pattern Prod.fst), ("body", .of lib.pattern Prod.snd)]

/-- The variants of a node of a pattern. -/
def Pattern.variants : List (Variant Pattern) :=
  [.holding "Literal" (.single (.of lib.char id)) Pattern.lit,
    .unit "AnyChar" (.atom .any),
    .holding "CharacterClass" (.single (.of lib.charClass id)) (fun k => .atom (.oneOf k)),
    .holding "Concat" (.single (.of (lib.list lib.pattern) id)) Pattern.seq,
    .holding "Alternation" (.single (.of (lib.list lib.pattern) id)) Pattern.alt,
    .holding "Repeat" (repeatedContents lib) (fun b => .repeated b.1 b.2.1 b.2.2),
    .holding "PositiveLookahead" (aheadContents lib) (fun b => .ahead true b.1 b.2),
    .holding "NegativeLookahead" (aheadContents lib) (fun b => .ahead false b.1 b.2)]

end Types

namespace JsonLibrary

/-- What is known of the functions. -/
structure Conforms (lib : JsonLibrary) : Prop where
  /-- A truth value is itself. -/
  bool : ∀ b, lib.bool.encode b = .bool b ∧ lib.bool.decode (.bool b) = some b
  /-- A character is a text of one character. -/
  char : ∀ c, lib.char.encode c = .str (String.singleton c) ∧
    lib.char.decode (.str (String.singleton c)) = some c
  /-- A count of 64 bits is a number. -/
  count : ∀ n, n < UInt64.size →
    lib.count.encode n = .nat n ∧ lib.count.decode (.nat n) = some n
  /-- If there is no value, that is `null`. -/
  absent : ∀ {α : Type} (c : Codec α),
    (lib.option c).encode none = .null ∧ (lib.option c).decode .null = some none
  /-- If there is a value, it is written as such. -/
  present : ∀ {α : Type} (c : Codec α) (a : α), (lib.option c).encode (some a) = c.encode a ∧
    ∀ j, j ≠ .null → c.decode j = some a → (lib.option c).decode j = some (some a)
  /-- Several values are an array. -/
  list : ∀ {α : Type} (c : Codec α) (as : List α),
    (lib.list c).encode as = .arr (as.map c.encode) ∧
    ∀ js, List.Forall₂ (fun a j => c.decode j = some a) as js →
      (lib.list c).decode (.arr js) = some as
  /-- The shorthands are variants without contents. -/
  shorthand : ∀ s : Shorthand, Variant.Tagged lib.shorthand (.unit s.name s)
  classItem : ∀ v ∈ ClassItem.variants lib, v.Tagged lib.classItem
  charClass : lib.charClass.Holds (CharClass.contents lib)
  pattern : ∀ v ∈ Pattern.variants lib, v.Tagged lib.pattern
  /-- What is written is a text of JSON for the value of the pattern, if that has a meaning. -/
  toText : ∀ p, (lib.pattern.encode p).Plain →
    Json.Denotes (lib.toText p).toList (lib.pattern.encode p)
  /-- A text of JSON is read as its value is, unless more than 127 arrays and objects lie one inside
  the other in it. -/
  ofText? : ∀ text j p, Json.Denotes text.toList j → j.nesting ≤ 127 →
    lib.pattern.decode j = some p → lib.ofText? text = some p

namespace Conforms

variable {lib : JsonLibrary} (h : lib.Conforms)

include h

theorem carries_bool (b : Bool) : lib.bool.Carries b :=
  ⟨(h.bool b).1 ▸ .bool b, (h.bool b).1 ▸ (h.bool b).2⟩

theorem carries_char (c : Char) : lib.char.Carries c :=
  ⟨(h.char c).1 ▸ .str _, (h.char c).1 ▸ (h.char c).2⟩

theorem carries_count {n : Nat} (hn : n < UInt64.size) : lib.count.Carries n := by
  obtain ⟨hencode, hdecode⟩ := h.count n hn
  exact ⟨hencode ▸ .nat hn, hencode ▸ hdecode⟩

theorem carries_option {α : Type} {c : Codec α} {o : Option α}
    (ho : ∀ a ∈ o, c.Carries a ∧ c.encode a ≠ .null) : (lib.option c).Carries o := by
  cases o with
  | none =>
    obtain ⟨hencode, hdecode⟩ := h.absent c
    exact ⟨hencode ▸ .null, hencode ▸ hdecode⟩
  | some a =>
    obtain ⟨ha, hnull⟩ := ho a rfl
    obtain ⟨hencode, hdecode⟩ := h.present c a
    exact ⟨hencode ▸ ha.plain, hencode ▸ hdecode _ hnull ha.decode_encode⟩

theorem carries_list {α : Type} {c : Codec α} {as : List α} (has : ∀ a ∈ as, c.Carries a) :
    (lib.list c).Carries as := by
  obtain ⟨hencode, hdecode⟩ := h.list c as
  refine ⟨hencode ▸ .arr (List.forall_mem_map.2 fun a ha => (has a ha).plain), hencode ▸ ?_⟩
  exact hdecode _ (List.forall₂_map_right_iff.2
    (List.forall₂_same.2 fun a ha => (has a ha).decode_encode))

theorem carries_shorthand (s : Shorthand) : lib.shorthand.Carries s := (h.shorthand s).carries_unit

theorem carries_classItem (i : ClassItem) : lib.classItem.Carries i := by
  have hvariants := h.classItem
  simp only [ClassItem.variants, List.forall_mem_cons] at hvariants
  obtain ⟨hchar, hrange, hshorthand, -⟩ := hvariants
  cases i with
  | char c => exact hchar.carries (List.forall_mem_singleton.2 (h.carries_char c))
  | range first last =>
    exact hrange.carries (b := (first, last)) <| List.forall_mem_cons.2
      ⟨h.carries_char first, List.forall_mem_singleton.2 (h.carries_char last)⟩
  | shorthand s => exact hshorthand.carries (List.forall_mem_singleton.2 (h.carries_shorthand s))

theorem carries_charClass (k : CharClass) : lib.charClass.Carries k :=
  h.charClass.carries <| List.forall_mem_cons.2
    ⟨h.carries_list fun i _ => h.carries_classItem i,
      List.forall_mem_singleton.2 (h.carries_bool k.negated)⟩

/-- A pattern with counts of 64 bits is carried over. -/
theorem carries_pattern {p : Pattern} (hp : p.Everywhere Pattern.HasWordCounts) :
    lib.pattern.Carries p := by
  have hvariants := h.pattern
  simp only [Pattern.variants, List.forall_mem_cons] at hvariants
  obtain ⟨hliteral, hany, hclass, hseq, halt, hrepeated, hahead, hnotAhead, -⟩ := hvariants
  induction p using Pattern.induct with
  | atom a =>
    cases a with
    | literal c => exact hliteral.carries (List.forall_mem_singleton.2 (h.carries_char c))
    | any => exact hany.carries_unit
    | oneOf k => exact hclass.carries (List.forall_mem_singleton.2 (h.carries_charClass k))
  | seq ps ih =>
    have hps := (Pattern.everywhere_seq_iff.1 hp).2
    exact hseq.carries <| List.forall_mem_singleton.2 <|
      h.carries_list fun q hq => ih q hq (hps q hq)
  | alt ps ih =>
    have hps := (Pattern.everywhere_alt_iff.1 hp).2
    exact halt.carries <| List.forall_mem_singleton.2 <|
      h.carries_list fun q hq => ih q hq (hps q hq)
  | repeated e min max ih =>
    obtain ⟨⟨hmin, hmax⟩, he⟩ := Pattern.everywhere_repeated_iff.1 hp
    have hmax : (lib.option lib.count).Carries max := h.carries_option fun m hm =>
      ⟨h.carries_count (hmax m hm), by rw [(h.count m (hmax m hm)).1]; exact Json.noConfusion⟩
    exact hrepeated.carries (b := (e, min, max)) <| List.forall_mem_cons.2 ⟨ih he,
      List.forall_mem_cons.2 ⟨h.carries_count hmin, List.forall_mem_singleton.2 hmax⟩⟩
  | ahead b c p ihc ihp =>
    obtain ⟨-, hc, hp⟩ := Pattern.everywhere_ahead_iff.1 hp
    have hfields : ∀ x ∈ (Pattern.aheadContents lib).parts, x.Carries (c, p) :=
      List.forall_mem_cons.2 ⟨ihc hc, List.forall_mem_singleton.2 (ihp hp)⟩
    cases b with
    | true => exact hahead.carries hfields
    | false => exact hnotAhead.carries hfields

end Conforms
end JsonLibrary

end PatternSweep
