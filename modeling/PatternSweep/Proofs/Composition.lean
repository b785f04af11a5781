import PatternSweep.Proofs.Collapse

/-!
# Patterns written into others

Two texts that are read as patterns are written into a larger text: with a bar between them, or in
parentheses, one after the other, with a quantifier behind, or as the condition and the body of a
lookahead. Nothing in a text reaches past the bar or the parentheses around it, so the matches of
the larger text follow from those of its parts (`written_patterns_compose`).

A bar puts the branches of both texts side by side, at the nesting that they had before
(`Grammar.Derives.bar`). Parentheses put a text one group deeper than it was read alone, and there
its own groups may find no room; a text that needs parentheses is therefore read to the pattern that
it should denote, or is refused for its nesting and for no other reason (`fitsWithSpans_of_takes`).
-/

namespace PatternSweep

open Grammar Reader

/-! ### Relations within a set -/

/-- Steps that do not leave a set may be restricted to it. -/
theorem iter_within {α : Type} {R : α → α → Prop} {P : α → Prop} {k : Nat} {a c : α}
    (hP : ∀ {a b}, P a → R a b → P b) (ha : P a) :
    Iter (fun a b => P a ∧ R a b) k a c ↔ Iter R k a c := by
  induction k generalizing a with
  | zero => exact Iff.rfl
  | succ k ih =>
    rw [iter_succ', iter_succ']
    constructor
    · rintro ⟨b, ⟨-, hab⟩, hbc⟩
      exact ⟨b, hab, (ih (hP ha hab)).1 hbc⟩
    · rintro ⟨b, hab, hbc⟩
      exact ⟨b, ⟨ha, hab⟩, (ih (hP ha hab)).2 hbc⟩

namespace Pattern

/-! ### Matches from inside the text -/

/-- The pattern matches from one offset to another, and the first lies inside the text. -/
def Spans (text : List Char) (p : Pattern) (i j : Nat) : Prop :=
  i ≤ text.length ∧ p.Matches text i j

variable {text : List Char} {p q c : Pattern} {ps qs : List Pattern} {i j k : Nat}

theorem matchesAny_append :
    MatchesAny text (ps ++ qs) i j ↔ MatchesAny text ps i j ∨ MatchesAny text qs i j := by
  induction ps with
  | nil => simp [MatchesAny]
  | cons p ps ih => exact (or_congr_right ih).trans or_assoc.symm

theorem spans_alt_append : (oneOr .alt (ps ++ qs)).Spans text i j ↔
    (oneOr .alt ps).Spans text i j ∨ (oneOr .alt qs).Spans text i j := by
  unfold Spans
  rw [matches_oneOr_alt, matches_oneOr_alt, matches_oneOr_alt, matchesAny_append, and_or_left]

theorem spans_seq_pair :
    (seq [p, q]).Spans text i k ↔ ∃ j, p.Spans text i j ∧ q.Spans text j k := by
  have hmatches : (seq [p, q]).Matches text i k ↔ ∃ j, p.Matches text i j ∧ q.Matches text j k := by
    simp [Matches, MatchesAll]
  unfold Spans
  rw [hmatches]
  constructor
  · rintro ⟨hi, j, hp, hq⟩
    exact ⟨j, ⟨hi, hp⟩, hp.le_length hi, hq⟩
  · rintro ⟨j, ⟨hi, hp⟩, -, hq⟩
    exact ⟨hi, j, hp, hq⟩

theorem spans_repeated {min : Nat} {max : Option Nat} : (repeated p min max).Spans text i j ↔
    i ≤ text.length ∧ ∃ k, Permits min max k ∧ Iter (p.Spans text) k i j := by
  refine and_congr_right fun hi => exists_congr fun k => and_congr_right fun _ => ?_
  exact (iter_within (P := (· ≤ text.length)) (fun ha hm => hm.le_length ha) hi).symm

theorem spans_ahead {positive : Bool} : (ahead positive c p).Spans text i j ↔
    p.Spans text i j ∧ Passes (c.Spans text) positive i := by
  refine and_assoc.symm.trans (and_congr_right fun h => ?_)
  cases positive <;> simp [Passes, Spans, h.1]

end Pattern

/-! ### Texts in parentheses -/

/-- The texts of two expressions with a bar between them are an expression, of the branches of
both. -/
theorem Grammar.Derives.bar {d : Nat} {u v : List Char} {p q : Pattern}
    (hp : Derives .expression d u p) (hq : Derives .expression d v q) :
    ∃ ps qs, p = oneOr .alt ps ∧ q = oneOr .alt qs ∧
      Derives .expression d (u ++ '|' :: v) (oneOr .alt (ps ++ qs)) := by
  cases hp with
  | expression us hus hu =>
    cases hq with
    | expression vs hvs hv =>
      refine ⟨_, _, rfl, rfl, ?_⟩
      have h := Derives.expression (us ++ vs) (List.append_ne_nil_of_left_ne_nil hus vs)
        (fun x hx => (List.mem_append.1 hx).elim (hu x) (hv x))
      rw [List.map_append, List.map_append,
        intercalate_append_of_ne_nil (by simpa using hus) (by simpa using hvs)] at h
      simpa using h

/-- A text in parentheses. -/
def inGroup (written : String) : String := "(?:" ++ written ++ ")"

theorem toList_inGroup (written : String) :
    (inGroup written).toList = ['(', '?', ':'] ++ written.toList ++ [')'] := by
  simp [inGroup]

/-- A text that is read is read inside groups too, as far as its own groups find room. -/
theorem takesPhrase_of_parse {written : String} {p : Pattern} (h : Pattern.parse written = .ok p) :
    TakesPhrase (fun _ => True) .expression written.toList p :=
  (takes_of_derives (Pattern.derives_of_parseChars h)).mono fun _ _ => trivial

/-- In parentheses a text is an atom. -/
theorem takesPhrase_inGroup {written : String} {p : Pattern} (h : Pattern.parse written = .ok p) :
    TakesPhrase (fun _ => True) .atom (inGroup written).toList p := by
  rw [toList_inGroup]
  exact .group (fun _ _ => trivial) (fun _ _ => trivial) .marked (takesPhrase_of_parse h)

/-- A condition in its parentheses and a text in parentheses are a lookahead. -/
theorem takesPhrase_ahead {condition body : String} {c p : Pattern} {positive : Bool}
    {o : List Char} (hc : Pattern.parse condition = .ok c) (hp : Pattern.parse body = .ok p)
    (ho : Opens (.condition positive) o) :
    TakesPhrase (fun _ => True) .atom (o ++ condition.toList ++ ')' :: (inGroup body).toList)
      (.ahead positive c p) :=
  .ahead (fun _ _ => trivial) (fun _ _ => trivial) ho (takesPhrase_of_parse hc)
    (takesPhrase_inGroup hp)

/-! ### Spans of written patterns -/

/-- The text is no pattern because its groups are nested too deep. -/
def NestsTooDeep (written : String) : Prop :=
  ∃ n, Query.parse written = .error ⟨.nestingTooDeep nestingLimit, n⟩

/-- The text is a pattern, and the spans of its matches are those that `S` relates. -/
def HasSpans (limits : Limits) (text written : String) (S : Nat → Nat → Prop) : Prop :=
  ∃ q spans, Query.parse written = .ok q ∧ (q.withLimits limits).matchSpans text = .ok spans ∧
    ∀ i j, ⟨i, j⟩ ∈ spans ↔ S i j

/-- The text is no pattern because its groups are nested too deep, or the spans of its matches are
those that `S` relates. -/
def FitsWithSpans (limits : Limits) (text written : String) (S : Nat → Nat → Prop) : Prop :=
  NestsTooDeep written ∨ HasSpans limits text written S

section

variable {limits : Limits} {text written : String} {p : Pattern} {S : Nat → Nat → Prop}

theorem Query.parse_eq_ok_iff {q : Query} : Query.parse written = .ok q ↔
    ∃ p, Pattern.parse written = .ok p ∧ Query.build p written = q := by
  unfold Query.parse
  cases Pattern.parse written with
  | error e => simp [bind, Except.bind]
  | ok p => simp [bind, Except.bind, pure, Except.pure]

theorem hasSpans_of_parse (hlength : text.toList.length ≤ limits.maxTextLength)
    (h : Pattern.parse written = .ok p) (hS : ∀ i j, p.Spans text.toList i j ↔ S i j) :
    HasSpans limits text written S := by
  refine ⟨_, _, Query.parse_eq_ok_iff.2 ⟨p, h, rfl⟩, Query.matchSpans_eq hlength, fun i j => ?_⟩
  exact (Subject.mem_matchSpans (Or.inl rfl) p).trans (hS i j)

/-- A text that is read after all has the spans. -/
theorem FitsWithSpans.hasSpans (h : FitsWithSpans limits text written S)
    (hparse : Pattern.parse written = .ok p) : HasSpans limits text written S := by
  refine h.resolve_left fun ⟨n, herror⟩ => ?_
  rw [Query.parse_eq_ok_iff.2 ⟨p, hparse, rfl⟩] at herror
  cases herror

theorem fitsWithSpans_of_takes (hlength : text.toList.length ≤ limits.maxTextLength)
    (h : TakesPhrase (fun _ => True) .expression written.toList p)
    (hS : ∀ i j, p.Spans text.toList i j ↔ S i j) : FitsWithSpans limits text written S := by
  rcases Pattern.parseChars_of_takes h with hparse | ⟨n, hparse⟩
  · exact Or.inr (hasSpans_of_parse hlength hparse hS)
  · refine Or.inl ⟨n, ?_⟩
    unfold Query.parse Pattern.parse
    rw [hparse]
    rfl

end

section

variable {limits : Limits} {text p q : String} {a b : Pattern}

/-- Both texts with a bar between them. -/
theorem hasSpans_bar (hlength : text.toList.length ≤ limits.maxTextLength)
    (ha : Pattern.parse p = .ok a) (hb : Pattern.parse q = .ok b) :
    HasSpans limits text (p ++ "|" ++ q)
      fun i j => a.Spans text.toList i j ∨ b.Spans text.toList i j := by
  obtain ⟨ps, qs, rfl, rfl, hbar⟩ :=
    (Pattern.derives_of_parseChars ha).bar (Pattern.derives_of_parseChars hb)
  refine hasSpans_of_parse hlength ((parse_eq_ok_iff_derives _ _).2 ?_)
    fun i j => Pattern.spans_alt_append
  simpa using hbar

/-- One text after the other. -/
theorem fitsWithSpans_inGroup_append (hlength : text.toList.length ≤ limits.maxTextLength)
    (ha : Pattern.parse p = .ok a) (hb : Pattern.parse q = .ok b) :
    FitsWithSpans limits text (inGroup p ++ inGroup q)
      fun i k => ∃ j, a.Spans text.toList i j ∧ b.Spans text.toList j k := by
  have hboth : ∀ x ∈ [((inGroup p).toList, a), ((inGroup q).toList, b)],
      TakesPhrase (fun _ => True) .factor x.1 x.2 := by
    simpa using ⟨(takesPhrase_inGroup ha).once, (takesPhrase_inGroup hb).once⟩
  have hpair := TakesPhrase.expression_of_factors (List.cons_ne_nil _ _) hboth
  refine fitsWithSpans_of_takes hlength (p := .seq [a, b]) ?_ fun i k => Pattern.spans_seq_pair
  simpa [oneOr] using hpair

/-- A text with any quantifier, whose counts are those with `P`. -/
theorem fitsWithSpans_quantified (hlength : text.toList.length ≤ limits.maxTextLength)
    (ha : Pattern.parse p = .ok a) {v : String} {min : Nat} {max : Option Nat} {P : Nat → Prop}
    (hv : IsQuantifier v.toList min max) (hP : ∀ c, Permits min max c ↔ P c) :
    FitsWithSpans limits text (inGroup p ++ v) fun i j =>
      i ≤ text.toList.length ∧ ∃ c, P c ∧ Iter (a.Spans text.toList) c i j := by
  refine fitsWithSpans_of_takes hlength (p := .repeated a min max) ?_ fun i j => ?_
  · rw [String.toList_append]
    exact ((takesPhrase_inGroup ha).quantified hv).expression_of_factor
  · simp only [Pattern.spans_repeated, hP]

/-- One text as what has to follow, or must not follow, where the other starts. -/
theorem fitsWithSpans_ahead (hlength : text.toList.length ≤ limits.maxTextLength)
    (ha : Pattern.parse p = .ok a) (hb : Pattern.parse q = .ok b) (positive : Bool) {o : String}
    (ho : Opens (.condition positive) o.toList) :
    FitsWithSpans limits text (o ++ p ++ ")" ++ inGroup q) fun i j =>
      b.Spans text.toList i j ∧ Passes (a.Spans text.toList) positive i := by
  refine fitsWithSpans_of_takes hlength (p := .ahead positive a b) ?_
    fun i j => Pattern.spans_ahead
  simpa using (takesPhrase_ahead ha hb ho).once.expression_of_factor

end

/-! ### Composition -/

theorem isQuantifier_atLeast {n : Nat} (hn : n < UInt64.size) :
    IsQuantifier ("\x7b" ++ toString n ++ ",\x7d").toList n none := by
  simpa using IsQuantifier.atLeast (isNumber_toDigits hn)

theorem isQuantifier_between {n m : Nat} (hle : n ≤ m) (hm : m < UInt64.size) :
    IsQuantifier ("\x7b" ++ toString n ++ "," ++ toString m ++ "\x7d").toList n (some m) := by
  simpa using IsQuantifier.between (isNumber_toDigits (Nat.lt_of_le_of_lt hle hm))
    (isNumber_toDigits hm) hle

/-- **Written patterns compose.** Let `S` and `T` relate the spans of two written patterns in a text
within the limit. With a bar between them the patterns are read, and have the spans of both. In
parentheses, one after the other, with a quantifier, or as a condition and a body, they are refused
because groups are nested too deep, or have the composed, iterated or filtered spans. -/
theorem written_patterns_compose {limits : Limits} {text p q : String} {a b : Query}
    (hlength : text.toList.length ≤ limits.maxTextLength) (hp : Query.parse p = .ok a)
    (hq : Query.parse q = .ok b) :
    ∃ S T, HasSpans limits text p S ∧ HasSpans limits text q T ∧
      HasSpans limits text (p ++ "|" ++ q) (fun i j => S i j ∨ T i j) ∧
      FitsWithSpans limits text (inGroup p ++ inGroup q) (fun i k => ∃ j, S i j ∧ T j k) ∧
      (∀ n m, n ≤ m → m < UInt64.size → FitsWithSpans limits text
        (inGroup p ++ ("\x7b" ++ toString n ++ "," ++ toString m ++ "\x7d"))
        (fun i j => i ≤ text.toList.length ∧ ∃ c, (n ≤ c ∧ c ≤ m) ∧ Iter S c i j)) ∧
      (∀ n, n < UInt64.size → FitsWithSpans limits text
        (inGroup p ++ ("\x7b" ++ toString n ++ ",\x7d"))
        (fun i j => i ≤ text.toList.length ∧ ∃ c, n ≤ c ∧ Iter S c i j)) ∧
      FitsWithSpans limits text (inGroup p ++ "*")
        (fun i j => i ≤ text.toList.length ∧ ∃ c, Iter S c i j) ∧
      FitsWithSpans limits text (inGroup p ++ "+")
        (fun i j => i ≤ text.toList.length ∧ ∃ c, 1 ≤ c ∧ Iter S c i j) ∧
      FitsWithSpans limits text (inGroup p ++ "?")
        (fun i j => i ≤ text.toList.length ∧ ∃ c, c ≤ 1 ∧ Iter S c i j) ∧
      FitsWithSpans limits text ("(?=" ++ p ++ ")" ++ inGroup q)
        (fun i j => T i j ∧ ∃ e, S i e) ∧
      FitsWithSpans limits text ("(?!" ++ p ++ ")" ++ inGroup q)
        (fun i j => T i j ∧ ¬∃ e, S i e) := by
  obtain ⟨a, ha, -⟩ := Query.parse_eq_ok_iff.1 hp
  obtain ⟨b, hb, -⟩ := Query.parse_eq_ok_iff.1 hq
  have hany : ∀ c, Permits 0 none c ↔ True := fun c => permits_none.trans (by simp)
  have honce : ∀ c, Permits 0 (some 1) c ↔ c ≤ 1 :=
    fun c => (permits_some (Nat.zero_le 1)).trans (by simp)
  refine ⟨a.Spans text.toList, b.Spans text.toList, hasSpans_of_parse hlength ha fun _ _ => Iff.rfl,
    hasSpans_of_parse hlength hb fun _ _ => Iff.rfl, hasSpans_bar hlength ha hb,
    fitsWithSpans_inGroup_append hlength ha hb, fun n m hle hm => ?_, fun n hn => ?_, ?_, ?_, ?_,
    fitsWithSpans_ahead hlength ha hb true .ahead,
    fitsWithSpans_ahead hlength ha hb false .notAhead⟩
  · exact fitsWithSpans_quantified hlength ha (isQuantifier_between hle hm) fun _ =>
      permits_some hle
  · exact fitsWithSpans_quantified hlength ha (isQuantifier_atLeast hn) fun _ => permits_none
  · simpa only [true_and] using fitsWithSpans_quantified hlength ha (v := "*") .star hany
  · exact fitsWithSpans_quantified hlength ha .plus fun _ => permits_none
  · exact fitsWithSpans_quantified hlength ha .optional honce

/-- The pattern `a|b`, with a `b` behind it, at most twice, and as what may not follow, in the text
`ab`. -/
theorem written_patterns_compose_in_ab :
    ∃ S T, HasSpans .standard "ab" "a|b" S ∧ HasSpans .standard "ab" "b" T ∧
      HasSpans .standard "ab" "a|b|b" (fun i j => S i j ∨ T i j) ∧
      HasSpans .standard "ab" "(?:a|b)(?:b)" (fun i k => ∃ j, S i j ∧ T j k) ∧
      HasSpans .standard "ab" "(?:a|b)\x7b0,2\x7d"
        (fun i j => i ≤ 2 ∧ ∃ c, (0 ≤ c ∧ c ≤ 2) ∧ Iter S c i j) ∧
      HasSpans .standard "ab" "(?!a|b)(?:b)" (fun i j => T i j ∧ ¬∃ e, S i e) := by
  have hlength : "ab".toList.length ≤ Limits.standard.maxTextLength := by decide
  have hp : Query.parse "a|b" = .ok (.build (.alt [.lit 'a', .lit 'b']) "a|b") := rfl
  have hq : Query.parse "b" = .ok (.build (.lit 'b') "b") := rfl
  obtain ⟨S, T, hS, hT, hbar, hpair, hbounds, -, -, -, -, -, hnot⟩ :=
    written_patterns_compose hlength hp hq
  have hpairparse : Pattern.parse "(?:a|b)(?:b)" =
      .ok (.seq [.alt [.lit 'a', .lit 'b'], .lit 'b']) := by decide
  have hboundsparse : Pattern.parse "(?:a|b)\x7b0,2\x7d" =
      .ok (.repeated (.alt [.lit 'a', .lit 'b']) 0 (some 2)) := by decide
  have hnotparse : Pattern.parse "(?!a|b)(?:b)" =
      .ok (.ahead false (.alt [.lit 'a', .lit 'b']) (.lit 'b')) := by decide
  exact ⟨S, T, hS, hT, hbar, hpair.hasSpans hpairparse,
    (hbounds 0 2 (by decide) (by decide)).hasSpans hboundsparse, hnot.hasSpans hnotparse⟩

end PatternSweep
