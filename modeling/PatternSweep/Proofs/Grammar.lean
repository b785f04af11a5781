import PatternSweep.Pattern.Parse

/-!
# The grammar of written patterns

`Derives kind d u p` says that the text `u`, inside `d` groups, is a phrase of the given kind and
denotes the pattern `p`. It is a definition by rules and knows of no reading place, no stack and no
error:

* an expression is one or more terms with bars between them, a term one or more factors;
* a factor is an atom with at most one quantifier;
* an atom is a character, a dot, a backslash and a character, a bracket expression, an expression
  in parentheses, or a condition in parentheses followed by the atom that it is a lookahead for.

Groups nest at most `nestingLimit` deep, where a lookahead counts as a group around its condition
and around its body. The members of a bracket expression are taken from left to right
(`IsMembers`): a character starts a range if a hyphen follows it that is not the last character
before the closing bracket.
-/

namespace PatternSweep

namespace Grammar

/-! ### Characters after a backslash -/

/-- The letters that stand for a control character after a backslash. -/
def controls : List (Char × Char) :=
  [('n', '\n'), ('t', '\t'), ('r', '\r'), ('f', '\x0c'), ('v', '\x0b'), ('0', '\x00')]

/-- After a backslash `l` stands for the character `c`: for a control character, or for itself if
it is neither the letter of one nor that of a class. -/
inductive IsEscape : Char → Char → Prop
  | control {l c : Char} (h : (l, c) ∈ controls) : IsEscape l c
  | itself {c : Char} (hcontrol : ∀ d, (c, d) ∉ controls)
      (hclass : ∀ s : Shorthand, c ≠ s.letter) : IsEscape c c

/-! ### Quantifiers -/

/-- The digits `ds` are a number of at most 64 bits whose value is `n`. -/
structure IsNumber (ds : List Char) (n : Nat) : Prop where
  ne_nil : ds ≠ []
  isDigit : ∀ c ∈ ds, c.isDigit = true
  value : Nat.ofDigitChars 10 ds 0 = n
  lt : n < UInt64.size

/-- A quantifier for the counts from a least to a greatest one. -/
inductive IsQuantifier : List Char → Nat → Option Nat → Prop
  | star : IsQuantifier ['*'] 0 none
  | plus : IsQuantifier ['+'] 1 none
  | optional : IsQuantifier ['?'] 0 (some 1)
  | exactly {ds : List Char} {n : Nat} (h : IsNumber ds n) :
      IsQuantifier ('{' :: ds ++ ['}']) n (some n)
  | atLeast {ds : List Char} {n : Nat} (h : IsNumber ds n) :
      IsQuantifier ('{' :: ds ++ [',', '}']) n none
  | between {ds es : List Char} {n m : Nat} (hn : IsNumber ds n) (hm : IsNumber es m)
      (hle : n ≤ m) : IsQuantifier ('{' :: ds ++ ',' :: es ++ ['}']) n (some m)

/-! ### Bracket expressions -/

/-- A character inside brackets, alone or after a backslash. -/
inductive IsBracketChar : List Char → Char → Prop
  | plain {c : Char} (hbracket : c ≠ ']') (hbackslash : c ≠ '\\') : IsBracketChar [c] c
  | escaped {l c : Char} (h : IsEscape l c) : IsBracketChar ['\\', l] c

/-- What stands before the closing bracket, from left to right, and the members that it denotes. -/
inductive IsMembers : List Char → List ClassItem → Prop
  | nil : IsMembers [] []
  | shorthand (s : Shorthand) {u : List Char} {is : List ClassItem} (h : IsMembers u is) :
      IsMembers ('\\' :: s.letter :: u) (.shorthand s :: is)
  | char {v u : List Char} {c : Char} {is : List ClassItem} (hc : IsBracketChar v c)
      (hdash : u.head? = some '-' → u = ['-']) (h : IsMembers u is) :
      IsMembers (v ++ u) (.char c :: is)
  | range {v w u : List Char} {c d : Char} {is : List ClassItem} (hc : IsBracketChar v c)
      (hd : IsBracketChar w d) (hle : c ≤ d) (h : IsMembers u is) :
      IsMembers (v ++ '-' :: w ++ u) (.range c d :: is)

/-- A bracket expression with at least one member; a caret right after the opening bracket negates
it and is no member. -/
inductive IsBrackets : List Char → CharClass → Prop
  | plain {u : List Char} {is : List ClassItem} (h : IsMembers u is) (hne : is ≠ [])
      (hcaret : u.head? ≠ some '^') : IsBrackets ('[' :: u ++ [']']) ⟨is, false⟩
  | negated {u : List Char} {is : List ClassItem} (h : IsMembers u is) (hne : is ≠ []) :
      IsBrackets ('[' :: '^' :: u ++ [']']) ⟨is, true⟩

/-! ### Phrases -/

/-- The characters that no atom consists of. -/
def reserved : List Char := ['(', '[', '\\', '.', '*', '+', '?', '{', '|', ')', ']']

/-- The opening of a group: a parenthesis, or with a question mark what the group is for. -/
inductive Opens : GroupKind → List Char → Prop
  | plain : Opens .plain ['(']
  | marked : Opens .plain ['(', '?', ':']
  | ahead : Opens (.condition true) ['(', '?', '=']
  | notAhead : Opens (.condition false) ['(', '?', '!']

/-- A single pattern stands for itself, several are put together by `f`. -/
def oneOr (f : List Pattern → Pattern) : List Pattern → Pattern
  | [p] => p
  | ps => f ps

/-- The kinds of phrases. -/
inductive Phrase
  | expression
  | term
  | factor
  | atom

/-- The text is a phrase of the kind, inside `d` groups, and denotes the pattern. -/
inductive Derives : Phrase → Nat → List Char → Pattern → Prop
  | expression {d : Nat} (terms : List (List Char × Pattern)) (hne : terms ≠ [])
      (h : ∀ x ∈ terms, Derives .term d x.1 x.2) :
      Derives .expression d (List.intercalate ['|'] (terms.map Prod.fst))
        (oneOr .alt (terms.map Prod.snd))
  | term {d : Nat} (factors : List (List Char × Pattern)) (hne : factors ≠ [])
      (h : ∀ x ∈ factors, Derives .factor d x.1 x.2) :
      Derives .term d (factors.flatMap Prod.fst) (oneOr .seq (factors.map Prod.snd))
  | once {d : Nat} {u : List Char} {p : Pattern} (h : Derives .atom d u p) :
      Derives .factor d u p
  | quantified {d : Nat} {u v : List Char} {p : Pattern} {min : Nat} {max : Option Nat}
      (h : Derives .atom d u p) (hv : IsQuantifier v min max) :
      Derives .factor d (u ++ v) (.repeated p min max)
  | character {d : Nat} {c : Char} (h : c ∉ reserved) : Derives .atom d [c] (.lit c)
  | any {d : Nat} : Derives .atom d ['.'] (.atom .any)
  | escape {d : Nat} {l c : Char} (h : IsEscape l c) : Derives .atom d ['\\', l] (.lit c)
  | shorthand {d : Nat} (s : Shorthand) :
      Derives .atom d ['\\', s.letter] (.atom (.oneOf (.ofShorthand s)))
  | brackets {d : Nat} {u : List Char} {k : CharClass} (h : IsBrackets u k) :
      Derives .atom d u (.atom (.oneOf k))
  | group {d : Nat} {o u : List Char} {p : Pattern} (hd : d < nestingLimit) (ho : Opens .plain o)
      (h : Derives .expression (d + 1) u p) : Derives .atom d (o ++ u ++ [')']) p
  | ahead {d : Nat} {o u v : List Char} {positive : Bool} {c p : Pattern} (hd : d < nestingLimit)
      (ho : Opens (.condition positive) o) (hc : Derives .expression (d + 1) u c)
      (hp : Derives .atom (d + 1) v p) :
      Derives .atom d (o ++ u ++ ')' :: v) (.ahead positive c p)

/-! ### Lemmas on the rules -/

theorem intercalate_concat {α : Type} (sep last : List α) (xs : List (List α)) :
    List.intercalate sep (xs ++ [last]) = xs.flatMap (· ++ sep) ++ last := by
  induction xs with
  | nil => simp
  | cons x xs ih =>
    obtain ⟨y, ys, hy⟩ : ∃ y ys, xs ++ [last] = y :: ys :=
      List.exists_cons_of_ne_nil (List.append_ne_nil_of_right_ne_nil _ (List.cons_ne_nil _ _))
    rw [List.cons_append, hy, List.intercalate_cons_cons, ← hy, ih, List.flatMap_cons,
      List.append_assoc, List.append_assoc, List.append_assoc]

theorem intercalate_append_of_ne_nil {α : Type} {sep : List α} {xs ys : List (List α)}
    (hxs : xs ≠ []) (hys : ys ≠ []) :
    List.intercalate sep (xs ++ ys) =
      List.intercalate sep xs ++ sep ++ List.intercalate sep ys := by
  obtain ⟨init, last, rfl⟩ := List.eq_nil_or_concat xs |>.resolve_left hxs
  obtain ⟨init', last', rfl⟩ := List.eq_nil_or_concat ys |>.resolve_left hys
  rw [List.concat_eq_append, List.concat_eq_append, ← List.append_assoc, intercalate_concat,
    intercalate_concat, intercalate_concat, List.flatMap_append, List.flatMap_append,
    List.flatMap_singleton]
  simp only [List.append_assoc]

theorem meaning_of_mem_controls {l c : Char} (h : (l, c) ∈ controls) :
    Shorthand.ofLetter? l = none ∧ Escape.meaning l = c := by
  have hall : ∀ x ∈ controls,
      Shorthand.ofLetter? x.1 = none ∧ Escape.meaning x.1 = x.2 := by decide
  exact hall _ h

theorem meaning_eq_self {c : Char} (h : ∀ d, (c, d) ∉ controls) : Escape.meaning c = c := by
  unfold Escape.meaning
  split
  · exact absurd (by decide) (h '\n')
  · exact absurd (by decide) (h '\t')
  · exact absurd (by decide) (h '\r')
  · exact absurd (by decide) (h '\x0c')
  · exact absurd (by decide) (h '\x0b')
  · exact absurd (by decide) (h '\x00')
  · rfl

/-- What a backslash does to a character that is no letter of a class. -/
theorem isEscape_iff {l c : Char} :
    IsEscape l c ↔ Shorthand.ofLetter? l = none ∧ Escape.meaning l = c := by
  constructor
  · intro h
    cases h with
    | control h => exact meaning_of_mem_controls h
    | itself hcontrol hclass =>
      refine ⟨Option.eq_none_iff_forall_ne_some.2 fun s hs => ?_, meaning_eq_self hcontrol⟩
      exact hclass s (Shorthand.ofLetter?_eq_some_iff.1 hs)
  · rintro ⟨hletter, rfl⟩
    by_cases h : ∃ c, (l, c) ∈ controls
    · obtain ⟨c, hc⟩ := h
      rw [(meaning_of_mem_controls hc).2]
      exact .control hc
    · have hcontrol : ∀ d, (l, d) ∉ controls := fun d hd => h ⟨d, hd⟩
      rw [meaning_eq_self hcontrol]
      refine .itself hcontrol fun s hs => ?_
      rw [Shorthand.ofLetter?_eq_some_iff.2 hs] at hletter
      cases hletter

/-- A single factor is a term. -/
theorem Derives.term_of_factor {d : Nat} {u : List Char} {p : Pattern}
    (h : Derives .factor d u p) : Derives .term d u p := by
  have hterm := Derives.term [(u, p)] (by simp) (List.forall_mem_singleton.2 h)
  rw [List.flatMap_cons, List.flatMap_nil, List.append_nil] at hterm
  exact hterm

/-- A single term is an expression. -/
theorem Derives.expression_of_term {d : Nat} {u : List Char} {p : Pattern}
    (h : Derives .term d u p) : Derives .expression d u p := by
  have hexpression := Derives.expression [(u, p)] (by simp) (List.forall_mem_singleton.2 h)
  rw [List.map_singleton, List.map_singleton, List.intercalate_singleton] at hexpression
  exact hexpression

theorem oneOr_of_two_le {f : List Pattern → Pattern} {ps : List Pattern} (h : 2 ≤ ps.length) :
    oneOr f ps = f ps := by
  match ps, h with
  | _ :: _ :: _, _ => rfl

end Grammar

end PatternSweep
