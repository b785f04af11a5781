import PatternSweep.Proofs.Shapes

/-!
# Written patterns are derived

The text of a sound pattern whose counts and whose nesting have room is an expression of the
grammar, and it denotes the pattern with single parts in the place of their sequences and
alternations (`derives_chars`). Wherever the grammar wants a phrase of some kind, the text stands in
parentheses if it is not one (`Phrase.groups`); so each constructor has to be looked at for one kind
of phrase only, and the others follow (`Lifts.all`).
-/

namespace PatternSweep

open Grammar

/-! ### Characters -/

section

variable {marked : List Char} {c d : Char}

theorem isEscape_of_letter? {l : Char} (h : Escape.letter? c = some l) : IsEscape l c := by
  refine isEscape_iff.2 ⟨?_, Escape.meaning_of_letter h⟩
  unfold Escape.letter? at h
  repeat' split at h
  all_goals cases h
  all_goals rfl

/-- A character is written after a backslash, or it is none of those that need one. -/
theorem written_cases (hmarked : ∀ d ∈ marked, IsEscape d d) (c : Char) :
    (∃ l, IsEscape l c ∧ Escape.written marked c = ['\\', l]) ∨
      c ∉ marked ∧ Escape.written marked c = [c] := by
  unfold Escape.written
  split
  next l hl => exact .inl ⟨l, isEscape_of_letter? hl, rfl⟩
  next hl =>
    split
    next hc => exact .inl ⟨c, hmarked c (by simpa using hc), rfl⟩
    next hc => exact .inr ⟨by simpa using hc, rfl⟩

theorem isEscape_of_mem (h : c ∈ Pattern.metacharacters ++ CharClass.metacharacters) :
    IsEscape c c := by
  have hall : (Pattern.metacharacters ++ CharClass.metacharacters).all fun c =>
      Shorthand.ofLetter? c = none ∧ Escape.meaning c = c := by decide
  exact isEscape_iff.2 (of_decide_eq_true (List.all_eq_true.1 hall c h))

/-- A character in writing is an atom. -/
theorem derives_written (depth : Nat) (c : Char) :
    Derives .atom depth (Escape.written Pattern.metacharacters c) (.lit c) := by
  obtain ⟨l, hl, hw⟩ | ⟨hc, hw⟩ :=
    written_cases (fun _ h => isEscape_of_mem (List.mem_append_left _ h)) c
  · rw [hw]
    exact .escape hl
  · have hsub : reserved ⊆ Pattern.metacharacters := by decide
    rw [hw]
    exact .character fun h => hc (hsub h)

/-- A character in writing stands for itself inside brackets. -/
theorem isBracketChar_written (c : Char) :
    IsBracketChar (Escape.written CharClass.metacharacters c) c := by
  obtain ⟨l, hl, hw⟩ | ⟨hc, hw⟩ :=
    written_cases (fun _ h => isEscape_of_mem (List.mem_append_right _ h)) c
  · rw [hw]
    exact .escaped hl
  · rw [hw]
    refine .plain ?_ ?_
    · rintro rfl
      exact hc (by decide)
    · rintro rfl
      exact hc (by decide)

/-- Inside brackets no character in writing starts with one that needs a backslash. -/
theorem head?_written_ne (hd : d ∈ CharClass.metacharacters) (hne : d ≠ '\\') (c : Char)
    (u : List Char) : (Escape.written CharClass.metacharacters c ++ u).head? ≠ some d := by
  obtain ⟨l, -, hw⟩ | ⟨hc, hw⟩ :=
    written_cases (fun _ h => isEscape_of_mem (List.mem_append_right _ h)) c
  · rw [hw]
    exact fun h => hne (Option.some.inj h).symm
  · rw [hw]
    rintro h
    exact hc (Option.some.inj h ▸ hd)

/-! ### Classes -/

theorem head?_flatMap_chars_ne (hd : d ∈ CharClass.metacharacters) (hne : d ≠ '\\')
    (items : List ClassItem) : (items.flatMap ClassItem.chars).head? ≠ some d := by
  cases items with
  | nil => nofun
  | cons i items =>
    rw [List.flatMap_cons]
    cases i with
    | char c => exact head?_written_ne hd hne c _
    | range first last =>
      rw [ClassItem.chars, List.append_assoc]
      exact head?_written_ne hd hne first _
    | shorthand s => exact fun h => hne (Option.some.inj h).symm

/-- Members in writing are read as they are, unless there is a reversed range. -/
theorem isMembers_flatMap_chars {items : List ClassItem}
    (h : ∀ first last, .range first last ∈ items → first ≤ last) :
    IsMembers (items.flatMap ClassItem.chars) items := by
  induction items with
  | nil => exact .nil
  | cons i items ih =>
    have hitems := ih fun first last hmem => h first last (List.mem_cons_of_mem _ hmem)
    rw [List.flatMap_cons]
    cases i with
    | char c =>
      -- what follows does not start with a hyphen, for a hyphen has a backslash before it
      have hdash := head?_flatMap_chars_ne (d := '-') (by decide) (by decide) items
      exact .char (isBracketChar_written c) (fun h => absurd h hdash) hitems
    | range first last =>
      exact .range (isBracketChar_written first) (isBracketChar_written last)
        (h first last List.mem_cons_self) hitems
    | shorthand s => exact .shorthand s hitems

theorem eq_ofShorthand {k : CharClass} {s : Shorthand} (h : k.asShorthand? = some s) :
    k = .ofShorthand s := by
  unfold CharClass.asShorthand? at h
  split at h
  · cases h
    rfl
  · cases h

/-- The class of one shorthand is written without brackets, every other class with them. -/
theorem derives_classChars (depth : Nat) {k : CharClass}
    (hk : (Pattern.atom (.oneOf k)).Regular 1) :
    Derives .atom depth k.chars (.atom (.oneOf k)) := by
  obtain ⟨hne, hranges⟩ := hk
  have hmembers := isMembers_flatMap_chars hranges
  unfold CharClass.chars
  split
  next s hs =>
    rw [eq_ofShorthand hs]
    exact .shorthand s
  next hs =>
    obtain ⟨items, negated⟩ := k
    cases negated with
    | true => exact .brackets (.negated hmembers hne)
    | false =>
      exact .brackets (.plain hmembers hne (head?_flatMap_chars_ne (by decide) (by decide) items))

end

/-! ### Quantifiers -/

theorem isNumber_toDigits {n : Nat} (h : n < UInt64.size) : IsNumber (Nat.toDigits 10 n) n where
  ne_nil := Nat.toDigits_ne_nil
  isDigit _ hc := Nat.isDigit_of_mem_toDigits (by decide) (by decide) hc
  value := Nat.ofDigitChars_toDigits (by decide) (by decide)
  lt := h

theorem isQuantifier_quantifierChars {min : Nat} {max : Option Nat} (hmin : min < UInt64.size)
    (hmax : ∀ m ∈ max, m < UInt64.size) (hle : ∀ m ∈ max, min ≤ m) :
    IsQuantifier (quantifierChars min max) min max := by
  unfold quantifierChars
  split
  · exact .star
  · exact .plus
  · exact .optional
  · exact .atLeast (isNumber_toDigits hmin)
  next m _ =>
    split
    next heq =>
      subst heq
      exact .exactly (isNumber_toDigits hmin)
    next hne =>
      exact .between (isNumber_toDigits hmin) (isNumber_toDigits (hmax m rfl)) (hle m rfl)

/-! ### Kinds of phrases -/

namespace Grammar

/-- Whether the text of a pattern needs parentheses to be a phrase of the kind. -/
def Phrase.groups : Phrase → Pattern → Bool
  | expression, _ => false
  | term, p => p.isAlt
  | factor, p => p.isLoose
  | atom, p => p.needsGroup

/-- The kind of phrase that the text of a pattern is without parentheses. -/
def Phrase.of : Pattern → Phrase
  | .alt _ => expression
  | .seq _ => term
  | .repeated _ _ _ => factor
  | .atom _ | .ahead _ _ _ => atom

/-- What holds of a text, as a phrase of some kind and with or without parentheses, is handed on
along the rules of the grammar that have one part. -/
structure Lifts (W : Phrase → Bool → Prop) : Prop where
  group : W .expression false → W .atom true
  once {yes : Bool} : W .atom yes → W .factor yes
  single {yes : Bool} : W .factor yes → W .term yes
  whole {yes : Bool} : W .term yes → W .expression yes

/-- It suffices to look at the kind of phrase that a pattern is by itself. -/
theorem Lifts.all {W : Phrase → Bool → Prop} (hW : Lifts W) {p : Pattern} (h : W (.of p) false)
    (kind : Phrase) : W kind (kind.groups p) := by
  cases p with
  | atom | ahead =>
    cases kind with
    | atom => exact h
    | factor => exact hW.once h
    | term => exact hW.single (hW.once h)
    | expression => exact hW.whole (hW.single (hW.once h))
  | repeated =>
    have hexpression := hW.whole (hW.single h)
    cases kind with
    | atom => exact hW.group hexpression
    | factor => exact h
    | term => exact hW.single h
    | expression => exact hexpression
  | seq =>
    have hatom := hW.group (hW.whole h)
    cases kind with
    | atom => exact hatom
    | factor => exact hW.once hatom
    | term => exact h
    | expression => exact hW.whole h
  | alt =>
    have hatom := hW.group h
    cases kind with
    | atom => exact hatom
    | factor => exact hW.once hatom
    | term => exact hW.single (hW.once hatom)
    | expression => exact h

end Grammar

/-! ### Derivations -/

theorem parenthesized_false (cs : List Char) : parenthesized false cs = cs := rfl

namespace Pattern

variable {p : Pattern} {ps : List Pattern}

theorem seqChars_eq (ps : List Pattern) :
    seqChars ps = ps.flatMap fun p => parenthesized p.isLoose p.chars := by
  induction ps with
  | nil => rfl
  | cons p ps ih => rw [seqChars, ih, List.flatMap_cons]

theorem altChars_cons_cons (p q : Pattern) (ps : List Pattern) :
    altChars (p :: q :: ps) = parenthesized p.isAlt p.chars ++ '|' :: altChars (q :: ps) := rfl

theorem altChars_eq (ps : List Pattern) :
    altChars ps = List.intercalate ['|'] (ps.map fun p => parenthesized p.isAlt p.chars) := by
  cases ps with
  | nil => rfl
  | cons p ps =>
    induction ps generalizing p with
    | nil => simp [altChars, moreAltChars]
    | cons q qs ih =>
      have hq := ih q
      rw [List.map_cons] at hq
      rw [altChars_cons_cons, hq, List.map_cons, List.map_cons, List.intercalate_cons_cons,
        List.append_assoc, List.singleton_append]

/-- The text of the pattern, in parentheses if `yes`, is a phrase of the kind wherever there is room
for the groups in it, and denotes the collapsed pattern. -/
def Writes (p : Pattern) (kind : Phrase) (yes : Bool) : Prop :=
  ∀ d, d + grouped yes p.nesting ≤ nestingLimit →
    Derives kind d (parenthesized yes p.chars) p.collapse

theorem lifts_writes (p : Pattern) : Lifts p.Writes where
  group h d hd := by
    rw [grouped_true] at hd
    have hinner := h (d + 1) (by rw [grouped_false]; omega)
    exact .group (by omega) .plain hinner
  once h d hd := .once (h d hd)
  single h d hd := .term_of_factor (h d hd)
  whole h d hd := .expression_of_term (h d hd)

/-- Where there is room for several parts, there is room for each. -/
theorem derives_parts {kind : Phrase} {loose : Pattern → Bool} {d : Nat}
    (h : ∀ p ∈ ps, p.Writes kind (loose p)) (hd : d + partNesting loose ps ≤ nestingLimit) :
    ∀ x ∈ ps.map fun p => (parenthesized (loose p) p.chars, p.collapse),
      Derives kind d x.1 x.2 := by
  have hroom := partNesting_le_iff.1 (Nat.le_refl (partNesting loose ps))
  refine List.forall_mem_map.2 fun p hp => ?_
  exact h p hp d (Nat.le_trans (Nat.add_le_add_left (hroom p hp) d) hd)

theorem writes_seq (hne : ps ≠ []) (h : ∀ p ∈ ps, p.Writes .factor p.isLoose) :
    (Pattern.seq ps).Writes .term false := by
  intro d hd
  have hfactors := Derives.term _ (by simpa using hne) (derives_parts h hd)
  rw [List.flatMap_map, List.map_map] at hfactors
  rw [parenthesized_false, chars, seqChars_eq, collapse, collapses_eq_map]
  exact hfactors

theorem writes_alt (hne : ps ≠ []) (h : ∀ p ∈ ps, p.Writes .term p.isAlt) :
    (Pattern.alt ps).Writes .expression false := by
  intro d hd
  have hterms := Derives.expression _ (by simpa using hne) (derives_parts h hd)
  rw [List.map_map, List.map_map] at hterms
  rw [parenthesized_false, chars, altChars_eq, collapse, collapses_eq_map]
  exact hterms

theorem derives_atomChars (d : Nat) {a : Atom} (h : (Pattern.atom a).Regular 1) :
    Derives .atom d a.chars (.atom a) := by
  cases a with
  | literal c => exact derives_written d c
  | any => exact .any
  | oneOf k => exact derives_classChars d h

theorem writes_atom {a : Atom} (h : (Pattern.atom a).Regular 1) :
    (Pattern.atom a).Writes .atom false := fun d _ => derives_atomChars d h

theorem writes_repeated {e : Pattern} {min : Nat} {max : Option Nat}
    (hregular : (Pattern.repeated e min max).Regular 1)
    (hcounts : (Pattern.repeated e min max).HasWordCounts) (h : e.Writes .atom e.needsGroup) :
    (Pattern.repeated e min max).Writes .factor false := fun d hd =>
  .quantified (h d hd) (isQuantifier_quantifierChars hcounts.1 hcounts.2 hregular)

theorem writes_ahead {positive : Bool} {c : Pattern} (hc : c.Writes .expression false)
    (h : p.Writes .atom p.needsGroup) : (Pattern.ahead positive c p).Writes .atom false := by
  intro d hd
  rw [grouped_false, nesting] at hd
  have hcondition := hc (d + 1) (by rw [grouped_false]; omega)
  have hbody := h (d + 1) (by omega)
  cases positive with
  | true => exact .ahead (by omega) .ahead hcondition hbody
  | false => exact .ahead (by omega) .notAhead hcondition hbody

/-- **A sound pattern in writing is derived**, as a phrase of every kind, from where there is room
for its groups. -/
theorem derives_chars (hsound : p.Sound) (hcounts : p.Everywhere HasWordCounts) (kind : Phrase) :
    p.Writes kind (kind.groups p) := by
  induction p using Pattern.induct generalizing kind with
  | atom a => exact (lifts_writes _).all (writes_atom (everywhere_atom_iff.1 hsound)) kind
  | seq ps ih =>
    obtain ⟨hne, hsounds⟩ := everywhere_seq_iff.1 hsound
    have hparts : ∀ p ∈ ps, p.Writes .factor p.isLoose :=
      fun p hp => ih p hp (hsounds p hp) ((everywhere_seq_iff.1 hcounts).2 p hp) .factor
    exact (lifts_writes _).all (writes_seq (List.length_pos_iff.1 hne) hparts) kind
  | alt ps ih =>
    obtain ⟨hne, hsounds⟩ := everywhere_alt_iff.1 hsound
    have hparts : ∀ p ∈ ps, p.Writes .term p.isAlt :=
      fun p hp => ih p hp (hsounds p hp) ((everywhere_alt_iff.1 hcounts).2 p hp) .term
    exact (lifts_writes _).all (writes_alt (List.length_pos_iff.1 hne) hparts) kind
  | repeated e min max ih =>
    obtain ⟨hregular, hsound⟩ := everywhere_repeated_iff.1 hsound
    obtain ⟨hcount, hcounts⟩ := everywhere_repeated_iff.1 hcounts
    exact (lifts_writes _).all (writes_repeated hregular hcount (ih hsound hcounts .atom)) kind
  | ahead positive c p ihc ihp =>
    obtain ⟨-, hcsound, hpsound⟩ := everywhere_ahead_iff.1 hsound
    obtain ⟨-, hccounts, hpcounts⟩ := everywhere_ahead_iff.1 hcounts
    have hc := ihc hcsound hccounts .expression
    have hp := ihp hpsound hpcounts .atom
    exact (lifts_writes _).all (writes_ahead hc hp) kind

end Pattern

end PatternSweep
