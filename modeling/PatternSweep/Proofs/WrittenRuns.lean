import PatternSweep.Proofs.ReaderRuns
import PatternSweep.Proofs.Writing

/-!
# Reading written patterns

A reader that takes the text of a pattern, whatever the pattern is, either comes to a fault or holds
the collapsed pattern, and then the pattern is sound (`follows_chars`). An empty sequence or
alternation leaves a draft without a factor, which no bar, no parenthesis and no end accepts; a
class without members, a reversed range and counts out of order are faults at once.
-/

namespace PatternSweep

open Grammar

namespace Reader

/-! ### Classes and quantifiers -/

section

variable {r' : Reader} {stack : List Opening} {draft : Draft} {n : Nat}

/-- Members in writing that are read up to the closing bracket have no reversed range, and there is
one, unless one came before. -/
theorem regular_of_runs_members {k : Brackets} {items : List ClassItem}
    (h : (Reader.mk n stack draft (.brackets k .item)).Runs
      (items.flatMap ClassItem.chars ++ [']']) r') :
    k.items.reverse ++ items ≠ [] ∧
      ∀ first last, .range first last ∈ items → first ≤ last := by
  induction items generalizing n k with
  | nil =>
    obtain ⟨hne, -⟩ := endBrackets_eq_ok_iff.1 (runs_singleton_iff.1 h)
    exact ⟨by simpa using hne, nofun⟩
  | cons i items ih =>
    rw [List.flatMap_cons] at h
    refine ⟨by simp, ?_⟩
    cases i with
    | char c =>
      obtain ⟨n', start, hchar⟩ := runs_bracketChar n stack draft k (isBracketChar_written c)
      have hdash := head?_flatMap_chars_ne (d := '-') (by decide) (by decide) items
      rw [List.append_assoc] at h
      have hrest := (runs_single_iff fun hhead => absurd hhead hdash).1 (h.rest hchar)
      simpa using (ih hrest).2
    | range first last =>
      obtain ⟨n', start, hchar⟩ := runs_bracketChar n stack draft k (isBracketChar_written first)
      rw [ClassItem.chars, List.append_assoc, List.append_assoc] at h
      have hdash := (h.rest hchar).tail rfl
      obtain ⟨m, hlast, hrest⟩ := runs_append_iff.1 hdash
      obtain ⟨hle, rfl⟩ := (runs_dash_iff (isBracketChar_written last)).1 hlast
      have hranges := (ih hrest).2
      intro a b hmem
      rcases List.mem_cons.1 hmem with heq | hmem
      · cases heq
        exact hle
      · exact hranges a b hmem
    | shorthand s =>
      rw [List.append_assoc] at h
      simpa using (ih (h.rest (runs_shorthand s))).2

/-- A class whose writing is read is regular. -/
theorem At.regular_of_runs_class {r : Reader} {k : CharClass} (hr : r.At stack draft)
    (h : r.Runs k.chars r') : (Pattern.atom (.oneOf k)).Regular 1 := by
  unfold CharClass.chars at h
  split at h
  next s hs =>
    rw [eq_ofShorthand hs]
    exact ⟨by simp [CharClass.ofShorthand], by simp [CharClass.ofShorthand]⟩
  next hs =>
    obtain ⟨n, hn⟩ := hr.step_eq (c := '[') (by decide)
    obtain ⟨m, hm, h⟩ := runs_cons_iff.1 h
    rw [hn] at hm
    cases hm
    obtain ⟨items, negated⟩ := k
    cases negated with
    | true =>
      obtain ⟨hne, hranges⟩ := regular_of_runs_members (h.tail rfl)
      exact ⟨hne, hranges⟩
    | false =>
      have hcaret := head?_flatMap_chars_ne (d := '^') (by decide) (by decide) items
      obtain ⟨hne, hranges⟩ := regular_of_runs_members ((runs_bracketStart_iff hcaret).1 h)
      exact ⟨hne, hranges⟩

/-- Behind the digits of a number that are read the number is held, and it is one of 64 bits. -/
theorem rest_of_runs_toDigits {p : Pattern} {start a : Nat} {cs : List Char}
    {part : Option Bound → BoundsPart} (hpart : IsNumberPart part)
    (h : (Reader.mk n stack draft (.bounds start p (part none))).Runs
      (Nat.toDigits 10 a ++ cs) r') :
    a < UInt64.size ∧ ∃ n', (Reader.mk n' stack draft
      (.bounds start p (part (some ⟨n, a⟩)))).Runs cs r' := by
  obtain ⟨m, hdigits, hrest⟩ := runs_append_iff.1 h
  have hisDigit : ∀ c ∈ Nat.toDigits 10 a, c.isDigit = true :=
    fun c hc => Nat.isDigit_of_mem_toDigits (by decide) (by decide) hc
  obtain ⟨hnumber, rfl⟩ := (runs_number_iff hpart Nat.toDigits_ne_nil hisDigit).1 hdigits
  rw [Nat.ofDigitChars_toDigits (by decide) (by decide)] at hnumber hrest
  exact ⟨hnumber.lt, _, hrest⟩

/-- A quantifier in writing that is read has counts of 64 bits, the least not above the greatest. -/
theorem counts_of_runs_quantifierChars {p : Pattern} {min : Nat} {max : Option Nat}
    (h : (Reader.mk n stack draft (.quantifier p)).Runs (quantifierChars min max) r') :
    min < UInt64.size ∧ (∀ m ∈ max, m < UInt64.size) ∧ ∀ m ∈ max, min ≤ m := by
  unfold quantifierChars at h
  split at h
  · simp [UInt64.size]
  · simp [UInt64.size]
  · simp [UInt64.size]
  · obtain ⟨hmin, -⟩ := rest_of_runs_toDigits .min (h.tail rfl)
    simpa using hmin
  next m _ =>
    split at h
    next heq =>
      subst heq
      obtain ⟨hmin, -⟩ := rest_of_runs_toDigits .min (h.tail rfl)
      simpa using hmin
    next hne =>
      rw [List.append_assoc] at h
      obtain ⟨hmin, n', h⟩ := rest_of_runs_toDigits .min (h.tail rfl)
      obtain ⟨hmax, n'', h⟩ := rest_of_runs_toDigits (.max min) (h.tail rfl)
      obtain ⟨hle, -⟩ := step_close_between_iff.1 (runs_singleton_iff.1 h)
      simpa using ⟨hmin, hmax, hle⟩

/-- A quantifier in writing that is read makes a repetition of the atom before it. -/
theorem at_of_runs_quantifierChars {p : Pattern} {min : Nat} {max : Option Nat}
    (h : (Reader.mk n stack draft (.quantifier p)).Runs (quantifierChars min max) r') :
    r'.At stack (draft.push (.repeated p min max)) := by
  obtain ⟨hmin, hmax, hle⟩ := counts_of_runs_quantifierChars h
  obtain ⟨n', hruns⟩ := runs_quantifier (isQuantifier_quantifierChars hmin hmax hle)
  rw [h.unique hruns]
  exact at_factor

end

/-! ### Patterns -/

/-- What a reader does with the text of the pattern, in parentheses if `yes`, where it stands for a
phrase of the kind. -/
def Follows (p : Pattern) : Phrase → Bool → Prop
  | .expression, yes => ∀ (r r' : Reader) (stack : List Opening), r.At stack .empty →
    Inside stack → r.Runs (parenthesized yes p.chars) r' →
      ∃ draft, r'.At stack draft ∧ ∀ q, draft.expression? = some q → p.Sound ∧ q = p.collapse
  | .term, yes => ∀ (r r' : Reader) (stack : List Opening) (branches : List Pattern),
    r.At stack ⟨branches, []⟩ → Inside stack → r.Runs (parenthesized yes p.chars) r' →
      ∃ draft, r'.At stack draft ∧ draft.branches = branches ∧
        ∀ q, draft.branch? = some q → p.Sound ∧ q = p.collapse
  | .factor, yes => ∀ (r r' : Reader) (stack : List Opening) (draft : Draft), r.At stack draft →
    Inside stack → r.Runs (parenthesized yes p.chars) r' →
      p.Sound ∧ r'.At stack (draft.push p.collapse)
  | .atom, yes => ∀ (r r' : Reader) (stack : List Opening) (draft : Draft), r.At stack draft →
    r.Runs (parenthesized yes p.chars) r' → p.Sound ∧ r'.After stack draft p.collapse

section

variable {r r' : Reader} {stack : List Opening} {draft : Draft} {branches : List Pattern}
  {p c : Pattern} {ps : List Pattern}

/-- Around the text of a pattern a group can only be closed if the pattern is sound. -/
theorem Follows.inside (h : Follows p .expression false) {kind : GroupKind} {o : List Char}
    (ho : Opens kind o) (hr : r.At stack draft) {cs : List Char}
    (hruns : r.Runs (o ++ p.chars ++ ')' :: cs) r') :
    p.Sound ∧ ∃ (k m : Reader) (start : Nat) (inner : Draft),
      k.At (.group start kind draft :: stack) inner ∧ inner.expression? = some p.collapse ∧
        k.step ')' = .ok m ∧ m.Runs cs r' := by
  obtain ⟨k, hbefore, hclose⟩ := runs_append_iff.1 hruns
  obtain ⟨l, hopens, hinner⟩ := runs_append_iff.1 hbefore
  obtain ⟨l', start, hopens', hlat⟩ := hr.runs_opens (hr.lt_of_runs_opens ho hopens) ho
  obtain rfl := hopens.unique hopens'
  obtain ⟨inner, hkat, hexpression⟩ := h l k _ hlat trivial hinner
  obtain ⟨m, hm, hrest⟩ := runs_cons_iff.1 hclose
  obtain ⟨q, hq⟩ := hkat.expression?_of_step_close hm
  obtain ⟨hsound, rfl⟩ := hexpression q hq
  exact ⟨hsound, k, m, start, inner, hkat, hq, hm, hrest⟩

theorem lifts_follows (p : Pattern) : Lifts (Follows p) where
  group h r r' stack draft hr hruns := by
    obtain ⟨hsound, k, m, start, inner, hkat, hinner, hm, hrest⟩ := h.inside .plain hr hruns
    obtain rfl := runs_nil_iff.1 hrest
    obtain ⟨m', hm', hafter⟩ := hkat.step_close_plain hinner
    obtain rfl := Except.ok.inj (hm.symm.trans hm')
    exact ⟨hsound, hafter⟩
  once h r r' stack draft hr hin hruns := by
    obtain ⟨hsound, hafter⟩ := h r r' stack draft hr hruns
    exact ⟨hsound, hafter.at hin⟩
  single h r r' stack branches hr hin hruns := by
    obtain ⟨hsound, hat⟩ := h r r' stack _ hr hin hruns
    exact ⟨_, hat, rfl, fun q hq => ⟨hsound, (Option.some.inj hq).symm⟩⟩
  whole h r r' stack hr hin hruns := by
    obtain ⟨draft, hat, hbranches, hbranch⟩ := h r r' stack [] hr hin hruns
    refine ⟨draft, hat, fun q hq => ?_⟩
    obtain ⟨b, hb, -⟩ := Option.map_eq_some_iff.1 hq
    rw [Draft.expression?_eq hb, hbranches] at hq
    obtain rfl : b = q := Option.some.inj hq
    exact hbranch b hb

theorem follows_atom (a : Atom) : Follows (.atom a) .atom false := by
  intro r r' stack draft hr hruns
  have hregular : (Pattern.atom a).Regular 1 := by
    cases a with
    | literal | any => trivial
    | oneOf k => exact hr.regular_of_runs_class hruns
  obtain ⟨m, hm, hafter⟩ :=
    carries_of_derives (Pattern.derives_atomChars stack.length hregular) r stack draft hr rfl
  obtain rfl := hruns.unique hm
  exact ⟨Pattern.everywhere_atom_iff.2 hregular, hafter⟩

theorem follows_ahead {positive : Bool} (hc : Follows c .expression false)
    (hp : Follows p .atom p.needsGroup) : Follows (.ahead positive c p) .atom false := by
  intro r r' stack draft hr hruns
  obtain ⟨o, ho, htext⟩ : ∃ o, Opens (.condition positive) o ∧ (Pattern.ahead positive c p).chars =
      o ++ c.chars ++ ')' :: parenthesized p.needsGroup p.chars := by
    cases positive with
    | true => exact ⟨_, .ahead, rfl⟩
    | false => exact ⟨_, .notAhead, rfl⟩
  rw [parenthesized_false, htext] at hruns
  obtain ⟨hcsound, k, m, start, inner, hkat, hinner, hm, hbody⟩ := hc.inside ho hr hruns
  obtain ⟨m', hm', hmat⟩ := hkat.step_close_condition hinner
  obtain rfl := Except.ok.inj (hm.symm.trans hm')
  -- the body settles the lookahead that waits for it
  obtain ⟨hpsound, hafter⟩ := hp m r' _ draft hmat hbody
  exact ⟨Pattern.everywhere_ahead_iff.2 ⟨trivial, hcsound, hpsound⟩, hafter⟩

theorem follows_repeated {min : Nat} {max : Option Nat} (hp : Follows p .atom p.needsGroup) :
    Follows (.repeated p min max) .factor false := by
  intro r r' stack draft hr hin hruns
  obtain ⟨m, helement, hquantifier⟩ := runs_append_iff.1 hruns
  obtain ⟨hsound, n, rfl⟩ := hp r m stack draft hr helement
  rw [settle_of_inside hin] at hquantifier
  obtain ⟨-, -, hle⟩ := counts_of_runs_quantifierChars hquantifier
  exact ⟨Pattern.everywhere_repeated_iff.2 ⟨hle, hsound⟩, at_of_runs_quantifierChars hquantifier⟩

/-- The parts of a sequence are put into the draft one after the other. -/
theorem at_of_runs_seqChars (h : ∀ p ∈ ps, Follows p .factor p.isLoose) (hr : r.At stack draft)
    (hin : Inside stack) (hruns : r.Runs (Pattern.seqChars ps) r') :
    (∀ p ∈ ps, p.Sound) ∧
      r'.At stack ⟨draft.branches, (ps.map Pattern.collapse).reverse ++ draft.factors⟩ := by
  induction ps generalizing r draft with
  | nil =>
    obtain rfl := runs_nil_iff.1 hruns
    exact ⟨nofun, hr⟩
  | cons p ps ih =>
    obtain ⟨hp, hps⟩ := List.forall_mem_cons.1 h
    obtain ⟨m, hm, hrest⟩ := runs_append_iff.1 hruns
    obtain ⟨hsound, hmat⟩ := hp r m stack draft hr hin hm
    obtain ⟨hsounds, hat⟩ := ih hps hmat hrest
    refine ⟨List.forall_mem_cons.2 ⟨hsound, hsounds⟩, ?_⟩
    rw [List.map_cons, List.reverse_cons, List.append_assoc]
    exact hat

theorem follows_seq (h : ∀ p ∈ ps, Follows p .factor p.isLoose) :
    Follows (.seq ps) .term false := by
  intro r r' stack branches hr hin hruns
  obtain ⟨hsounds, hat⟩ := at_of_runs_seqChars h hr hin hruns
  rw [List.append_nil] at hat
  refine ⟨_, hat, rfl, fun q hq => ?_⟩
  -- without a part there is no factor, and the open branch is none
  have hne : ps ≠ [] := by
    rintro rfl
    cases hq
  rw [Draft.branch?_reverse (by simpa using hne), Option.some.injEq] at hq
  rw [Pattern.collapse, Pattern.collapses_eq_map]
  exact ⟨Pattern.everywhere_seq_iff.2 ⟨List.length_pos_iff.2 hne, hsounds⟩, hq.symm⟩

/-- The branches of an alternation are put into the draft, the last as its open branch. -/
theorem at_of_runs_altChars (h : ∀ x ∈ p :: ps, Follows x .term x.isAlt)
    (hr : r.At stack ⟨branches, []⟩) (hin : Inside stack)
    (hruns : r.Runs (Pattern.altChars (p :: ps)) r') :
    ∃ draft, r'.At stack draft ∧ ∀ q, draft.branch? = some q → (∀ x ∈ p :: ps, x.Sound) ∧
      draft.branches.reverse ++ [q] = branches.reverse ++ (p :: ps).map Pattern.collapse := by
  induction ps generalizing r branches p with
  | nil =>
    rw [Pattern.altChars, Pattern.moreAltChars, List.append_nil] at hruns
    obtain ⟨draft, hat, rfl, hbranch⟩ :=
      h p List.mem_cons_self r r' stack branches hr hin hruns
    refine ⟨draft, hat, fun q hq => ?_⟩
    obtain ⟨hsound, rfl⟩ := hbranch q hq
    exact ⟨List.forall_mem_singleton.2 hsound, rfl⟩
  | cons p' ps ih =>
    obtain ⟨hp, hps⟩ := List.forall_mem_cons.1 h
    rw [Pattern.altChars_cons_cons] at hruns
    obtain ⟨m, hm, hbar⟩ := runs_append_iff.1 hruns
    obtain ⟨k, hk, hrest⟩ := runs_cons_iff.1 hbar
    obtain ⟨draft, hmat, rfl, hbranch⟩ := hp r m stack branches hr hin hm
    obtain ⟨next, hnext⟩ := hmat.nextBranch?_of_step_bar hin hk
    obtain ⟨k', hk', hkat⟩ := hmat.step_bar hin hnext
    obtain rfl := Except.ok.inj (hk.symm.trans hk')
    obtain ⟨q, hq, rfl⟩ := Option.map_eq_some_iff.1 hnext
    obtain ⟨hsound, rfl⟩ := hbranch q hq
    obtain ⟨draft', hat, hlast⟩ := ih hps hkat hrest
    refine ⟨draft', hat, fun q hq => ?_⟩
    obtain ⟨hsounds, hbranches⟩ := hlast q hq
    refine ⟨List.forall_mem_cons.2 ⟨hsound, hsounds⟩, ?_⟩
    rw [hbranches]
    simp

theorem follows_alt (h : ∀ p ∈ ps, Follows p .term p.isAlt) :
    Follows (.alt ps) .expression false := by
  intro r r' stack hr hin hruns
  cases ps with
  | nil =>
    obtain rfl := runs_nil_iff.1 hruns
    exact ⟨.empty, hr, nofun⟩
  | cons p ps =>
    obtain ⟨draft, hat, hlast⟩ := at_of_runs_altChars h hr hin hruns
    refine ⟨draft, hat, fun q hq => ?_⟩
    obtain ⟨b, hb, -⟩ := Option.map_eq_some_iff.1 hq
    obtain ⟨hsounds, hbranches⟩ := hlast b hb
    rw [Draft.expression?_eq hb, hbranches, Option.some.injEq] at hq
    rw [Pattern.collapse, Pattern.collapses_eq_map]
    exact ⟨Pattern.everywhere_alt_iff.2 ⟨Nat.succ_pos _, hsounds⟩, hq.symm⟩

end

/-- **A reader that takes the text of a pattern holds the collapsed pattern**, and the pattern is
sound. -/
theorem follows_chars (p : Pattern) (kind : Phrase) : Follows p kind (kind.groups p) := by
  induction p using Pattern.induct generalizing kind with
  | atom a => exact (lifts_follows _).all (follows_atom a) kind
  | seq ps ih => exact (lifts_follows _).all (follows_seq fun p hp => ih p hp .factor) kind
  | alt ps ih => exact (lifts_follows _).all (follows_alt fun p hp => ih p hp .term) kind
  | repeated e min max ih => exact (lifts_follows _).all (follows_repeated (ih .atom)) kind
  | ahead positive c p ihc ihp =>
    exact (lifts_follows _).all (follows_ahead (ihc .expression) (ihp .atom)) kind

end Reader

/-- What a pattern in writing is read as. -/
theorem Pattern.parse_render_eq_ok {t u : Pattern} (h : parse t.render = .ok u) :
    t.Sound ∧ u = t.collapse := by
  rw [parse, render, String.toList_ofList] at h
  obtain ⟨r, hruns, hfinish⟩ := parseChars_eq_ok_iff.1 h
  obtain ⟨draft, hat, hexpression⟩ :=
    Reader.follows_chars t .expression _ r [] Reader.at_factor trivial hruns
  obtain ⟨-, hu⟩ := hat.finish_eq_ok_iff.1 hfinish
  exact hexpression u hu

end PatternSweep
