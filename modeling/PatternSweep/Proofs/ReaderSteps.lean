import PatternSweep.Proofs.Grammar

/-!
# Steps of a reader

`r.Runs cs r'` says that the reader `r` takes the characters `cs` without a fault and is `r'` then,
and `r.Stops cs e` that it refuses one of them with the error `e`. Two kinds of places matter
between the characters of an atom: `r.At stack draft` says that a factor may start, inside what
`stack` has open and after what `draft` holds, and `r.After stack draft p` that the atom `p` has
just ended there. Offsets are left out of both, for they bear on the wording of faults alone.

A quantifier may follow an atom, and a question mark the parenthesis of a group. Every other
character does the same as if the atom or the parenthesis had been finished before
(`step_settled`), so there is one lemma for each character of the grammar and not one for each mode
in which it may come.
-/

namespace PatternSweep

open Grammar

namespace Reader

/-! ### Runs -/

/-- The characters take the reader `r` to `r'`. -/
def Runs (r : Reader) (cs : List Char) (r' : Reader) : Prop := cs.foldlM step r = .ok r'

section

variable {r r' r'' : Reader} {c : Char} {cs ds : List Char}

theorem runs_nil_iff : r.Runs [] r' ↔ r' = r := by
  constructor
  · intro h
    cases h
    rfl
  · rintro rfl
    rfl

theorem runs_cons_iff : r.Runs (c :: cs) r' ↔ ∃ m, r.step c = .ok m ∧ m.Runs cs r' := by
  unfold Runs
  rw [List.foldlM_cons]
  cases r.step c with
  | error e => simp [bind, Except.bind]
  | ok m => simp [bind, Except.bind]

theorem runs_append_iff : r.Runs (cs ++ ds) r' ↔ ∃ m, r.Runs cs m ∧ m.Runs ds r' := by
  induction cs generalizing r with
  | nil => simp [runs_nil_iff]
  | cons c cs ih =>
    simp only [List.cons_append, runs_cons_iff, ih]
    constructor
    · rintro ⟨m, hm, k, hk, hr⟩
      exact ⟨k, ⟨m, hm, hk⟩, hr⟩
    · rintro ⟨k, ⟨m, hm, hk⟩, hr⟩
      exact ⟨m, hm, k, hk, hr⟩

theorem runs_singleton_iff : r.Runs [c] r' ↔ r.step c = .ok r' := by
  simp [runs_cons_iff, runs_nil_iff]

theorem Runs.cons (h : r.step c = .ok r') (hcs : r'.Runs cs r'') : r.Runs (c :: cs) r'' :=
  runs_cons_iff.2 ⟨r', h, hcs⟩

theorem Runs.append (h : r.Runs cs r') (hds : r'.Runs ds r'') : r.Runs (cs ++ ds) r'' :=
  runs_append_iff.2 ⟨r', h, hds⟩

theorem Runs.unique (h : r.Runs cs r') (h' : r.Runs cs r'') : r' = r'' :=
  Except.ok.inj (h.symm.trans h')

/-- What is left of a run behind a beginning that is known. -/
theorem Runs.rest (h : r.Runs (cs ++ ds) r'') (hcs : r.Runs cs r') : r'.Runs ds r'' := by
  obtain ⟨m, hm, hds⟩ := runs_append_iff.1 h
  exact hcs.unique hm ▸ hds

theorem Runs.tail (h : r.Runs (c :: cs) r'') (hstep : r.step c = .ok r') : r'.Runs cs r'' :=
  h.rest (runs_singleton_iff.2 hstep)

/-- Readers that do the same with the first character do the same with all. -/
theorem runs_congr (h : r.step c = r'.step c) : r.Runs (c :: cs) r'' ↔ r'.Runs (c :: cs) r'' := by
  rw [runs_cons_iff, runs_cons_iff, h]

end

/-- The characters take the reader `r` to the error `e`. -/
def Stops (r : Reader) (cs : List Char) (e : SyntaxError) : Prop := cs.foldlM step r = .error e

section

variable {r : Reader} {c : Char} {cs : List Char} {e : SyntaxError}

theorem not_stops_nil : ¬r.Stops [] e := nofun

theorem stops_cons_iff :
    r.Stops (c :: cs) e ↔ r.step c = .error e ∨ ∃ m, r.step c = .ok m ∧ m.Stops cs e := by
  unfold Stops
  rw [List.foldlM_cons]
  cases r.step c with
  | error e' => simp [bind, Except.bind]
  | ok m => simp [bind, Except.bind]

/-- What follows an error is not read. -/
theorem Stops.append (h : r.Stops cs e) (ds : List Char) : r.Stops (cs ++ ds) e := by
  unfold Stops at h ⊢
  rw [List.foldlM_append, h]
  rfl

end

/-! ### Lookaheads that wait for their body -/

/-- No lookahead waits for its body. -/
def Inside : List Opening → Prop
  | .body _ _ :: _ => False
  | _ => True

section

variable {stack : List Opening} {draft : Draft} {n : Nat} {m : Mode} {p : Pattern}

theorem awaitsBody_eq_false_iff :
    (Reader.mk n stack draft m).awaitsBody = false ↔ Inside stack := by
  match stack with
  | [] => simp [awaitsBody, Inside]
  | .group .. :: _ => simp [awaitsBody, Inside]
  | .body .. :: _ => simp [awaitsBody, Inside]

theorem settle_of_inside (h : Inside stack) : settle stack p = (stack, p) := by
  match stack, h with
  | [], _ => rfl
  | .group .. :: _, _ => rfl

theorem inside_settle (stack : List Opening) (p : Pattern) : Inside (settle stack p).1 := by
  induction stack generalizing p with
  | nil => trivial
  | cons o stack ih =>
    cases o with
    | group => trivial
    | body positive c => exact ih _

end

/-! ### Between two factors -/

/-- The characters that make a quantifier of what comes before them. -/
def quantifierMarks : List Char := ['*', '+', '?', '{']

/-- The reader after the atom or the parenthesis that the next character might have continued. -/
def settled (r : Reader) : Reader :=
  match r.mode with
  | .quantifier p => { r with draft := r.draft.push p, mode := .factor }
  | .groupStart start => r.openGroup start .plain
  | _ => r

/-- A factor may start, inside `stack` and after `draft`. -/
def At (r : Reader) (stack : List Opening) (draft : Draft) : Prop :=
  ∃ n, r.settled = ⟨n, stack, draft, .factor⟩

/-- The atom `p` has just ended, inside `stack` and after `draft`. -/
def After (r : Reader) (stack : List Opening) (draft : Draft) (p : Pattern) : Prop :=
  ∃ n, r = ⟨n, (settle stack p).1, draft, .quantifier (settle stack p).2⟩

section

variable {r r' : Reader} {c : Char} {cs : List Char} {stack : List Opening} {draft : Draft}
  {p : Pattern} {n : Nat}

theorem step_settled (r : Reader) (hc : c ∉ quantifierMarks) : r.step c = r.settled.step c := by
  obtain ⟨n, stack, draft, mode⟩ := r
  cases mode with
  | quantifier p =>
    show quantifierStep _ p c = _
    unfold quantifierStep
    split
    · exact absurd (by decide) hc
    · exact absurd (by decide) hc
    · exact absurd (by decide) hc
    · exact absurd (by decide) hc
    · rfl
  | groupStart start =>
    refine if_neg ?_
    rintro rfl
    exact hc (by decide)
  | factor | groupKind | escape | bounds | bracketStart | brackets => rfl

theorem finish_settled (r : Reader) : r.finish = r.settled.finish := by
  obtain ⟨n, stack, draft, mode⟩ := r
  cases mode with
  | factor | quantifier | groupStart | groupKind | escape | bounds | bracketStart | brackets => rfl

theorem at_factor : (Reader.mk n stack draft .factor).At stack draft := ⟨n, rfl⟩

theorem After.at (h : r.After stack draft p) (hin : Inside stack) :
    r.At stack (draft.push p) := by
  obtain ⟨n, rfl⟩ := h
  rw [settle_of_inside hin]
  exact ⟨n, rfl⟩

/-- Where a factor may start, a character does what it does there, unless it is a quantifier. -/
theorem At.step_eq (h : r.At stack draft) (hc : c ∉ quantifierMarks) :
    ∃ n, r.step c = factorStep ⟨n, stack, draft, .factor⟩ c := by
  obtain ⟨n, hn⟩ := h
  refine ⟨n, ?_⟩
  rw [step_settled r hc, hn]
  rfl

theorem after_endAtom : ((Reader.mk n stack draft .factor).endAtom p).After stack draft p :=
  ⟨n + 1, rfl⟩

/-! ### Groups, branches and single characters -/

/-- A group opens, if there is room for one more. -/
theorem At.runs_opens {o : List Char} {kind : GroupKind} (h : r.At stack draft)
    (hd : stack.length < nestingLimit) (ho : Opens kind o) :
    ∃ r' start, r.Runs o r' ∧ r'.At (.group start kind draft :: stack) .empty := by
  obtain ⟨n, hn⟩ := h.step_eq (c := '(') (by decide)
  have hopen : r.step '(' = .ok ⟨n + 1, stack, draft, .groupStart n⟩ := by
    rw [hn]
    exact if_neg (Nat.not_le.2 hd)
  cases ho with
  | plain => exact ⟨_, n, runs_singleton_iff.2 hopen, n + 1, rfl⟩
  | marked | ahead | notAhead => exact ⟨_, n, Runs.cons hopen rfl, n + 3, rfl⟩

/-- Where a group has opened, there was room for one. -/
theorem At.lt_of_runs_opens {o : List Char} {kind : GroupKind} (h : r.At stack draft)
    (ho : Opens kind o) (hruns : r.Runs o r') : stack.length < nestingLimit := by
  obtain ⟨n, hn⟩ := h.step_eq (c := '(') (by decide)
  obtain ⟨m, hm⟩ : ∃ m, r.step '(' = .ok m := by
    cases ho with
    | plain | marked | ahead | notAhead =>
      obtain ⟨m, hm, -⟩ := runs_cons_iff.1 hruns
      exact ⟨m, hm⟩
  refine Nat.lt_of_not_le fun hd => ?_
  rw [hn, show factorStep ⟨n, stack, draft, .factor⟩ '(' = _ from if_pos hd] at hm
  cases hm

/-- A branch ends and the next one starts. -/
theorem At.step_bar {next : Draft} (h : r.At stack draft) (hin : Inside stack)
    (hnext : draft.nextBranch? = some next) : ∃ r', r.step '|' = .ok r' ∧ r'.At stack next := by
  obtain ⟨n, hn⟩ := h.step_eq (c := '|') (by decide)
  refine ⟨⟨n + 1, stack, next, .factor⟩, ?_, at_factor⟩
  simp [hn, factorStep, awaitsBody_eq_false_iff.2 hin, hnext, enter]

theorem At.nextBranch?_of_step_bar (h : r.At stack draft) (hin : Inside stack)
    (hstep : r.step '|' = .ok r') : ∃ next, draft.nextBranch? = some next := by
  obtain ⟨n, hn⟩ := h.step_eq (c := '|') (by decide)
  cases hnext : draft.nextBranch? with
  | some next => exact ⟨next, rfl⟩
  | none =>
    simp [hn, factorStep, awaitsBody_eq_false_iff.2 hin, hnext, fail] at hstep

section

variable {start : Nat} {kind : GroupKind} {outer : Draft} {positive : Bool}

theorem At.step_close (h : r.At (.group start kind outer :: stack) draft)
    (hp : draft.expression? = some p) :
    ∃ n, r.step ')' = closeGroup ⟨n, .group start kind outer :: stack, draft, .factor⟩ p := by
  obtain ⟨n, hn⟩ := h.step_eq (c := ')') (by decide)
  refine ⟨n, ?_⟩
  rw [hn]
  simp [factorStep, awaitsBody, hp]

/-- A group ends, and what stands in it is an atom. -/
theorem At.step_close_plain (h : r.At (.group start .plain outer :: stack) draft)
    (hp : draft.expression? = some p) : ∃ r', r.step ')' = .ok r' ∧ r'.After stack outer p := by
  obtain ⟨n, hn⟩ := h.step_close hp
  exact ⟨_, hn, n + 1, rfl⟩

/-- A condition ends, and its lookahead waits for its body. -/
theorem At.step_close_condition (h : r.At (.group start (.condition positive) outer :: stack) draft)
    (hp : draft.expression? = some p) :
    ∃ r', r.step ')' = .ok r' ∧ r'.At (.body positive p :: stack) outer := by
  obtain ⟨n, hn⟩ := h.step_close hp
  exact ⟨_, hn, n + 1, rfl⟩

theorem At.expression?_of_step_close (h : r.At (.group start kind outer :: stack) draft)
    (hstep : r.step ')' = .ok r') : ∃ p, draft.expression? = some p := by
  obtain ⟨n, hn⟩ := h.step_eq (c := ')') (by decide)
  cases hp : draft.expression? with
  | some p => exact ⟨p, rfl⟩
  | none => simp [hn, factorStep, awaitsBody, hp, fail] at hstep

end

theorem factorStep_of_not_mem_reserved (hc : c ∉ reserved) :
    factorStep r c = .ok (r.endAtom (.lit c)) := by
  unfold factorStep
  split
  all_goals first
    | rfl
    | exact absurd (by decide) hc

theorem At.step_character (h : r.At stack draft) (hc : c ∉ reserved) :
    ∃ r', r.step c = .ok r' ∧ r'.After stack draft (.lit c) := by
  have hmark : c ∉ quantifierMarks := fun hmem => by
    have hsub : quantifierMarks ⊆ reserved := by decide
    exact hc (hsub hmem)
  obtain ⟨n, hn⟩ := h.step_eq hmark
  exact ⟨_, hn.trans (factorStep_of_not_mem_reserved hc), after_endAtom⟩

theorem At.step_any (h : r.At stack draft) :
    ∃ r', r.step '.' = .ok r' ∧ r'.After stack draft (.atom .any) := by
  obtain ⟨n, hn⟩ := h.step_eq (c := '.') (by decide)
  exact ⟨_, hn, after_endAtom⟩

/-- A backslash and a character end an atom. -/
theorem At.runs_escaped (h : r.At stack draft) (l : Char) :
    ∃ r', r.Runs ['\\', l] r' ∧ r'.After stack draft (escaped l) := by
  obtain ⟨n, hn⟩ := h.step_eq (c := '\\') (by decide)
  exact ⟨_, Runs.cons hn rfl, n + 2, rfl⟩

theorem escaped_of_isEscape {l : Char} (h : IsEscape l c) : escaped l = .lit c := by
  obtain ⟨hletter, rfl⟩ := isEscape_iff.1 h
  unfold escaped
  rw [hletter]

theorem escaped_letter (s : Shorthand) :
    escaped s.letter = .atom (.oneOf (.ofShorthand s)) := by
  unfold escaped
  rw [Shorthand.ofLetter?_eq_some_iff.2 rfl]

end

/-! ### Bracket expressions -/

section

variable {r' : Reader} {stack : List Opening} {draft : Draft} {n start : Nat} {k : Brackets}
  {c d : Char} {u v w : List Char}

/-- A character inside brackets may start a range. -/
theorem runs_bracketChar (n : Nat) (stack : List Opening) (draft : Draft) (k : Brackets)
    (hv : IsBracketChar v c) :
    ∃ n' start, (Reader.mk n stack draft (.brackets k .item)).Runs v
      ⟨n', stack, draft, .brackets k (.single start c)⟩ := by
  cases hv with
  | plain hbracket hbackslash =>
    refine ⟨n + 1, n, runs_singleton_iff.2 ?_⟩
    show itemStep _ k c = _
    unfold itemStep
    rw [if_neg hbracket, if_neg hbackslash]
    rfl
  | @escaped l _ h =>
    obtain ⟨hletter, rfl⟩ := isEscape_iff.1 h
    refine ⟨n + 2, n, Runs.cons rfl (runs_singleton_iff.2 ?_)⟩
    show bracketStep _ k (.escape n) l = _
    unfold bracketStep
    simp only [hletter]
    rfl

theorem endRange_eq_ok_iff {m : Mode} :
    endRange ⟨n, stack, draft, m⟩ k start c d = .ok r' ↔
      c ≤ d ∧ r' = ⟨n + 1, stack, draft, .brackets (addItem k (.range c d)) .item⟩ := by
  unfold endRange
  split
  next hle =>
    simp only [Except.ok.injEq, hle, true_and]
    exact eq_comm
  next hle => simp [hle]

/-- After a hyphen a character ends a range, unless it comes before the first one. -/
theorem runs_dash_iff (hw : IsBracketChar w d) :
    (Reader.mk n stack draft (.brackets k (.dash start c))).Runs w r' ↔
      c ≤ d ∧ r' = ⟨n + w.length, stack, draft, .brackets (addItem k (.range c d)) .item⟩ := by
  cases hw with
  | plain hbracket hbackslash =>
    have hstep : (Reader.mk n stack draft (.brackets k (.dash start c))).step d =
        endRange ⟨n, stack, draft, .brackets k (.dash start c)⟩ k start c d := by
      show bracketStep _ k (.dash start c) d = _
      unfold bracketStep
      simp only [hbracket, hbackslash, if_false]
    rw [runs_singleton_iff, hstep]
    exact endRange_eq_ok_iff
  | @escaped l _ h =>
    obtain ⟨hletter, rfl⟩ := isEscape_iff.1 h
    have hstep : (Reader.mk (n + 1) stack draft (.brackets k (.dashEscape start c))).step l =
        endRange ⟨n + 1, stack, draft, .brackets k (.dashEscape start c)⟩ k start c
          (Escape.meaning l) := by
      show bracketStep _ k (.dashEscape start c) l = _
      unfold bracketStep
      simp only [hletter]
    have hbackslash : (Reader.mk n stack draft (.brackets k (.dash start c))).step '\\' =
        .ok ⟨n + 1, stack, draft, .brackets k (.dashEscape start c)⟩ := rfl
    simp only [runs_cons_iff, hbackslash, Except.ok.injEq, exists_eq_left', runs_nil_iff,
      exists_eq_right', hstep]
    exact endRange_eq_ok_iff

/-- A character that starts no range is a member. -/
theorem runs_single_iff (hdash : u.head? = some '-' → u = ['-']) :
    (Reader.mk n stack draft (.brackets k (.single start c))).Runs (u ++ [']']) r' ↔
      (Reader.mk n stack draft (.brackets (addItem k (.char c)) .item)).Runs (u ++ [']']) r' := by
  have hother : ∀ d, d ≠ '-' → (Reader.mk n stack draft (.brackets k (.single start c))).step d =
      (Reader.mk n stack draft (.brackets (addItem k (.char c)) .item)).step d :=
    fun d hd => if_neg hd
  cases u with
  | nil => exact runs_congr (hother ']' (by decide))
  | cons d u =>
    by_cases hd : d = '-'
    · subst hd
      obtain rfl : u = [] := by simpa using hdash rfl
      -- the hyphen before the closing bracket is a member either way
      rfl
    · exact runs_congr (hother d hd)

theorem reverse_addItem (k : Brackets) (i : ClassItem) (is : List ClassItem) :
    (addItem k i).items.reverse ++ is = k.items.reverse ++ i :: is := by
  simp [addItem]

/-- A class ends with the closing bracket, if it has a member. -/
theorem endBrackets_eq_ok_iff {m : Mode} :
    endBrackets ⟨n, stack, draft, m⟩ k = .ok r' ↔ k.items ≠ [] ∧
      r' = (Reader.mk n stack draft m).endAtom (.atom (.oneOf ⟨k.items.reverse, k.negated⟩)) := by
  unfold endBrackets
  split
  next hempty => simp [List.isEmpty_iff.1 hempty]
  next hempty =>
    have hne : k.items ≠ [] := fun h => hempty (List.isEmpty_iff.2 h)
    simp only [Except.ok.injEq, hne, ne_eq, not_false_iff, true_and]
    exact eq_comm

/-- A backslash and the letter of a shorthand are a member. -/
theorem runs_shorthand (l : Shorthand) :
    (Reader.mk n stack draft (.brackets k .item)).Runs ['\\', l.letter]
      ⟨n + 2, stack, draft, .brackets (addItem k (.shorthand l)) .item⟩ := by
  refine Runs.cons rfl (runs_singleton_iff.2 ?_)
  show bracketStep _ k (.escape n) l.letter = _
  unfold bracketStep
  simp only [Shorthand.ofLetter?_eq_some_iff.2 (Eq.refl l.letter)]
  rfl

/-- The members up to the closing bracket are read and end the class, if it has one at all. -/
theorem runs_members (n : Nat) (stack : List Opening) (draft : Draft) (k : Brackets)
    {is : List ClassItem} (h : IsMembers u is) (hne : k.items.reverse ++ is ≠ []) :
    ∃ r', (Reader.mk n stack draft (.brackets k .item)).Runs (u ++ [']']) r' ∧
      r'.After stack draft (.atom (.oneOf ⟨k.items.reverse ++ is, k.negated⟩)) := by
  induction h generalizing n k with
  | nil =>
    rw [List.append_nil] at hne ⊢
    refine ⟨_, runs_singleton_iff.2 (endBrackets_eq_ok_iff.2 ⟨?_, rfl⟩), n + 1, rfl⟩
    exact fun hnil => hne (by rw [hnil]; rfl)
  | shorthand s h ih =>
    rw [← reverse_addItem] at hne ⊢
    obtain ⟨r', hruns, hafter⟩ := ih _ _ hne
    exact ⟨r', (runs_shorthand s).append hruns, hafter⟩
  | char hc hdash h ih =>
    obtain ⟨n', start, hchar⟩ := runs_bracketChar n stack draft k hc
    rw [← reverse_addItem] at hne ⊢
    obtain ⟨r', hruns, hafter⟩ := ih _ _ hne
    refine ⟨r', ?_, hafter⟩
    rw [List.append_assoc]
    exact hchar.append ((runs_single_iff hdash).2 hruns)
  | range hc hd hle h ih =>
    obtain ⟨n', start, hchar⟩ := runs_bracketChar n stack draft k hc
    rw [← reverse_addItem] at hne ⊢
    obtain ⟨r', hruns, hafter⟩ := ih _ _ hne
    refine ⟨r', ?_, hafter⟩
    rw [List.append_assoc, List.append_assoc]
    exact hchar.append (Runs.cons rfl (((runs_dash_iff hd).2 ⟨hle, rfl⟩).append hruns))

/-- Where no caret follows, members may start right after the opening bracket. -/
theorem runs_bracketStart_iff (hcaret : u.head? ≠ some '^') :
    (Reader.mk n stack draft (.bracketStart start)).Runs (u ++ [']']) r' ↔
      (Reader.mk n stack draft (.brackets ⟨start, false, []⟩ .item)).Runs (u ++ [']']) r' := by
  have hother : ∀ c, c ≠ '^' → (Reader.mk n stack draft (.bracketStart start)).step c =
      (Reader.mk n stack draft (.brackets ⟨start, false, []⟩ .item)).step c := fun c hc => if_neg hc
  cases u with
  | nil => exact runs_congr (hother ']' (by decide))
  | cons c u => exact runs_congr (hother c fun hc => hcaret (by rw [hc]; rfl))

/-- A bracket expression is read. -/
theorem At.runs_brackets {r : Reader} {kc : CharClass} (h : r.At stack draft)
    (hu : IsBrackets u kc) : ∃ r', r.Runs u r' ∧ r'.After stack draft (.atom (.oneOf kc)) := by
  obtain ⟨n, hn⟩ := h.step_eq (c := '[') (by decide)
  cases hu with
  | @plain u is h hne hcaret =>
    obtain ⟨r', hruns, hafter⟩ := runs_members (n + 1) stack draft ⟨n, false, []⟩ h hne
    exact ⟨r', Runs.cons hn ((runs_bracketStart_iff hcaret).2 hruns), hafter⟩
  | @negated u is h hne =>
    obtain ⟨r', hruns, hafter⟩ := runs_members (n + 2) stack draft ⟨n, true, []⟩ h hne
    exact ⟨r', Runs.cons hn (Runs.cons rfl hruns), hafter⟩

end

/-! ### Quantifiers -/

section

variable {r' : Reader} {stack : List Opening} {draft : Draft} {n start : Nat} {p : Pattern}
  {c : Char} {ds v : List Char} {b : Bound} {part : Option Bound → BoundsPart}

theorem le_ofDigitChars (ds : List Char) (init : Nat) : init ≤ Nat.ofDigitChars 10 ds init := by
  induction ds generalizing init with
  | nil => exact Nat.le_refl _
  | cons c ds ih =>
    have := ih (10 * init + (c.toNat - '0'.toNat))
    rw [Nat.ofDigitChars_cons]
    omega

/-- The two places of a bounded quantifier where a number may stand. -/
inductive IsNumberPart : (Option Bound → BoundsPart) → Prop
  | min : IsNumberPart .min
  | max (m : Nat) : IsNumberPart (.max m)

/-- A digit goes on with a number, which must not become too large. -/
theorem step_digit_iff (hpart : IsNumberPart part) (hc : c.isDigit = true)
    {number : Option Bound} :
    (Reader.mk n stack draft (.bounds start p (part number))).step c = .ok r' ↔
      10 * (number.getD ⟨n, 0⟩).value + (c.toNat - '0'.toNat) < boundLimit ∧
        r' = ⟨n + 1, stack, draft, .bounds start p (part (some ⟨(number.getD ⟨n, 0⟩).start,
          10 * (number.getD ⟨n, 0⟩).value + (c.toNat - '0'.toNat)⟩))⟩ := by
  have hstep : (Reader.mk n stack draft (.bounds start p (part number))).step c = (do
      let b ← digitStep ⟨n, stack, draft, .bounds start p (part number)⟩ number c
      return ⟨n + 1, stack, draft, .bounds start p (part (some b))⟩) := by
    cases hpart with
    | min | max m => exact if_pos hc
  rw [hstep]
  unfold digitStep
  simp only
  split
  next hlt =>
    simp only [hlt, true_and]
    exact ⟨fun h => (Except.ok.inj h).symm, fun h => h ▸ rfl⟩
  next hlt =>
    simp only [hlt, false_and, iff_false]
    exact fun h => nomatch h

/-- Digits go on with a number `b`, which must not become too large. -/
theorem runs_digits_iff (hpart : IsNumberPart part) (hds : ∀ c ∈ ds, c.isDigit = true)
    (hb : b.value < boundLimit) :
    (Reader.mk n stack draft (.bounds start p (part (some b)))).Runs ds r' ↔
      Nat.ofDigitChars 10 ds b.value < boundLimit ∧ r' = ⟨n + ds.length, stack, draft,
        .bounds start p (part (some ⟨b.start, Nat.ofDigitChars 10 ds b.value⟩))⟩ := by
  induction ds generalizing n b with
  | nil =>
    rw [runs_nil_iff]
    exact (and_iff_right hb).symm
  | cons c ds ih =>
    obtain ⟨hc, hds⟩ := List.forall_mem_cons.1 hds
    rw [runs_cons_iff, Nat.ofDigitChars_cons]
    simp only [step_digit_iff hpart hc, Option.getD_some]
    constructor
    · rintro ⟨m, ⟨hlt, rfl⟩, hruns⟩
      obtain ⟨hlt, rfl⟩ := (ih hds hlt).1 hruns
      refine ⟨hlt, ?_⟩
      rw [List.length_cons, Nat.add_assoc, Nat.add_comm 1]
    · rintro ⟨hlt, rfl⟩
      have hle := le_ofDigitChars ds (10 * b.value + (c.toNat - '0'.toNat))
      have hvalue : 10 * b.value + (c.toNat - '0'.toNat) < boundLimit := by omega
      refine ⟨_, ⟨hvalue, rfl⟩, (ih hds hvalue).2 ⟨hlt, ?_⟩⟩
      rw [List.length_cons, Nat.add_assoc, Nat.add_comm 1]

/-- A number is read exactly if it is one of at most 64 bits. -/
theorem runs_number_iff (hpart : IsNumberPart part) (hne : ds ≠ [])
    (hds : ∀ c ∈ ds, c.isDigit = true) :
    (Reader.mk n stack draft (.bounds start p (part none))).Runs ds r' ↔
      IsNumber ds (Nat.ofDigitChars 10 ds 0) ∧ r' = ⟨n + ds.length, stack, draft,
        .bounds start p (part (some ⟨n, Nat.ofDigitChars 10 ds 0⟩))⟩ := by
  obtain ⟨c, ds, rfl⟩ := List.exists_cons_of_ne_nil hne
  have hfirst : (Reader.mk n stack draft (.bounds start p (part none))).step c =
      (Reader.mk n stack draft (.bounds start p (part (some ⟨n, 0⟩)))).step c := by
    have hc := hds c List.mem_cons_self
    cases hpart with
    | min | max m => exact (if_pos hc).trans (if_pos hc).symm
  have hzero : 0 < boundLimit := by decide
  rw [runs_congr hfirst, runs_digits_iff hpart hds hzero]
  exact and_congr_left fun _ => ⟨fun h => ⟨hne, hds, rfl, h⟩, fun h => h.lt⟩

theorem step_close_exactly :
    (Reader.mk n stack draft (.bounds start p (.min (some b)))).step '}' =
      .ok ⟨n + 1, stack, draft.push (.repeated p b.value (some b.value)), .factor⟩ :=
  if_pos (Nat.le_refl b.value)

/-- The greatest count must not be below the least. -/
theorem step_close_between_iff {m : Nat} :
    (Reader.mk n stack draft (.bounds start p (.max m (some b)))).step '}' = .ok r' ↔
      m ≤ b.value ∧
        r' = ⟨n + 1, stack, draft.push (.repeated p m (some b.value)), .factor⟩ := by
  show endBounds _ start p m (some b.value) = _ ↔ _
  unfold endBounds
  simp only
  split
  next hle =>
    simp only [Except.ok.injEq, hle, true_and]
    exact eq_comm
  next hle => simp [hle]

/-- A quantifier is read. -/
theorem runs_quantifier {min : Nat} {max : Option Nat} (h : IsQuantifier v min max) :
    ∃ n', (Reader.mk n stack draft (.quantifier p)).Runs v
      ⟨n', stack, draft.push (.repeated p min max), .factor⟩ := by
  have hleast : ∀ {ds}, IsNumber ds min → ∃ n' b, b.value = min ∧
      (Reader.mk n stack draft (.quantifier p)).Runs ('{' :: ds)
        ⟨n', stack, draft, .bounds n p (.min (some b))⟩ := by
    rintro ds ⟨hne, hds, rfl, hlt⟩
    exact ⟨_, _, rfl, Runs.cons rfl ((runs_number_iff .min hne hds).2 ⟨⟨hne, hds, rfl, hlt⟩, rfl⟩)⟩
  cases h with
  | star | plus | optional => exact ⟨n + 1, rfl⟩
  | exactly h =>
    obtain ⟨n', b, rfl, hruns⟩ := hleast h
    exact ⟨n' + 1, hruns.append (runs_singleton_iff.2 step_close_exactly)⟩
  | atLeast h =>
    obtain ⟨n', b, rfl, hruns⟩ := hleast h
    exact ⟨n' + 2, hruns.append (Runs.cons rfl (runs_singleton_iff.2 rfl))⟩
  | @between ds es _ m hn hm hle =>
    obtain ⟨n', b, rfl, hruns⟩ := hleast hn
    obtain ⟨hne, hes, rfl, hlt⟩ := hm
    have hgreatest : (Reader.mk (n' + 1) stack draft (.bounds n p (.max b.value none))).Runs es
        ⟨n' + 1 + es.length, stack, draft,
          .bounds n p (.max b.value (some ⟨n' + 1, Nat.ofDigitChars 10 es 0⟩))⟩ :=
      (runs_number_iff (.max b.value) hne hes).2 ⟨⟨hne, hes, rfl, hlt⟩, rfl⟩
    refine ⟨n' + 1 + es.length + 1, ?_⟩
    rw [List.append_assoc, List.cons_append]
    exact hruns.append (Runs.cons rfl
      (hgreatest.append (runs_singleton_iff.2 (step_close_between_iff.2 ⟨hle, rfl⟩))))

end

/-! ### The end of the text -/

/-- At the end of the text everything is closed, or there is a fault. -/
theorem At.finish_eq_ok_iff {r : Reader} {stack : List Opening} {draft : Draft} {p : Pattern}
    (h : r.At stack draft) : r.finish = .ok p ↔ stack = [] ∧ draft.expression? = some p := by
  obtain ⟨n, hn⟩ := h
  rw [finish_settled, hn]
  show finishFactor _ = _ ↔ _
  unfold finishFactor
  match stack with
  | [] =>
    simp only [awaitsBody, Bool.false_eq_true, if_false, true_and]
    cases draft.expression? with
    | none => simp [fail]
    | some q => simp
  | .body .. :: _ => simp [awaitsBody, fail]
  | .group .. :: _ =>
    simp only [awaitsBody, Bool.false_eq_true, if_false]
    cases draft.expression? with
    | none => simp [fail]
    | some q => simp

end Reader

/-- A text is parsed to a pattern if it takes a reader from the start to an end. -/
theorem Pattern.parseChars_eq_ok_iff {cs : List Char} {p : Pattern} :
    parseChars cs = .ok p ↔ ∃ r, Reader.start.Runs cs r ∧ r.finish = .ok p := by
  unfold parseChars Reader.Runs
  cases cs with
  | nil =>
    simp only [List.isEmpty_nil, if_true, List.foldlM_nil]
    refine iff_of_false (fun h => nomatch h) ?_
    rintro ⟨r, hr, hfinish⟩
    cases hr
    cases hfinish
  | cons c cs =>
    simp only [List.isEmpty_cons, Bool.false_eq_true, if_false]
    cases h : (c :: cs).foldlM Reader.step Reader.start with
    | error e => simp [bind, Except.bind]
    | ok r => simp [bind, Except.bind]

/-- A text is refused if it is empty, at the character where the reader stops, or at its end. -/
theorem Pattern.parseChars_eq_error_iff {cs : List Char} {e : SyntaxError} :
    parseChars cs = .error e ↔ cs = [] ∧ e = ⟨.emptyPattern, 0⟩ ∨
      cs ≠ [] ∧ (Reader.start.Stops cs e ∨ ∃ r, Reader.start.Runs cs r ∧ r.finish = .error e) := by
  unfold parseChars Reader.Runs Reader.Stops
  cases cs with
  | nil => simp [eq_comm]
  | cons c cs =>
    simp only [List.isEmpty_cons, Bool.false_eq_true, if_false]
    cases h : (c :: cs).foldlM Reader.step Reader.start with
    | error e => simp [bind, Except.bind]
    | ok r => simp [bind, Except.bind]

end PatternSweep
