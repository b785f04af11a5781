import PatternSweep.Proofs.ReaderRuns

/-!
# Texts that are read are derived

`r.HasRead u` says what the state of a reader means for the text `u` that it has taken: the text
falls into the openings of the stack, the branches and factors of the drafts, and the beginning of
an atom or a quantifier that the mode tells of. One step goes on with the text
(`HasRead.step`), so a run does (`HasRead.run`), and at the end the text is an expression and
denotes the pattern that the reader gives (`HasRead.derives`). Together with the converse this says
that the texts that are read are the expressions of the grammar (`parse_eq_ok_iff_derives`).
-/

namespace PatternSweep

open Grammar

namespace Reader

/-! ### Drafts and stacks -/

/-- The text of what a draft holds: branches with a bar behind each, and factors. -/
def DraftText (d : Nat) (draft : Draft) (u : List Char) : Prop :=
  ∃ terms factors : List (List Char × Pattern),
    (∀ x ∈ terms, Derives .term d x.1 x.2) ∧ (∀ x ∈ factors, Derives .factor d x.1 x.2) ∧
      draft = ⟨(terms.map Prod.snd).reverse, (factors.map Prod.snd).reverse⟩ ∧
      u = terms.flatMap (fun x => x.1 ++ ['|']) ++ factors.flatMap Prod.fst

section

variable {d : Nat} {draft draft' : Draft} {u v : List Char} {p : Pattern}

theorem draftText_empty : DraftText d .empty [] := ⟨[], [], by simp, by simp, rfl, rfl⟩

theorem DraftText.push (h : DraftText d draft u) (hp : Derives .factor d v p) :
    DraftText d (draft.push p) (u ++ v) := by
  obtain ⟨terms, factors, hterms, hfactors, rfl, rfl⟩ := h
  refine ⟨terms, factors ++ [(v, p)], hterms, ?_, by simp [Draft.push], by simp⟩
  exact List.forall_mem_append.2 ⟨hfactors, List.forall_mem_singleton.2 hp⟩

/-- The open branch of a draft is a term behind the other branches. -/
theorem DraftText.branch (h : DraftText d draft u) (hp : draft.branch? = some p) :
    ∃ (terms : List (List Char × Pattern)) (v : List Char),
      (∀ x ∈ terms, Derives .term d x.1 x.2) ∧ Derives .term d v p ∧
        draft.branches = (terms.map Prod.snd).reverse ∧
        u = terms.flatMap (fun x => x.1 ++ ['|']) ++ v := by
  obtain ⟨terms, factors, hterms, hfactors, rfl, rfl⟩ := h
  have hne : factors ≠ [] := by
    rintro rfl
    cases hp
  rw [Draft.branch?_reverse (by simpa using hne), Option.some.injEq] at hp
  subst hp
  exact ⟨terms, _, hterms, .term factors hne hfactors, rfl, rfl⟩

theorem DraftText.nextBranch (h : DraftText d draft u) (hnext : draft.nextBranch? = some draft') :
    DraftText d draft' (u ++ ['|']) := by
  obtain ⟨p, hp, rfl⟩ := Option.map_eq_some_iff.1 hnext
  obtain ⟨terms, v, hterms, hv, hbranches, rfl⟩ := h.branch hp
  refine ⟨terms ++ [(v, p)], [], ?_, by simp, by simp [hbranches], by simp⟩
  exact List.forall_mem_append.2 ⟨hterms, List.forall_mem_singleton.2 hv⟩

theorem DraftText.expression (h : DraftText d draft u) (hp : draft.expression? = some p) :
    Derives .expression d u p := by
  obtain ⟨q, hq, -⟩ := Option.map_eq_some_iff.1 hp
  obtain ⟨terms, v, hterms, hv, hbranches, rfl⟩ := h.branch hq
  rw [Draft.expression?_eq hq, hbranches, List.reverse_reverse, Option.some.injEq] at hp
  subst hp
  have hall : ∀ x ∈ terms ++ [(v, q)], Derives .term d x.1 x.2 :=
    List.forall_mem_append.2 ⟨hterms, List.forall_mem_singleton.2 hv⟩
  have hexpression := Derives.expression _ (by simp) hall
  rw [List.map_append, List.map_append, List.map_singleton, List.map_singleton,
    intercalate_concat, List.flatMap_map] at hexpression
  exact hexpression

end

/-- The text before a factor, inside a stack and after a draft. -/
def Before : List Opening → Draft → List Char → Prop
  | [], draft, u => DraftText 0 draft u
  | .group _ kind outer :: stack, draft, u => stack.length < nestingLimit ∧
    ∃ v o w, u = v ++ o ++ w ∧ Before stack outer v ∧ Opens kind o ∧
      DraftText (stack.length + 1) draft w
  | .body positive c :: stack, draft, u => stack.length < nestingLimit ∧
    ∃ v o w, u = v ++ o ++ w ++ [')'] ∧ Before stack draft v ∧ Opens (.condition positive) o ∧
      Derives .expression (stack.length + 1) w c

section

variable {stack : List Opening} {draft draft' : Draft} {u v : List Char} {p : Pattern}

/-- The text of the innermost draft can be replaced by one that goes on with it. -/
theorem Before.replace (h : Before stack draft u) (hin : Inside stack)
    (hdraft : ∀ w, DraftText stack.length draft w → DraftText stack.length draft' (w ++ v)) :
    Before stack draft' (u ++ v) := by
  match stack, h with
  | [], h => exact hdraft u h
  | .group .. :: stack, h =>
    obtain ⟨hd, v', o, w, rfl, hbefore, ho, hw⟩ := h
    exact ⟨hd, v', o, w ++ v, by simp, hbefore, ho, hdraft w hw⟩

/-- An atom that ends the body of every waiting lookahead is the last atom of the text. -/
theorem Before.settle (h : Before stack draft u) (hp : Derives .atom stack.length v p) :
    ∃ u' v', u ++ v = u' ++ v' ∧ Before (settle stack p).1 draft u' ∧
      Derives .atom (settle stack p).1.length v' (settle stack p).2 := by
  induction stack generalizing u v p with
  | nil => exact ⟨u, v, rfl, h, hp⟩
  | cons o stack ih =>
    cases o with
    | group => exact ⟨u, v, rfl, h, hp⟩
    | body positive c =>
      obtain ⟨hd, t, o, w, rfl, hbefore, ho, hc⟩ := h
      obtain ⟨u', v', huv, hsettled⟩ := ih hbefore (.ahead hd ho hc hp)
      refine ⟨u', v', ?_, hsettled⟩
      rw [← huv]
      simp

end

/-! ### Numbers and members -/

/-- The digits of a number that has been read so far. -/
def NumberText : Option Bound → List Char → Prop
  | none, ds => ds = []
  | some b, ds => IsNumber ds b.value

/-- The text of a bounded quantifier from its opening brace. -/
def BoundsText : BoundsPart → List Char → Prop
  | .min number, v => ∃ ds, v = '{' :: ds ∧ NumberText number ds
  | .max m number, v => ∃ ds es, v = '{' :: ds ++ ',' :: es ∧ IsNumber ds m ∧ NumberText number es

section

variable {number : Option Bound} {n start : Nat} {c d : Char} {ds t : List Char}
  {items : List ClassItem}

theorem isNumber_snoc (hds : ∀ x ∈ ds, x.isDigit = true)
    (hn : Nat.ofDigitChars 10 ds 0 = n) (hc : c.isDigit = true)
    (hlt : 10 * n + (c.toNat - '0'.toNat) < boundLimit) :
    IsNumber (ds ++ [c]) (10 * n + (c.toNat - '0'.toNat)) where
  ne_nil := by simp
  isDigit := List.forall_mem_append.2 ⟨hds, List.forall_mem_singleton.2 hc⟩
  value := by rw [Nat.ofDigitChars_append, hn]; rfl
  lt := hlt

/-- A further digit goes on with the digits of a number. -/
theorem NumberText.snoc (h : NumberText number ds) (hc : c.isDigit = true)
    (hlt : 10 * (number.getD ⟨n, 0⟩).value + (c.toNat - '0'.toNat) < boundLimit) :
    NumberText (some ⟨start, 10 * (number.getD ⟨n, 0⟩).value + (c.toNat - '0'.toNat)⟩)
      (ds ++ [c]) := by
  cases number with
  | none =>
    obtain rfl : ds = [] := h
    exact isNumber_snoc (by simp) rfl hc hlt
  | some b => exact isNumber_snoc h.isDigit h.value hc hlt

/-- Every list of members that starts with `v` may follow the text `t` of the members `items`, the
newest of which comes first. -/
def Leads (items : List ClassItem) (t v : List Char) : Prop :=
  ∀ u is, IsMembers (v ++ u) is → IsMembers (t ++ v ++ u) (items.reverse ++ is)

theorem leads_nil : Leads [] [] [] := fun _ _ h => h

theorem Leads.append {v : List Char} (h : Leads items t v) (w : List Char) :
    Leads items t (v ++ w) := by
  intro u is hu
  rw [List.append_assoc] at hu
  have := h (w ++ u) is hu
  simpa using this

/-- A member goes behind the members before it. -/
theorem Leads.member {v w : List Char} {i : ClassItem} (h : Leads items t v)
    (hi : ∀ u is, IsMembers (w ++ u) is → IsMembers (v ++ w ++ u) (i :: is)) :
    Leads (i :: items) (t ++ v) w := by
  intro u is hu
  have := h (w ++ u) _ (by simpa using hi u is hu)
  simpa using this

/-- The members that lead up to the end of the brackets are all there are. -/
theorem Leads.isMembers (h : Leads items t []) : IsMembers t items.reverse := by
  simpa using h [] [] .nil

/-- The text of members from the first one, in its part. -/
def MembersText (items : List ClassItem) : BracketPart → List Char → Prop
  | .item, t => Leads items t []
  | .escape _, t => ∃ s, t = s ++ ['\\'] ∧ Leads items s ['\\']
  | .single _ c, t => ∃ s v, t = s ++ v ∧ IsBracketChar v c ∧ Leads items s v
  | .dash _ c, t => ∃ s v, t = s ++ v ++ ['-'] ∧ IsBracketChar v c ∧ Leads items s v
  | .dashEscape _ c, t => ∃ s v, t = s ++ v ++ ['-', '\\'] ∧ IsBracketChar v c ∧ Leads items s v

/-- What the members mean for the next character: at the closing bracket they are complete, and any
other character may start a member. -/
def MayFollow (items : List ClassItem) (t : List Char) (d : Char) : Prop :=
  if d = ']' then IsMembers t items.reverse else Leads items t [d]

theorem Leads.mayFollow (h : Leads items t []) (d : Char) : MayFollow items t d := by
  unfold MayFollow
  split
  · exact h.isMembers
  · exact h.append [d]

/-- A character that no hyphen follows is a member. -/
theorem mayFollow_char {v : List Char} (h : Leads items t v) (hv : IsBracketChar v c)
    (hd : d ≠ '-') : MayFollow (.char c :: items) (t ++ v) d := by
  unfold MayFollow
  split
  · have := h [] [.char c] (.char hv (by simp) .nil)
    simpa using this
  · refine h.member fun u is hu => ?_
    rw [List.append_assoc]
    exact .char hv (fun hdash => absurd (Option.some.inj hdash) hd) hu

end

/-- The text `w` opens a bracket expression, and `t` is what of it stands for members. -/
def OpensBrackets (negated : Bool) (t w : List Char) : Prop :=
  if negated then w = '[' :: '^' :: t else w = '[' :: t ∧ t.head? ≠ some '^'

/-- The text of a bracket expression from its opening bracket. -/
def BracketsText (k : Brackets) (part : BracketPart) (w : List Char) : Prop :=
  ∃ t, MembersText k.items part t ∧ (k.negated = false → t ≠ []) ∧ OpensBrackets k.negated t w

section

variable {negated : Bool} {s t v w : List Char} {items : List ClassItem} {c d : Char}

theorem OpensBrackets.append (h : OpensBrackets negated t w) (hne : negated = false → t ≠ [])
    (v : List Char) : OpensBrackets negated (t ++ v) (w ++ v) := by
  cases negated with
  | true =>
    obtain rfl : w = '[' :: '^' :: t := h
    rfl
  | false =>
    obtain ⟨rfl, hcaret⟩ : w = '[' :: t ∧ t.head? ≠ some '^' := h
    obtain ⟨c, t, rfl⟩ := List.exists_cons_of_ne_nil (hne rfl)
    exact ⟨rfl, hcaret⟩

/-- A closing bracket makes a bracket expression of its members. -/
theorem OpensBrackets.isBrackets {is : List ClassItem}
    (h : OpensBrackets negated (t ++ [']']) (w ++ [']'])) (ht : IsMembers t is) (hne : is ≠ []) :
    IsBrackets (w ++ [']']) ⟨is, negated⟩ := by
  cases negated with
  | true =>
    have hw : w ++ [']'] = '[' :: '^' :: t ++ [']'] := h
    rw [hw]
    exact .negated ht hne
  | false =>
    obtain ⟨hw, hcaret⟩ : w ++ [']'] = '[' :: t ++ [']'] ∧ (t ++ [']']).head? ≠ some '^' := h
    rw [hw]
    refine .plain ht hne fun hhead => hcaret ?_
    rw [List.head?_append, hhead]
    rfl

theorem Leads.range (h : Leads items s v) (hv : IsBracketChar v c) (hw : IsBracketChar w d)
    (hle : c ≤ d) : Leads (.range c d :: items) (s ++ v ++ '-' :: w) [] := by
  have := (h.append ('-' :: w)).member (w := []) (i := .range c d) fun u is hu => by
    simpa using IsMembers.range hv hw hle hu
  simpa using this

theorem Leads.shorthand (h : Leads items s ['\\']) (l : Shorthand) :
    Leads (.shorthand l :: items) (s ++ ['\\', l.letter]) [] :=
  (h.append [l.letter]).member fun _ _ hu => .shorthand l hu

/-- A hyphen before the closing bracket is a member, as is the character before it. -/
theorem Leads.hyphen (h : Leads items s v) (hv : IsBracketChar v c) :
    IsMembers (s ++ v ++ ['-']) (.char '-' :: .char c :: items).reverse := by
  have hyphen : IsMembers ['-'] [.char '-'] :=
    .char (.plain (by decide) (by decide)) (fun h => nomatch h) .nil
  simpa using h ['-'] _ (.char hv (fun _ => rfl) hyphen)

end

/-! ### States -/

/-- The text that leads to a mode. -/
def ModeText (stack : List Opening) (draft : Draft) : Mode → List Char → Prop
  | .factor, u => Before stack draft u
  | .quantifier p, u => ∃ v w, u = v ++ w ∧ Before stack draft v ∧ Inside stack ∧
    Derives .atom stack.length w p
  | .groupStart _, u => ∃ v, u = v ++ ['('] ∧ Before stack draft v ∧ stack.length < nestingLimit
  | .groupKind _, u => ∃ v, u = v ++ ['(', '?'] ∧ Before stack draft v ∧
    stack.length < nestingLimit
  | .escape _, u => ∃ v, u = v ++ ['\\'] ∧ Before stack draft v
  | .bounds _ p part, u => ∃ v w q, u = v ++ w ++ q ∧ Before stack draft v ∧ Inside stack ∧
    Derives .atom stack.length w p ∧ BoundsText part q
  | .bracketStart _, u => ∃ v, u = v ++ ['['] ∧ Before stack draft v
  | .brackets k part, u => ∃ v w, u = v ++ w ∧ Before stack draft v ∧ BracketsText k part w

/-- The reader has taken the text `u`. -/
def HasRead (r : Reader) (u : List Char) : Prop := ModeText r.stack r.draft r.mode u

section

variable {r r' : Reader} {stack : List Opening} {draft : Draft} {n : Nat} {m : Mode} {c : Char}
  {u v w : List Char} {p : Pattern}

theorem Before.endAtom (h : Before stack draft u) (hp : Derives .atom stack.length v p) :
    ((Reader.mk n stack draft m).endAtom p).HasRead (u ++ v) := by
  obtain ⟨u', v', huv, hbefore, hatom⟩ := h.settle hp
  exact ⟨u', v', huv, hbefore, inside_settle stack p, hatom⟩

theorem Before.push (h : Before stack draft u) (hin : Inside stack)
    (hp : Derives .factor stack.length v p) : Before stack (draft.push p) (u ++ v) :=
  h.replace hin fun _ hw => hw.push hp

/-- A parenthesis that closes a group ends an atom, or a condition. -/
theorem Before.closeGroup (h : Before stack draft u) (hp : draft.expression? = some p)
    (hstep : closeGroup ⟨n, stack, draft, m⟩ p = .ok r') : r'.HasRead (u ++ [')']) := by
  unfold Reader.closeGroup at hstep
  split at hstep
  next stack hstack =>
    cases hstack
    cases hstep
    obtain ⟨hd, v, o, w, rfl, hbefore, ho, hw⟩ := h
    have hatom := Derives.group hd ho (hw.expression hp)
    have := hbefore.endAtom (n := n) (m := m) hatom
    simpa using this
  next stack hstack =>
    cases hstack
    cases hstep
    obtain ⟨hd, v, o, w, rfl, hbefore, ho, hw⟩ := h
    exact ⟨hd, v, o, w, rfl, hbefore, ho, hw.expression hp⟩
  next => cases hstep

/-- A character where a factor may start goes on with the text. -/
theorem Before.factorStep (h : Before stack draft u)
    (hstep : factorStep ⟨n, stack, draft, m⟩ c = .ok r') : r'.HasRead (u ++ [c]) := by
  unfold Reader.factorStep at hstep
  split at hstep
  · -- an opening parenthesis
    split at hstep
    · cases hstep
    next hd =>
      cases hstep
      exact ⟨u, rfl, h, Nat.lt_of_not_le hd⟩
  · cases hstep
    exact ⟨u, rfl, h⟩
  · cases hstep
    exact ⟨u, rfl, h⟩
  · cases hstep
    exact h.endAtom .any
  · cases hstep
  · cases hstep
  · cases hstep
  · cases hstep
  · cases hstep
  · -- a bar
    split at hstep
    · cases hstep
    next hwaits =>
      have hin := awaitsBody_eq_false_iff.1 (Bool.eq_false_iff.2 hwaits)
      split at hstep
      · cases hstep
      next draft' hnext =>
        cases hstep
        exact h.replace hin fun _ hw => hw.nextBranch hnext
  · -- a closing parenthesis
    split at hstep
    · cases hstep
    next hwaits =>
      split at hstep
      · cases hstep
      next p hp => exact h.closeGroup hp hstep
  · cases hstep
    refine h.endAtom (.character ?_)
    simp_all [reserved]

/-- Where a member may start, a character starts one, or the closing bracket ends the class. -/
theorem Before.itemStep {k : Brackets} {t : List Char} (h : Before stack draft u)
    (ht : MayFollow k.items t c) (hw : OpensBrackets k.negated (t ++ [c]) (w ++ [c]))
    (hstep : itemStep ⟨n, stack, draft, m⟩ k c = .ok r') : r'.HasRead (u ++ w ++ [c]) := by
  rw [List.append_assoc]
  unfold Reader.itemStep at hstep
  split at hstep
  next hc =>
    subst hc
    obtain ⟨hne, rfl⟩ := endBrackets_eq_ok_iff.1 hstep
    rw [MayFollow, if_pos rfl] at ht
    exact h.endAtom (.brackets (hw.isBrackets ht (by simpa using hne)))
  next hc =>
    rw [MayFollow, if_neg hc] at ht
    split at hstep
    next hbackslash =>
      cases hstep
      subst hbackslash
      exact ⟨u, w ++ ['\\'], rfl, h, t ++ ['\\'], ⟨t, rfl, ht⟩, by simp, hw⟩
    next hbackslash =>
      cases hstep
      exact ⟨u, w ++ [c], rfl, h, t ++ [c], ⟨t, [c], rfl, .plain hc hbackslash, ht⟩, by simp, hw⟩

theorem Before.endRange {k : Brackets} {t : List Char} {start : Nat} {first last : Char}
    (h : Before stack draft u) (ht : first ≤ last → Leads (.range first last :: k.items) t [])
    (hw : OpensBrackets k.negated t w) (hne : t ≠ [])
    (hstep : endRange ⟨n, stack, draft, m⟩ k start first last = .ok r') :
    r'.HasRead (u ++ w) := by
  obtain ⟨hle, rfl⟩ := endRange_eq_ok_iff.1 hstep
  exact ⟨u, w, rfl, h, t, ht hle, fun _ => hne, hw⟩

/-- A character inside brackets goes on with the text. -/
theorem Before.bracketStep {k : Brackets} {part : BracketPart} (h : Before stack draft u)
    (hk : BracketsText k part w) (hstep : bracketStep ⟨n, stack, draft, m⟩ k part c = .ok r') :
    r'.HasRead (u ++ w ++ [c]) := by
  obtain ⟨t, ht, hne, hw⟩ := hk
  have hnext := hw.append hne [c]
  cases part with
  | item => exact h.itemStep (Leads.mayFollow ht c) hnext hstep
  | escape start =>
    obtain ⟨s, rfl, hs⟩ := ht
    rw [List.append_assoc] at hnext ⊢
    unfold Reader.bracketStep at hstep
    simp only at hstep
    split at hstep
    next l hl =>
      obtain rfl := Shorthand.ofLetter?_eq_some_iff.1 hl
      cases hstep
      exact ⟨u, w ++ [l.letter], rfl, h, s ++ ['\\', l.letter], hs.shorthand l, by simp, hnext⟩
    next hl =>
      cases hstep
      exact ⟨u, w ++ [c], rfl, h, s ++ ['\\', c],
        ⟨s, ['\\', c], rfl, .escaped (isEscape_iff.2 ⟨hl, rfl⟩), hs.append [c]⟩, by simp, hnext⟩
  | single start first =>
    obtain ⟨s, v, rfl, hv, hs⟩ := ht
    unfold Reader.bracketStep at hstep
    simp only at hstep
    split at hstep
    next hc =>
      cases hstep
      subst hc
      exact ⟨u, w ++ ['-'], by simp, h, s ++ v ++ ['-'], ⟨s, v, rfl, hv, hs⟩, by simp, hnext⟩
    next hc => exact h.itemStep (k := addItem k (.char first)) (mayFollow_char hs hv hc) hnext hstep
  | dash start first =>
    obtain ⟨s, v, rfl, hv, hs⟩ := ht
    unfold Reader.bracketStep at hstep
    simp only at hstep
    rw [List.append_assoc]
    split at hstep
    next hc =>
      subst hc
      obtain ⟨-, rfl⟩ := endBrackets_eq_ok_iff.1 hstep
      exact h.endAtom (.brackets (hnext.isBrackets (hs.hyphen hv) (by simp [addItem])))
    next hc =>
      split at hstep
      next hbackslash =>
        cases hstep
        subst hbackslash
        exact ⟨u, w ++ ['\\'], rfl, h, s ++ v ++ ['-'] ++ ['\\'],
          ⟨s, v, by simp, hv, hs⟩, by simp, hnext⟩
      next hbackslash =>
        refine h.endRange (fun hle => hs.range hv (.plain hc hbackslash) hle) ?_ (by simp) hstep
        simpa using hnext
  | dashEscape start first =>
    obtain ⟨s, v, rfl, hv, hs⟩ := ht
    unfold Reader.bracketStep at hstep
    simp only at hstep
    rw [List.append_assoc]
    split at hstep
    next l hl => cases hstep
    next hl =>
      have hescaped := IsBracketChar.escaped (isEscape_iff.2 ⟨hl, rfl⟩)
      refine h.endRange (fun hle => hs.range hv hescaped hle) ?_ (by simp) hstep
      simpa using hnext

/-- An atom with a quantifier is a factor. -/
theorem Before.quantified {q : List Char} {min : Nat} {max : Option Nat}
    (h : Before stack draft u) (hin : Inside stack) (hp : Derives .atom stack.length v p)
    (hq : IsQuantifier q min max) :
    (Reader.mk n stack (draft.push (.repeated p min max)) .factor).HasRead (u ++ v ++ q) := by
  rw [List.append_assoc]
  exact h.push hin (.quantified hp hq)

/-- A character inside a bounded quantifier goes on with the text. -/
theorem Before.boundsStep {start : Nat} {part : BoundsPart} {q : List Char}
    (h : Before stack draft u) (hin : Inside stack) (hp : Derives .atom stack.length v p)
    (hq : BoundsText part q)
    (hstep : (Reader.mk n stack draft (.bounds start p part)).step c = .ok r') :
    r'.HasRead (u ++ v ++ q ++ [c]) := by
  cases part with
  | min number =>
    obtain ⟨ds, rfl, hds⟩ := hq
    by_cases hc : c.isDigit = true
    · obtain ⟨hlt, rfl⟩ := (step_digit_iff .min hc).1 hstep
      exact ⟨u, v, '{' :: ds ++ [c], by simp, h, hin, hp, ds ++ [c], rfl, hds.snoc hc hlt⟩
    · replace hstep := (if_neg hc).symm.trans hstep
      cases number with
      | none => cases hstep
      | some b =>
        simp only at hstep
        split at hstep
        next hcomma =>
          cases hstep
          subst hcomma
          exact ⟨u, v, '{' :: ds ++ [','], by simp, h, hin, hp, ds, [], rfl, hds, rfl⟩
        next hcomma =>
          split at hstep
          next hbrace =>
            subst hbrace
            cases step_close_exactly.symm.trans hstep
            rw [List.append_assoc (u ++ v)]
            exact h.quantified hin hp (.exactly hds)
          next hbrace => cases hstep
  | max min number =>
    obtain ⟨ds, es, rfl, hmin, hes⟩ := hq
    by_cases hc : c.isDigit = true
    · obtain ⟨hlt, rfl⟩ := (step_digit_iff (.max min) hc).1 hstep
      exact ⟨u, v, '{' :: ds ++ ',' :: (es ++ [c]), by simp, h, hin, hp, ds, es ++ [c], rfl, hmin,
        hes.snoc hc hlt⟩
    · replace hstep := (if_neg hc).symm.trans hstep
      cases number with
      | none =>
        obtain rfl : es = [] := hes
        simp only at hstep
        split at hstep
        next hbrace =>
          cases hstep
          subst hbrace
          rw [List.append_assoc (u ++ v), List.append_assoc ('{' :: ds)]
          exact h.quantified hin hp (.atLeast hmin)
        next hbrace => cases hstep
      | some b =>
        simp only at hstep
        split at hstep
        next hbrace =>
          subst hbrace
          obtain ⟨hle, rfl⟩ := step_close_between_iff.1 hstep
          rw [List.append_assoc (u ++ v)]
          exact h.quantified hin hp (.between hmin hes hle)
        next hbrace => cases hstep

/-- A character after an atom goes on with the text. -/
theorem Before.quantifierStep (h : Before stack draft u) (hin : Inside stack)
    (hp : Derives .atom stack.length v p)
    (hstep : quantifierStep ⟨n, stack, draft, m⟩ p c = .ok r') : r'.HasRead (u ++ v ++ [c]) := by
  unfold Reader.quantifierStep at hstep
  split at hstep
  · cases hstep
    exact h.quantified (n := n + 1) hin hp .star
  · cases hstep
    exact h.quantified (n := n + 1) hin hp .plus
  · cases hstep
    exact h.quantified (n := n + 1) hin hp .optional
  · cases hstep
    exact ⟨u, v, ['{'], rfl, h, hin, hp, [], rfl, rfl⟩
  · exact (h.push hin (.once hp)).factorStep hstep

/-- A group that opens is empty at first. -/
theorem Before.openGroup {kind : GroupKind} {o : List Char} (h : Before stack draft u)
    (start : Nat) (hd : stack.length < nestingLimit) (ho : Opens kind o) :
    Before (.group start kind draft :: stack) .empty (u ++ o) :=
  ⟨hd, u, o, [], by simp, h, ho, draftText_empty⟩

/-- A character after a parenthesis and a question mark goes on with the text. -/
theorem Before.groupKindStep {start : Nat} (h : Before stack draft u)
    (hd : stack.length < nestingLimit)
    (hstep : groupKindStep ⟨n, stack, draft, m⟩ start c = .ok r') :
    r'.HasRead (u ++ ['(', '?'] ++ [c]) := by
  rw [List.append_assoc]
  unfold Reader.groupKindStep at hstep
  split at hstep
  · cases hstep
    exact h.openGroup start hd .marked
  · cases hstep
    exact h.openGroup start hd .ahead
  · cases hstep
    exact h.openGroup start hd .notAhead
  · cases hstep

/-- A backslash and any character are an atom. -/
theorem derives_escaped {d : Nat} (l : Char) : Derives .atom d ['\\', l] (escaped l) := by
  unfold escaped
  split
  next s hs =>
    obtain rfl := Shorthand.ofLetter?_eq_some_iff.1 hs
    exact .shorthand s
  next hs => exact .escape (isEscape_iff.2 ⟨hs, rfl⟩)

/-- **One step goes on with the text.** -/
theorem HasRead.step (h : r.HasRead u) (hstep : r.step c = .ok r') : r'.HasRead (u ++ [c]) := by
  obtain ⟨n, stack, draft, mode⟩ := r
  cases mode with
  | factor => exact Before.factorStep h hstep
  | quantifier p =>
    obtain ⟨v, w, rfl, hbefore, hin, hp⟩ := h
    exact hbefore.quantifierStep hin hp hstep
  | groupStart start =>
    obtain ⟨v, rfl, hbefore, hd⟩ := h
    by_cases hc : c = '?'
    · subst hc
      cases hstep
      exact ⟨v, by simp, hbefore, hd⟩
    · exact (hbefore.openGroup start hd .plain).factorStep ((if_neg hc).symm.trans hstep)
  | groupKind start =>
    obtain ⟨v, rfl, hbefore, hd⟩ := h
    exact hbefore.groupKindStep hd hstep
  | escape start =>
    obtain ⟨v, rfl, hbefore⟩ := h
    cases hstep
    rw [List.append_assoc]
    exact hbefore.endAtom (derives_escaped c)
  | bounds start p part =>
    obtain ⟨v, w, q, rfl, hbefore, hin, hp, hq⟩ := h
    exact hbefore.boundsStep hin hp hq hstep
  | bracketStart start =>
    obtain ⟨v, rfl, hbefore⟩ := h
    by_cases hc : c = '^'
    · subst hc
      cases hstep
      exact ⟨v, ['[', '^'], by simp, hbefore, [], leads_nil, nofun, rfl⟩
    · replace hstep := (if_neg hc).symm.trans hstep
      have hopens : OpensBrackets false ([] ++ [c]) (['['] ++ [c]) := ⟨rfl, by simpa using hc⟩
      exact hbefore.itemStep (k := ⟨start, false, []⟩) (leads_nil.mayFollow c) hopens hstep
  | brackets k part =>
    obtain ⟨v, w, rfl, hbefore, hk⟩ := h
    exact hbefore.bracketStep hk hstep

/-- A run goes on with the text. -/
theorem HasRead.run (h : r.HasRead u) (hruns : r.Runs v r') : r'.HasRead (u ++ v) := by
  induction v generalizing r u with
  | nil =>
    obtain rfl := runs_nil_iff.1 hruns
    simpa using h
  | cons c v ih =>
    obtain ⟨m, hm, hruns⟩ := runs_cons_iff.1 hruns
    have := ih (h.step hm) hruns
    simpa using this

/-- What a reader gives at the end is what the text denotes. -/
theorem HasRead.derives (h : r.HasRead u) (hfinish : r.finish = .ok p) :
    Derives .expression 0 u p := by
  obtain ⟨n, stack, draft, mode⟩ := r
  cases mode with
  | factor =>
    obtain ⟨rfl, hp⟩ := at_factor.finish_eq_ok_iff.1 hfinish
    exact DraftText.expression h hp
  | quantifier q =>
    obtain ⟨v, w, rfl, hbefore, hin, hq⟩ := h
    have hat : (Reader.mk n stack draft (.quantifier q)).At stack (draft.push q) := ⟨n, rfl⟩
    obtain ⟨rfl, hp⟩ := hat.finish_eq_ok_iff.1 hfinish
    exact DraftText.expression (hbefore.push hin (.once hq)) hp
  | groupStart | groupKind | escape | bounds | bracketStart | brackets => cases hfinish

end

end Reader

/-- A text that is parsed is an expression and denotes the pattern that it is parsed to. -/
theorem Pattern.derives_of_parseChars {cs : List Char} {p : Pattern}
    (h : parseChars cs = .ok p) : Derives .expression 0 cs p := by
  obtain ⟨r, hruns, hfinish⟩ := parseChars_eq_ok_iff.1 h
  have hstart : Reader.start.HasRead [] := Reader.draftText_empty
  exact (hstart.run hruns).derives hfinish

/-- **The reader accepts the grammar.** A text is parsed to a pattern exactly if the text is an
expression of the grammar and denotes that pattern. -/
theorem parse_eq_ok_iff_derives (written : String) (p : Pattern) :
    Pattern.parse written = .ok p ↔ Derives .expression 0 written.toList p :=
  ⟨Pattern.derives_of_parseChars, Pattern.parseChars_of_derives⟩

/-- A lookahead takes one atom as its body, and a quantifier belongs to both together. -/
example : Pattern.parse "(?=a)b*c" = .ok (.seq
    [.repeated (.ahead true (.lit 'a') (.lit 'b')) 0 none, .lit 'c']) := rfl

end PatternSweep
