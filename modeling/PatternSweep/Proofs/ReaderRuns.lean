import PatternSweep.Proofs.ReaderSteps

/-!
# Derived texts are read

A reader takes every text that the grammar derives, from every place where a phrase of its kind may
start, and holds the denoted pattern afterwards: an atom has just ended, a factor is in the draft, a
term is the open branch of the draft, and an expression is the whole draft. What can go wrong is one
thing alone: the reader may be inside more groups than the text was derived in, and then come to a
group that is nested too deep.

So `TakesPhrase deep kind u p` says that the reader takes the text `u` as such a phrase, or that it
is inside a number of groups with `deep` and finds one too many. There is one lemma for each rule of
the grammar, which hands this on from the parts of a phrase to the phrase; a derivation puts them
together (`takes_of_derives`), and inside no more groups than the text was derived in nothing can go
wrong (`carries_of_derives`).
-/

namespace PatternSweep

open Grammar

/-! ### Patterns in a draft -/

namespace Draft

variable {branches ps qs : List Pattern} {p : Pattern} {draft : Draft}

theorem branch?_reverse (h : ps ≠ []) :
    (Draft.mk branches ps.reverse).branch? = some (oneOr .seq ps) := by
  obtain ⟨q, qs, hq⟩ := List.exists_cons_of_ne_nil (List.reverse_ne_nil_iff.2 h)
  obtain rfl : ps = (q :: qs).reverse := by rw [← hq, List.reverse_reverse]
  rw [List.reverse_reverse]
  cases qs with
  | nil => rfl
  | cons q' qs => rw [oneOr_of_two_le (by simp)]; rfl

theorem expression?_eq (h : draft.branch? = some p) :
    draft.expression? = some (oneOr .alt (draft.branches.reverse ++ [p])) := by
  unfold expression?
  rw [h, Option.map_some]
  cases hb : draft.branches with
  | nil => rfl
  | cons q qs => rw [oneOr_of_two_le (by simp)]; simp

theorem nextBranch?_eq (h : draft.branch? = some p) :
    draft.nextBranch? = some ⟨p :: draft.branches, []⟩ := by
  unfold nextBranch?
  rw [h]
  rfl

end Draft

namespace Reader

/-! ### Runs that may find a group nested too deep -/

/-- Somewhere in the characters the reader finds a group that is nested too deep. -/
def TooDeep (r : Reader) (cs : List Char) : Prop :=
  ∃ n, cs.foldlM step r = .error ⟨.nestingTooDeep nestingLimit, n⟩

/-- The characters take the reader to a state with `Q`, or, if `deep`, to a group that is nested too
deep. -/
def Takes (deep : Prop) (r : Reader) (cs : List Char) (Q : Reader → Prop) : Prop :=
  (∃ r', r.Runs cs r' ∧ Q r') ∨ deep ∧ r.TooDeep cs

section

variable {deep deep' : Prop} {r m : Reader} {cs ds : List Char} {Q Q' : Reader → Prop}

theorem TooDeep.append (h : r.TooDeep cs) (ds : List Char) : r.TooDeep (cs ++ ds) := by
  obtain ⟨n, hn⟩ := h
  exact ⟨n, Stops.append hn ds⟩

theorem Runs.tooDeep (h : r.Runs cs m) (hds : m.TooDeep ds) : r.TooDeep (cs ++ ds) := by
  obtain ⟨n, hn⟩ := hds
  refine ⟨n, ?_⟩
  rw [List.foldlM_append, show cs.foldlM step r = .ok m from h]
  exact hn

theorem Runs.takes (h : r.Runs cs m) (hm : Q m) : r.Takes deep cs Q := Or.inl ⟨m, h, hm⟩

theorem Takes.imp (h : r.Takes deep cs Q) (hdeep : deep → deep') (hQ : ∀ m, Q m → Q' m) :
    r.Takes deep' cs Q' :=
  Or.imp (fun ⟨m, hm, hQm⟩ => ⟨m, hm, hQ m hQm⟩) (And.imp_left hdeep) h

/-- One text after the other. -/
theorem Takes.append (h : r.Takes deep cs Q) (hds : ∀ m, Q m → m.Takes deep ds Q') :
    r.Takes deep (cs ++ ds) Q' := by
  rcases h with ⟨m, hm, hQ⟩ | ⟨hdeep, htoo⟩
  · rcases hds m hQ with ⟨r', hr', hQ'⟩ | ⟨hdeep, htoo⟩
    · exact Or.inl ⟨r', hm.append hr', hQ'⟩
    · exact Or.inr ⟨hdeep, hm.tooDeep htoo⟩
  · exact Or.inr ⟨hdeep, htoo.append ds⟩

end

/-- A group opens, or there are too many already. -/
theorem At.takes_opens {r : Reader} {stack : List Opening} {draft : Draft} {o : List Char}
    {kind : GroupKind} (h : r.At stack draft) (ho : Opens kind o) :
    r.Takes (nestingLimit ≤ stack.length) o fun r' =>
      ∃ start, r'.At (.group start kind draft :: stack) .empty := by
  by_cases hd : stack.length < nestingLimit
  · obtain ⟨r', start, hruns, hat⟩ := h.runs_opens hd ho
    exact hruns.takes ⟨start, hat⟩
  · have hd : nestingLimit ≤ stack.length := Nat.le_of_not_lt hd
    obtain ⟨n, hn⟩ := h.step_eq (c := '(') (by decide)
    have hfault : r.TooDeep ['('] := by
      refine ⟨n, ?_⟩
      rw [List.foldlM_cons, hn, show factorStep ⟨n, stack, draft, .factor⟩ '(' = _ from if_pos hd]
      rfl
    refine Or.inr ⟨hd, ?_⟩
    cases ho with
    | plain => exact hfault
    | marked | ahead | notAhead => exact hfault.append _

/-! ### Phrases -/

/-- What a reader does with a phrase of a kind inside any number of groups. -/
def TakesPhrase (deep : Nat → Prop) : Phrase → List Char → Pattern → Prop
  | .expression, u, p => ∀ (r : Reader) (stack : List Opening), r.At stack .empty →
    Inside stack → r.Takes (deep stack.length) u fun r' =>
      ∃ draft, r'.At stack draft ∧ draft.expression? = some p
  | .term, u, p => ∀ (r : Reader) (stack : List Opening) (branches : List Pattern),
    r.At stack ⟨branches, []⟩ → Inside stack → r.Takes (deep stack.length) u fun r' =>
      ∃ draft, r'.At stack draft ∧ draft.branches = branches ∧ draft.branch? = some p
  | .factor, u, p => ∀ (r : Reader) (stack : List Opening) (draft : Draft), r.At stack draft →
    Inside stack → r.Takes (deep stack.length) u (·.At stack (draft.push p))
  | .atom, u, p => ∀ (r : Reader) (stack : List Opening) (draft : Draft), r.At stack draft →
    r.Takes (deep stack.length) u (·.After stack draft p)

namespace TakesPhrase

variable {deep deep' : Nat → Prop} {u v o : List Char} {p c : Pattern}
  {xs : List (List Char × Pattern)}

theorem mono {kind : Phrase} (h : TakesPhrase deep kind u p) (hdeep : ∀ n, deep n → deep' n) :
    TakesPhrase deep' kind u p := by
  cases kind with
  | expression => exact fun r stack hr hin => (h r stack hr hin).imp (hdeep _) fun _ => id
  | term => exact fun r stack bs hr hin => (h r stack bs hr hin).imp (hdeep _) fun _ => id
  | factor => exact fun r stack draft hr hin => (h r stack draft hr hin).imp (hdeep _) fun _ => id
  | atom => exact fun r stack draft hr => (h r stack draft hr).imp (hdeep _) fun _ => id

theorem once (h : TakesPhrase deep .atom u p) : TakesPhrase deep .factor u p :=
  fun r stack draft hr hin => (h r stack draft hr).imp id fun _ hafter => hafter.at hin

theorem quantified {min : Nat} {max : Option Nat} (h : TakesPhrase deep .atom u p)
    (hv : IsQuantifier v min max) : TakesPhrase deep .factor (u ++ v) (.repeated p min max) := by
  intro r stack draft hr hin
  refine (h r stack draft hr).append fun m hm => ?_
  obtain ⟨n, rfl⟩ := hm
  rw [settle_of_inside hin]
  obtain ⟨n', hquantifier⟩ := runs_quantifier hv
  exact hquantifier.takes at_factor

/-- Factors are put into the draft one after the other. -/
theorem factors (h : ∀ x ∈ xs, TakesPhrase deep .factor x.1 x.2) {r : Reader}
    {stack : List Opening} {draft : Draft} (hr : r.At stack draft) (hin : Inside stack) :
    r.Takes (deep stack.length) (xs.flatMap Prod.fst)
      (·.At stack ⟨draft.branches, (xs.map Prod.snd).reverse ++ draft.factors⟩) := by
  induction xs generalizing r draft with
  | nil => exact Runs.takes (m := r) rfl hr
  | cons x xs ih =>
    obtain ⟨hx, hxs⟩ := List.forall_mem_cons.1 h
    refine (hx r stack draft hr hin).append fun m hm => ?_
    rw [List.map_cons, List.reverse_cons, List.append_assoc]
    exact ih hxs hm

theorem term (hne : xs ≠ []) (h : ∀ x ∈ xs, TakesPhrase deep .factor x.1 x.2) :
    TakesPhrase deep .term (xs.flatMap Prod.fst) (oneOr .seq (xs.map Prod.snd)) := by
  intro r stack branches hr hin
  refine (factors h hr hin).imp id fun m hm => ⟨_, hm, rfl, ?_⟩
  rw [List.append_nil]
  exact Draft.branch?_reverse (by simpa using hne)

/-- Terms with a bar behind each are put into the draft as branches. -/
theorem terms (h : ∀ x ∈ xs, TakesPhrase deep .term x.1 x.2) {r : Reader} {stack : List Opening}
    {branches : List Pattern} (hr : r.At stack ⟨branches, []⟩) (hin : Inside stack) :
    r.Takes (deep stack.length) (xs.flatMap fun x => x.1 ++ ['|'])
      (·.At stack ⟨(xs.map Prod.snd).reverse ++ branches, []⟩) := by
  induction xs generalizing r branches with
  | nil => exact Runs.takes (m := r) rfl hr
  | cons x xs ih =>
    obtain ⟨hx, hxs⟩ := List.forall_mem_cons.1 h
    rw [List.flatMap_cons, List.append_assoc]
    refine (hx r stack branches hr hin).append fun m hm => ?_
    obtain ⟨draft, hat, rfl, hbranch⟩ := hm
    obtain ⟨k, hk, hkat⟩ := hat.step_bar hin (Draft.nextBranch?_eq hbranch)
    have hbar : m.Takes (deep stack.length) ['|'] (·.At stack ⟨x.2 :: draft.branches, []⟩) :=
      (runs_singleton_iff.2 hk).takes hkat
    refine hbar.append fun m hm => ?_
    rw [List.map_cons, List.reverse_cons, List.append_assoc]
    exact ih hxs hm

theorem expression (hne : xs ≠ []) (h : ∀ x ∈ xs, TakesPhrase deep .term x.1 x.2) :
    TakesPhrase deep .expression (List.intercalate ['|'] (xs.map Prod.fst))
      (oneOr .alt (xs.map Prod.snd)) := by
  intro r stack hr hin
  obtain ⟨init, last, rfl⟩ := List.eq_nil_or_concat xs |>.resolve_left hne
  rw [List.concat_eq_append] at h ⊢
  rw [List.map_append, List.map_singleton, intercalate_concat, List.flatMap_map]
  refine (terms (fun x hx => h x (List.mem_append_left _ hx)) hr hin).append fun m hm => ?_
  refine (h last (by simp) m stack _ hm hin).imp id fun r' hr' => ?_
  obtain ⟨draft, hat, hbranches, hbranch⟩ := hr'
  refine ⟨draft, hat, ?_⟩
  rw [Draft.expression?_eq hbranch, hbranches, List.append_nil, List.reverse_reverse,
    List.map_append, List.map_singleton]

/-- Factors one after the other are an expression of a single term. -/
theorem expression_of_factors (hne : xs ≠ []) (h : ∀ x ∈ xs, TakesPhrase deep .factor x.1 x.2) :
    TakesPhrase deep .expression (xs.flatMap Prod.fst) (oneOr .seq (xs.map Prod.snd)) := by
  have hexpression := expression (List.cons_ne_nil (_, _) [])
    (List.forall_mem_singleton.2 (term hne h))
  rw [List.map_singleton, List.map_singleton, List.intercalate_singleton] at hexpression
  exact hexpression

theorem expression_of_factor (h : TakesPhrase deep .factor u p) :
    TakesPhrase deep .expression u p := by
  have hexpression := expression_of_factors (List.cons_ne_nil (u, p) [])
    (List.forall_mem_singleton.2 h)
  rw [List.flatMap_singleton] at hexpression
  exact hexpression

/-- An expression is read behind an opening parenthesis, inside one group more. -/
theorem opened {kind : GroupKind} (hopen : ∀ n, nestingLimit ≤ n → deep n)
    (hinner : ∀ n, deep' (n + 1) → deep n) (ho : Opens kind o)
    (h : TakesPhrase deep' .expression u p) {r : Reader} {stack : List Opening} {draft : Draft}
    (hr : r.At stack draft) :
    r.Takes (deep stack.length) (o ++ u) fun m => ∃ start inner,
      m.At (.group start kind draft :: stack) inner ∧ inner.expression? = some p := by
  refine ((hr.takes_opens ho).imp (hopen _) fun _ hm => hm).append fun m hm => ?_
  obtain ⟨start, hat⟩ := hm
  exact (h m _ hat trivial).imp (hinner _) fun k hk => ⟨start, hk⟩

theorem group (hopen : ∀ n, nestingLimit ≤ n → deep n) (hinner : ∀ n, deep' (n + 1) → deep n)
    (ho : Opens .plain o) (h : TakesPhrase deep' .expression u p) :
    TakesPhrase deep .atom (o ++ u ++ [')']) p := by
  intro r stack draft hr
  refine (opened hopen hinner ho h hr).append fun m hm => ?_
  obtain ⟨start, inner, hat, hp⟩ := hm
  obtain ⟨r', hclose, hafter⟩ := hat.step_close_plain hp
  exact (runs_singleton_iff.2 hclose).takes hafter

/-- The body of a lookahead settles it. -/
theorem ahead {positive : Bool} (hopen : ∀ n, nestingLimit ≤ n → deep n)
    (hinner : ∀ n, deep' (n + 1) → deep n) (ho : Opens (.condition positive) o)
    (hc : TakesPhrase deep' .expression u c) (hp : TakesPhrase deep' .atom v p) :
    TakesPhrase deep .atom (o ++ u ++ ')' :: v) (.ahead positive c p) := by
  intro r stack draft hr
  refine (opened hopen hinner ho hc hr).append fun m hm => ?_
  obtain ⟨start, inner, hat, hcond⟩ := hm
  obtain ⟨l, hclose, hlat⟩ := hat.step_close_condition hcond
  have hparen : m.Takes (deep stack.length) [')'] (· = l) :=
    (runs_singleton_iff.2 hclose).takes rfl
  refine hparen.append fun l' hl' => ?_
  subst hl'
  exact (hp l' _ draft hlat).imp (hinner _) fun _ hafter => hafter

end TakesPhrase

/-- **Every derived text is read**, unless the reader is inside more groups than the text was
derived in and finds one nested too deep. -/
theorem takes_of_derives {kind : Phrase} {d : Nat} {u : List Char} {p : Pattern}
    (h : Derives kind d u p) : TakesPhrase (d < ·) kind u p := by
  induction h with
  | expression terms hne _ ih => exact .expression hne ih
  | term factors hne _ ih => exact .term hne ih
  | once _ ih => exact ih.once
  | quantified _ hv ih => exact ih.quantified hv
  | character hc =>
    intro r stack draft hr
    obtain ⟨r', hstep, hafter⟩ := hr.step_character hc
    exact (runs_singleton_iff.2 hstep).takes hafter
  | any =>
    intro r stack draft hr
    obtain ⟨r', hstep, hafter⟩ := hr.step_any
    exact (runs_singleton_iff.2 hstep).takes hafter
  | @escape d l c hl =>
    intro r stack draft hr
    obtain ⟨r', hruns, hafter⟩ := hr.runs_escaped l
    rw [escaped_of_isEscape hl] at hafter
    exact hruns.takes hafter
  | shorthand s =>
    intro r stack draft hr
    obtain ⟨r', hruns, hafter⟩ := hr.runs_escaped s.letter
    rw [escaped_letter s] at hafter
    exact hruns.takes hafter
  | brackets hk =>
    intro r stack draft hr
    obtain ⟨r', hruns, hafter⟩ := hr.runs_brackets hk
    exact hruns.takes hafter
  | group hd ho _ ih =>
    exact .group (fun _ hn => Nat.lt_of_lt_of_le hd hn) (fun _ => Nat.lt_of_succ_lt_succ) ho ih
  | ahead hd ho _ _ ihc ihp =>
    exact .ahead (fun _ hn => Nat.lt_of_lt_of_le hd hn) (fun _ => Nat.lt_of_succ_lt_succ) ho ihc ihp

/-- What a reader does with a phrase of a kind inside as many groups as it was derived in. -/
def Carries : Phrase → Nat → List Char → Pattern → Prop
  | .expression, d, u, p => ∀ (r : Reader) (stack : List Opening), r.At stack .empty →
    Inside stack → stack.length = d →
      ∃ (r' : Reader) (draft : Draft), r.Runs u r' ∧ r'.At stack draft ∧ draft.expression? = some p
  | .term, d, u, p => ∀ (r : Reader) (stack : List Opening) (branches : List Pattern),
    r.At stack ⟨branches, []⟩ → Inside stack → stack.length = d →
      ∃ (r' : Reader) (draft : Draft), r.Runs u r' ∧ r'.At stack draft ∧
        draft.branches = branches ∧ draft.branch? = some p
  | .factor, d, u, p => ∀ (r : Reader) (stack : List Opening) (draft : Draft), r.At stack draft →
    Inside stack → stack.length = d → ∃ r' : Reader, r.Runs u r' ∧ r'.At stack (draft.push p)
  | .atom, d, u, p => ∀ (r : Reader) (stack : List Opening) (draft : Draft), r.At stack draft →
    stack.length = d → ∃ r' : Reader, r.Runs u r' ∧ r'.After stack draft p

/-- Inside the groups that it was derived in, a text is read in any case. -/
theorem carries_of_derives {kind : Phrase} {d : Nat} {u : List Char} {p : Pattern}
    (h : Derives kind d u p) : Carries kind d u p := by
  have htakes := takes_of_derives h
  have hruns : ∀ {r : Reader} {Q : Reader → Prop}, r.Takes (d < d) u Q → ∃ r', r.Runs u r' ∧ Q r' :=
    fun hr => hr.resolve_right fun hdeep => Nat.lt_irrefl d hdeep.1
  cases kind with
  | expression =>
    rintro r stack hr hin rfl
    obtain ⟨r', hu, draft, hat⟩ := hruns (htakes r stack hr hin)
    exact ⟨r', draft, hu, hat⟩
  | term =>
    rintro r stack branches hr hin rfl
    obtain ⟨r', hu, draft, hat⟩ := hruns (htakes r stack branches hr hin)
    exact ⟨r', draft, hu, hat⟩
  | factor =>
    rintro r stack draft hr hin rfl
    exact hruns (htakes r stack draft hr hin)
  | atom =>
    rintro r stack draft hr rfl
    exact hruns (htakes r stack draft hr)

end Reader

/-- A text that is an expression is parsed to the pattern that it denotes. -/
theorem Pattern.parseChars_of_derives {cs : List Char} {p : Pattern}
    (h : Derives .expression 0 cs p) : parseChars cs = .ok p := by
  obtain ⟨r, draft, hruns, hat, hp⟩ :=
    Reader.carries_of_derives h Reader.start [] Reader.at_factor trivial rfl
  exact parseChars_eq_ok_iff.2 ⟨r, hruns, hat.finish_eq_ok_iff.2 ⟨rfl, hp⟩⟩

/-- A text that is taken as an expression, as far as its groups allow, is parsed to the pattern, or
its groups are nested too deep. -/
theorem Pattern.parseChars_of_takes {cs : List Char} {p : Pattern}
    (h : Reader.TakesPhrase (fun _ => True) .expression cs p) :
    parseChars cs = .ok p ∨ ∃ n, parseChars cs = .error ⟨.nestingTooDeep nestingLimit, n⟩ := by
  rcases h Reader.start [] Reader.at_factor trivial with ⟨r, hruns, draft, hat, hp⟩ | ⟨-, n, hn⟩
  · exact Or.inl (parseChars_eq_ok_iff.2 ⟨r, hruns, hat.finish_eq_ok_iff.2 ⟨rfl, hp⟩⟩)
  · refine Or.inr ⟨n, ?_⟩
    cases cs with
    | nil => cases hn
    | cons c cs =>
      show ((c :: cs).foldlM Reader.step Reader.start >>= Reader.finish) = _
      rw [hn]
      rfl

end PatternSweep
