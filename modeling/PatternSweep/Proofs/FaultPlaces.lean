import PatternSweep.Proofs.ReaderTexts

/-!
# Where faults are reported

`fault.PointsAt cs n` says what the text `cs` has at the offset `n` if the fault is reported there:
the character or the construct at fault, from its first character on, or the end of the text where
something is missing. A reader is `Located` after a text if its offset is the length of the text,
and if whatever it keeps an offset of, such as an open group, begins at that offset.

Each character of a pattern leads from a located reader to a located one, or to an error that points
at its cause, whatever follows in the text (`Located.step`). So every error of a parsed text points
at its cause (`syntax_errors_point_at_their_cause`).
-/

namespace PatternSweep

open Grammar

/-! ### Places in a text -/

/-- The characters `w` stand in the text `cs` from the offset `n` on. -/
def StandsAt (cs : List Char) (n : Nat) (w : List Char) : Prop :=
  ∃ u v, cs = u ++ w ++ v ∧ u.length = n

/-- The characters `w` end the text `cs`, from the offset `n` on. -/
def EndsFrom (cs : List Char) (n : Nat) (w : List Char) : Prop := ∃ u, cs = u ++ w ∧ u.length = n

/-- From the offset `n` on the text `cs` has the digits `ds`, and no digit right before or behind
them. -/
def IsDigitRun (cs : List Char) (n : Nat) (ds : List Char) : Prop :=
  ∃ u v, cs = u ++ ds ++ v ∧ u.length = n ∧ ds ≠ [] ∧ (∀ c ∈ ds, c.isDigit = true) ∧
    (∀ c ∈ u.getLast?, c.isDigit = false) ∧ ∀ c ∈ v.head?, c.isDigit = false

section

variable {cs u v w ds : List Char} {n : Nat} {c : Char}

theorem StandsAt.le_length (h : StandsAt cs n w) : n + w.length ≤ cs.length := by
  obtain ⟨u, v, rfl, rfl⟩ := h
  simp

theorem StandsAt.append (h : StandsAt cs n w) (v : List Char) : StandsAt (cs ++ v) n w := by
  obtain ⟨u, v', rfl, hu⟩ := h
  exact ⟨u, v' ++ v, by simp, hu⟩

theorem standsAt_here (u v : List Char) (c : Char) : StandsAt (u ++ c :: v) u.length [c] :=
  ⟨u, v, by simp, rfl⟩

theorem endsFrom_here (u : List Char) (c : Char) : EndsFrom (u ++ [c]) u.length [c] :=
  ⟨u, rfl, rfl⟩

theorem EndsFrom.standsAt (h : EndsFrom cs n w) : StandsAt cs n w := by
  obtain ⟨u, rfl, hu⟩ := h
  exact ⟨u, [], by simp, hu⟩

theorem EndsFrom.snoc (h : EndsFrom cs n w) (c : Char) : EndsFrom (cs ++ [c]) n (w ++ [c]) := by
  obtain ⟨u, rfl, hu⟩ := h
  exact ⟨u, by simp, hu⟩

/-- The last characters of a text stand where they are, with the next character behind them. -/
theorem EndsFrom.standsAt_cons (h : EndsFrom cs n w) (c : Char) (v : List Char) :
    StandsAt (cs ++ c :: v) n (w ++ [c]) := by
  rw [List.append_cons]
  exact (h.snoc c).standsAt.append v

theorem EndsFrom.length_eq (h : EndsFrom cs n w) : n + w.length = cs.length := by
  obtain ⟨u, rfl, rfl⟩ := h
  simp

/-- Digits behind something else are the beginning of a run of digits. -/
theorem isDigitRun_takeWhile (hu : ∀ d ∈ u.getLast?, d.isDigit = false)
    (hds : ∀ d ∈ ds, d.isDigit = true) (hc : c.isDigit = true) (v : List Char) :
    IsDigitRun (u ++ ds ++ c :: v) u.length (ds ++ c :: v.takeWhile Char.isDigit) := by
  refine ⟨u, v.dropWhile Char.isDigit, ?_, rfl, by simp, ?_, hu, ?_⟩
  · simp [List.takeWhile_append_dropWhile]
  · refine List.forall_mem_append.2 ⟨hds, List.forall_mem_cons.2 ⟨hc, fun d hd => ?_⟩⟩
    exact List.all_eq_true.1 List.all_takeWhile d hd
  · intro d hd
    have := List.head?_dropWhile_not Char.isDigit v
    rw [Option.mem_def.1 hd] at this
    simpa using this

end

/-- What the text `cs` has at the offset `n`, if the fault is reported there. -/
def Fault.PointsAt (cs : List Char) (n : Nat) : Fault → Prop
  | .unexpectedChar c => StandsAt cs n [c]
  | .unexpectedEnd => n = cs.length
  | .emptyPattern => cs = [] ∧ n = 0
  | .emptyAlternative => n = cs.length ∨ StandsAt cs n ['|'] ∨ StandsAt cs n [')']
  | .unclosedGroup => StandsAt cs n ['(']
  | .unbalancedParenthesis => StandsAt cs n [')']
  | .unsupportedGroup c => c ∉ [':', '=', '!'] ∧ ∃ m, n = m + 2 ∧ StandsAt cs m ['(', '?', c]
  | .unterminatedClass => StandsAt cs n ['[']
  | .emptyClass => StandsAt cs n ['[', ']'] ∨ StandsAt cs n ['[', '^', ']']
  | .invalidRange first last => last < first ∧
    ∃ v w, StandsAt cs n (v ++ '-' :: w) ∧ IsBracketChar v first ∧ IsBracketChar w last
  | .expectedNumber => ∃ c, StandsAt cs n [c] ∧ c.isDigit = false
  | .invalidQuantifier min max => max < min ∧
    ∃ ds es, StandsAt cs n ('{' :: ds ++ ',' :: es ++ ['}']) ∧ IsNumber ds min ∧ IsNumber es max
  | .numberTooLarge => ∃ ds, IsDigitRun cs n ds ∧ UInt64.size ≤ Nat.ofDigitChars 10 ds 0
  | .danglingEscape => n + 1 = cs.length ∧ StandsAt cs n ['\\']
  | .nothingToRepeat c => c ∈ ['*', '+', '?', '{'] ∧ StandsAt cs n [c]
  | .nestingTooDeep limit => limit = nestingLimit ∧ StandsAt cs n ['(']

/-- The place of a fault lies within the text or at its end. -/
theorem Fault.PointsAt.le_length {fault : Fault} {cs : List Char} {n : Nat}
    (h : fault.PointsAt cs n) : n ≤ cs.length := by
  have hstands : ∀ {m w}, StandsAt cs m w → m ≤ cs.length :=
    fun hw => Nat.le_of_add_right_le hw.le_length
  cases fault with
  | unexpectedChar | unclosedGroup | unbalancedParenthesis | unterminatedClass => exact hstands h
  | unexpectedEnd => exact Nat.le_of_eq h
  | emptyPattern => exact h.2 ▸ Nat.zero_le _
  | emptyAlternative => exact h.elim Nat.le_of_eq (Or.elim · hstands hstands)
  | unsupportedGroup c =>
    obtain ⟨-, m, rfl, hm⟩ := h
    have : m + 3 ≤ cs.length := hm.le_length
    omega
  | emptyClass => exact h.elim hstands hstands
  | invalidRange =>
    obtain ⟨-, v, w, h, -⟩ := h
    exact hstands h
  | expectedNumber =>
    obtain ⟨c, h, -⟩ := h
    exact hstands h
  | invalidQuantifier =>
    obtain ⟨-, ds, es, h, -⟩ := h
    exact hstands h
  | numberTooLarge =>
    obtain ⟨ds, ⟨u, v, hcs, hu, -⟩, -⟩ := h
    exact hstands ⟨u, v, hcs, hu⟩
  | danglingEscape => exact Nat.le_of_add_right_le (Nat.le_of_eq h.1)
  | nothingToRepeat | nestingTooDeep => exact hstands h.2

namespace Reader

/-! ### Readers that know their places -/

/-- Every open group starts with a parenthesis. -/
def GroupsStart (u : List Char) (stack : List Opening) : Prop :=
  ∀ start kind outer, .group start kind outer ∈ stack → StandsAt u start ['(']

/-- The text ends with a part of a bounded quantifier that starts at `start`. -/
def BoundsPlace (u : List Char) (start : Nat) : BoundsPart → Prop
  | .min number => ∃ ds, EndsFrom u start ('{' :: ds) ∧ NumberText number ds ∧
    ∀ b ∈ number, b.start = start + 1
  | .max m number => ∃ ds es, EndsFrom u start ('{' :: ds ++ ',' :: es) ∧ IsNumber ds m ∧
    NumberText number es ∧ ∀ b ∈ number, b.start = start + 1 + ds.length + 1

/-- The text ends with a part of a member of the class `k`, which starts where it says; a class
without members has just been opened. -/
def MemberPlace (u : List Char) (k : Brackets) : BracketPart → Prop
  | .item => k.items = [] → EndsFrom u k.start ['['] ∨ EndsFrom u k.start ['[', '^']
  | .escape start => EndsFrom u start ['\\']
  | .single start c => ∃ v, EndsFrom u start v ∧ IsBracketChar v c
  | .dash start c => ∃ v, EndsFrom u start (v ++ ['-']) ∧ IsBracketChar v c
  | .dashEscape start c => ∃ v, EndsFrom u start (v ++ ['-', '\\']) ∧ IsBracketChar v c

/-- What the next character continues starts where the mode says. -/
def ModePlace (u : List Char) : Mode → Prop
  | .factor | .quantifier _ => True
  | .groupStart start => EndsFrom u start ['(']
  | .groupKind start => EndsFrom u start ['(', '?']
  | .escape start => EndsFrom u start ['\\']
  | .bounds start _ part => BoundsPlace u start part
  | .bracketStart start => EndsFrom u start ['[']
  | .brackets k part => StandsAt u k.start ['['] ∧ MemberPlace u k part

/-- The reader is behind the text `u`, and what it keeps offsets of starts there. -/
structure Located (r : Reader) (u : List Char) : Prop where
  offset : r.offset = u.length
  groups : GroupsStart u r.stack
  mode : ModePlace u r.mode

/-- What the character `c` behind the text `u` may lead to: a reader that knows its places, or an
error that points at its cause, whatever follows. -/
def Outcome (u : List Char) (c : Char) : Except SyntaxError Reader → Prop
  | .ok r => r.Located (u ++ [c])
  | .error e => ∀ v, e.fault.PointsAt (u ++ c :: v) e.offset

section

variable {r : Reader} {u : List Char} {c : Char} {stack : List Opening} {draft : Draft} {m : Mode}
  {p : Pattern} {start : Nat} {fault : Fault} {kind : GroupKind}

theorem located_start : Reader.start.Located [] :=
  ⟨rfl, fun _ _ _ h => (List.not_mem_nil h).elim, trivial⟩

theorem GroupsStart.append (h : GroupsStart u stack) (v : List Char) :
    GroupsStart (u ++ v) stack :=
  fun start kind outer hmem => (h start kind outer hmem).append v

theorem GroupsStart.subset {stack' : List Opening} (h : GroupsStart u stack)
    (hsub : stack' ⊆ stack) : GroupsStart u stack' :=
  fun start kind outer hmem => h start kind outer (hsub hmem)

theorem GroupsStart.group (h : GroupsStart u stack) (hstart : StandsAt u start ['(']) :
    GroupsStart u (.group start kind draft :: stack) := by
  intro start' kind' outer hmem
  rcases List.mem_cons.1 hmem with heq | hmem
  · cases heq
    exact hstart
  · exact h start' kind' outer hmem

theorem GroupsStart.body {positive : Bool} (h : GroupsStart u stack) :
    GroupsStart u (.body positive p :: stack) := by
  intro start kind outer hmem
  rcases List.mem_cons.1 hmem with heq | hmem
  · cases heq
  · exact h start kind outer hmem

theorem settle_subset (stack : List Opening) (p : Pattern) : (settle stack p).1 ⊆ stack := by
  induction stack generalizing p with
  | nil => exact List.Subset.refl _
  | cons o stack ih =>
    cases o with
    | group => exact List.Subset.refl _
    | body positive q => exact List.subset_cons_of_subset _ (ih _)

/-- One character taken. -/
theorem Outcome.taken (hn : r.offset = u.length) (hstack : GroupsStart u stack)
    (hmode : ModePlace (u ++ [c]) m) :
    Outcome u c (.ok { r.enter m with stack := stack, draft := draft }) where
  offset := by simp [enter, hn]
  groups := hstack.append [c]
  mode := hmode

theorem Outcome.endAtom (hn : r.offset = u.length) (hstack : GroupsStart u r.stack) (p : Pattern) :
    Outcome u c (.ok (r.endAtom p)) :=
  .taken hn (hstack.subset (settle_subset r.stack p)) trivial

theorem Outcome.endFactor (hn : r.offset = u.length) (hstack : GroupsStart u r.stack)
    (p : Pattern) : Outcome u c (.ok (r.endFactor p)) :=
  .taken hn hstack trivial

/-- A fault at the reading place. -/
theorem Outcome.fail (hn : r.offset = u.length)
    (h : ∀ v, StandsAt (u ++ c :: v) u.length [c] → fault.PointsAt (u ++ c :: v) u.length) :
    Outcome u c (r.fail fault) := by
  intro v
  rw [hn]
  exact h v (standsAt_here u v c)

/-! ### One character -/

theorem outcome_closeGroup (hn : r.offset = u.length) (hstack : GroupsStart u r.stack)
    (p : Pattern) : Outcome u ')' (r.closeGroup p) := by
  unfold closeGroup
  split
  next stack h =>
    rw [h] at hstack
    have hrest : GroupsStart u stack := hstack.subset (List.subset_cons_self _ _)
    exact .taken hn (hrest.subset (settle_subset stack p)) trivial
  next stack h =>
    rw [h] at hstack
    exact .taken hn (hstack.subset (List.subset_cons_self _ _)).body trivial
  next => exact .fail hn fun v hc => hc

theorem outcome_factorStep (hn : r.offset = u.length) (hstack : GroupsStart u r.stack) :
    Outcome u c (r.factorStep c) := by
  unfold factorStep
  split
  · -- an opening parenthesis
    split
    · exact .fail hn fun v hc => ⟨rfl, hc⟩
    · exact .taken hn hstack (hn ▸ endsFrom_here u '(')
  · exact .taken hn hstack (hn ▸ endsFrom_here u '[')
  · exact .taken hn hstack (hn ▸ endsFrom_here u '\\')
  · exact .endAtom hn hstack _
  · exact .fail hn fun v hc => ⟨by decide, hc⟩
  · exact .fail hn fun v hc => ⟨by decide, hc⟩
  · exact .fail hn fun v hc => ⟨by decide, hc⟩
  · exact .fail hn fun v hc => ⟨by decide, hc⟩
  · exact .fail hn fun v hc => hc
  · -- a bar
    split
    · exact .fail hn fun v hc => hc
    · split
      · exact .fail hn fun v hc => Or.inr (Or.inl hc)
      · exact .taken hn hstack trivial
  · -- a closing parenthesis
    split
    · exact .fail hn fun v hc => hc
    · split
      · exact .fail hn fun v hc => Or.inr (Or.inr hc)
      · exact outcome_closeGroup hn hstack _
  · exact .endAtom hn hstack _

theorem outcome_quantifierStep (hn : r.offset = u.length) (hstack : GroupsStart u r.stack)
    (p : Pattern) : Outcome u c (r.quantifierStep p c) := by
  unfold quantifierStep
  split
  · exact .endFactor hn hstack _
  · exact .endFactor hn hstack _
  · exact .endFactor hn hstack _
  · exact .taken hn hstack ⟨[], hn ▸ endsFrom_here u '{', rfl, nofun⟩
  · exact outcome_factorStep hn hstack

theorem outcome_groupKindStep (hn : r.offset = u.length) (hstack : GroupsStart u r.stack)
    (hstart : EndsFrom u start ['(', '?']) : Outcome u c (r.groupKindStep start c) := by
  have hopen : StandsAt u start ['('] := by
    obtain ⟨v, rfl, hv⟩ := hstart
    exact ⟨v, ['?'], by simp, hv⟩
  unfold groupKindStep
  split
  · exact .taken hn (hstack.group hopen) trivial
  · exact .taken hn (hstack.group hopen) trivial
  · exact .taken hn (hstack.group hopen) trivial
  · refine .fail hn fun v hc => ⟨by simp_all, start, ?_, hstart.standsAt_cons _ v⟩
    exact hstart.length_eq.symm

end

/-! ### Bounded quantifiers -/

section

variable {r : Reader} {u v ds : List Char} {c : Char} {start min : Nat} {max : Option Nat}
  {number : Option Bound} {part : BoundsPart}

theorem NumberText.digits (h : NumberText number ds) (n : Nat) :
    (∀ c ∈ ds, c.isDigit = true) ∧ Nat.ofDigitChars 10 ds 0 = (number.getD ⟨n, 0⟩).value := by
  cases number with
  | none =>
    obtain rfl : ds = [] := h
    exact ⟨by simp, rfl⟩
  | some b => exact ⟨h.isDigit, h.value⟩

/-- One more digit goes on with the number that starts behind `v`, or makes it too large. -/
theorem outcome_digit {mode : Bound → Mode} (hn : r.offset = u.length)
    (hstack : GroupsStart u r.stack) (hu : u = v ++ ds) (hv : ∀ d ∈ v.getLast?, d.isDigit = false)
    (hds : NumberText number ds) (hnumber : ∀ b ∈ number, b.start = v.length)
    (hc : c.isDigit = true) (hmode : ∀ b, b.start = v.length → NumberText (some b) (ds ++ [c]) →
      ModePlace (u ++ [c]) (mode b)) :
    Outcome u c (do return r.enter (mode (← r.digitStep number c))) := by
  have hstart : (number.getD ⟨r.offset, 0⟩).start = v.length := by
    cases number with
    | none =>
      obtain rfl : ds = [] := hds
      rw [Option.getD_none, hn, hu, List.append_nil]
    | some b => exact hnumber b rfl
  obtain ⟨hdigits, hvalue⟩ := hds.digits r.offset
  unfold digitStep
  simp only
  split
  next hlt => exact Outcome.taken hn hstack (hmode _ hstart (hds.snoc hc hlt))
  next hlt =>
    intro w
    show Fault.PointsAt _ (number.getD ⟨r.offset, 0⟩).start .numberTooLarge
    rw [hstart, hu]
    refine ⟨_, isDigitRun_takeWhile hv hdigits hc w, ?_⟩
    rw [Nat.ofDigitChars_append, hvalue, Nat.ofDigitChars_cons]
    exact Nat.le_trans (Nat.le_of_not_lt hlt) (le_ofDigitChars _ _)

/-- The brace that ends a quantifier, whose counts must be in order. -/
theorem outcome_endBounds (hn : r.offset = u.length) (hstack : GroupsStart u r.stack) (p : Pattern)
    (h : ∀ m ∈ max, m < min → ∀ v, Fault.PointsAt (u ++ c :: v) start (.invalidQuantifier min m)) :
    Outcome u c (r.endBounds start p min max) := by
  unfold endBounds
  split
  next m =>
    split
    · exact .endFactor hn hstack _
    next hle => exact h m rfl (Nat.lt_of_not_le hle)
  next => exact .endFactor hn hstack _

theorem outcome_minStep (hn : r.offset = u.length) (hstack : GroupsStart u r.stack) (p : Pattern)
    (hpart : BoundsPlace u start (.min number)) :
    Outcome u c (r.boundsStep start p (.min number) c) := by
  obtain ⟨ds, hend, hds, hnumber⟩ := hpart
  obtain ⟨v, rfl, rfl⟩ := id hend
  simp only [boundsStep]
  split
  next hc =>
    refine outcome_digit (v := v ++ ['{']) hn hstack (by simp) (by simp) hds
      (by simpa using hnumber) hc fun b hb hds => ?_
    exact ⟨_, hend.snoc c, hds, by simpa using hb⟩
  next hc =>
    have hc : c.isDigit = false := Bool.eq_false_iff.2 hc
    split
    next => exact .fail hn fun w h => ⟨c, h, hc⟩
    next b =>
      split
      next hcomma =>
        subst hcomma
        exact .taken hn hstack ⟨ds, [], hend.snoc ',', hds, rfl, nofun⟩
      next =>
        split
        next hbrace =>
          -- one number is both bounds
          refine outcome_endBounds hn hstack p fun m hm hlt => ?_
          exact absurd hlt (Option.some.inj hm ▸ Nat.lt_irrefl _)
        next => exact .fail hn fun w h => h

theorem outcome_maxStep (hn : r.offset = u.length) (hstack : GroupsStart u r.stack) (p : Pattern)
    (hpart : BoundsPlace u start (.max min number)) :
    Outcome u c (r.boundsStep start p (.max min number) c) := by
  obtain ⟨ds, es, hend, hmin, hes, hnumber⟩ := hpart
  obtain ⟨v, rfl, rfl⟩ := id hend
  simp only [boundsStep]
  split
  next hc =>
    have hcomma : ∀ d ∈ (v ++ '{' :: ds ++ [',']).getLast?, d.isDigit = false := by
      rw [List.getLast?_concat]
      rintro _ ⟨⟩
      decide
    refine outcome_digit hn hstack (by simp) hcomma hes (fun b hb => ?_) hc fun b hb hes => ?_
    · rw [hnumber b hb]
      simp
      omega
    · refine ⟨ds, es ++ [c], ?_, hmin, hes, ?_⟩
      · simpa using hend.snoc c
      · rintro _ ⟨⟩
        rw [hb]
        simp
        omega
  next hc =>
    have hc : c.isDigit = false := Bool.eq_false_iff.2 hc
    split
    next =>
      split
      next => exact outcome_endBounds hn hstack p nofun
      next => exact .fail hn fun w h => ⟨c, h, hc⟩
    next b =>
      split
      next hbrace =>
        subst hbrace
        refine outcome_endBounds hn hstack p fun m hm hlt w => ?_
        obtain rfl := Option.some.inj hm
        exact ⟨hlt, ds, es, hend.standsAt_cons _ w, hmin, hes⟩
      next => exact .fail hn fun w h => h

theorem outcome_boundsStep (hn : r.offset = u.length) (hstack : GroupsStart u r.stack) (p : Pattern)
    (hpart : BoundsPlace u start part) : Outcome u c (r.boundsStep start p part c) := by
  cases part with
  | min number => exact outcome_minStep hn hstack p hpart
  | max min number => exact outcome_maxStep hn hstack p hpart

end

/-! ### Bracket expressions -/

section

variable {r : Reader} {u v w : List Char} {c first last : Char} {start : Nat} {k : Brackets}
  {part : BracketPart}

theorem outcome_endBrackets (hn : r.offset = u.length) (hstack : GroupsStart u r.stack)
    (h : k.items = [] → EndsFrom u k.start ['['] ∨ EndsFrom u k.start ['[', '^']) :
    Outcome u ']' (r.endBrackets k) := by
  unfold endBrackets
  split
  next hempty =>
    intro v
    exact (h (List.isEmpty_iff.1 hempty)).imp (·.standsAt_cons _ v) (·.standsAt_cons _ v)
  next => exact .endAtom hn hstack _

theorem outcome_itemStep (hn : r.offset = u.length) (hstack : GroupsStart u r.stack)
    (hopen : StandsAt u k.start ['['])
    (h : k.items = [] → EndsFrom u k.start ['['] ∨ EndsFrom u k.start ['[', '^']) :
    Outcome u c (r.itemStep k c) := by
  unfold itemStep
  split
  next hc =>
    subst hc
    exact outcome_endBrackets hn hstack h
  next hbracket =>
    split
    next hc =>
      subst hc
      exact .taken hn hstack ⟨hopen.append _, hn ▸ endsFrom_here u '\\'⟩
    next hbackslash =>
      refine .taken hn hstack ⟨hopen.append _, [c], hn ▸ endsFrom_here u c, ?_⟩
      exact .plain hbracket hbackslash

/-- The end of a range, whose characters must be in order. -/
theorem outcome_endRange (hn : r.offset = u.length) (hstack : GroupsStart u r.stack)
    (hopen : StandsAt u k.start ['[']) (hv : IsBracketChar v first) (hw : IsBracketChar w last)
    (h : ∀ x, StandsAt (u ++ c :: x) start (v ++ '-' :: w)) :
    Outcome u c (r.endRange k start first last) := by
  unfold endRange
  split
  · exact .taken hn hstack ⟨hopen.append _, nofun⟩
  next hle => exact fun x => ⟨Char.not_le.1 hle, v, w, h x, hv, hw⟩

theorem outcome_bracketStep (hn : r.offset = u.length) (hstack : GroupsStart u r.stack)
    (hopen : StandsAt u k.start ['[']) (hpart : MemberPlace u k part) :
    Outcome u c (r.bracketStep k part c) := by
  unfold bracketStep
  cases part with
  | item => exact outcome_itemStep hn hstack hopen hpart
  | escape start =>
    simp only
    split
    next s hs => exact .taken hn hstack ⟨hopen.append _, nofun⟩
    next hs =>
      refine .taken hn hstack ⟨hopen.append _, ['\\', c], hpart.snoc c, ?_⟩
      exact .escaped (isEscape_iff.2 ⟨hs, rfl⟩)
  | single start first =>
    obtain ⟨v, hend, hv⟩ := hpart
    simp only
    split
    next hc =>
      subst hc
      exact .taken hn hstack ⟨hopen.append _, v, hend.snoc '-', hv⟩
    next => exact outcome_itemStep (k := addItem k (.char first)) hn hstack hopen nofun
  | dash start first =>
    obtain ⟨v, hend, hv⟩ := hpart
    simp only
    split
    next hc =>
      subst hc
      exact outcome_endBrackets hn hstack nofun
    next hbracket =>
      split
      next hc =>
        subst hc
        refine .taken hn hstack ⟨hopen.append _, v, ?_, hv⟩
        simpa using hend.snoc '\\'
      next hbackslash =>
        refine outcome_endRange hn hstack hopen hv (.plain hbracket hbackslash) fun x => ?_
        simpa using hend.standsAt_cons c x
  | dashEscape start first =>
    obtain ⟨v, hend, hv⟩ := hpart
    simp only
    split
    next s hs =>
      obtain rfl := Shorthand.ofLetter?_eq_some_iff.1 hs
      exact .fail hn fun w h => h
    next hs =>
      refine outcome_endRange hn hstack hopen hv (.escaped (isEscape_iff.2 ⟨hs, rfl⟩)) fun x => ?_
      simpa using hend.standsAt_cons c x

end

/-! ### Texts -/

section

variable {r r' : Reader} {u v : List Char} {c : Char} {e : SyntaxError}

/-- **One character leads on to known places, or to an error that points at its cause.** -/
theorem Located.step (h : r.Located u) (c : Char) : Outcome u c (r.step c) := by
  obtain ⟨n, stack, draft, mode⟩ := r
  obtain ⟨hn, hstack, hmode⟩ := h
  cases mode with
  | factor => exact outcome_factorStep hn hstack
  | quantifier p => exact outcome_quantifierStep hn hstack p
  | groupStart start =>
    show Outcome u c (if c = '?' then _ else _)
    split
    next hc =>
      subst hc
      exact .taken hn hstack (EndsFrom.snoc hmode '?')
    next => exact outcome_factorStep hn (hstack.group (EndsFrom.standsAt hmode))
  | groupKind start => exact outcome_groupKindStep hn hstack hmode
  | escape start => exact .endAtom hn hstack _
  | bounds start p part => exact outcome_boundsStep hn hstack p hmode
  | bracketStart start =>
    show Outcome u c (if c = '^' then _ else _)
    split
    next hc =>
      subst hc
      exact .taken hn hstack
        ⟨(EndsFrom.standsAt hmode).append _, fun _ => Or.inr (EndsFrom.snoc hmode '^')⟩
    next =>
      exact outcome_itemStep (k := ⟨start, false, []⟩) hn hstack (EndsFrom.standsAt hmode)
        fun _ => Or.inl hmode
  | brackets k part => exact outcome_bracketStep hn hstack hmode.1 hmode.2

/-- The end of the text where a factor may start is an error at what is still open. -/
theorem pointsAt_of_finishFactor (hfinish : r.finishFactor = .error e) (hn : r.offset = u.length)
    (hstack : GroupsStart u r.stack) : e.fault.PointsAt u e.offset := by
  unfold finishFactor at hfinish
  split at hfinish
  next =>
    cases hfinish
    exact hn
  next =>
    split at hfinish
    next =>
      cases hfinish
      exact Or.inl hn
    next hgroup =>
      cases hfinish
      exact hstack _ _ _ (hgroup ▸ List.mem_cons_self)
    next => cases hfinish

/-- At the end of the text an error points at its cause. -/
theorem Located.finish (h : r.Located u) (hfinish : r.finish = .error e) :
    e.fault.PointsAt u e.offset := by
  obtain ⟨n, stack, draft, mode⟩ := r
  obtain ⟨hn, hstack, hmode⟩ := h
  cases mode with
  | factor => exact pointsAt_of_finishFactor hfinish hn hstack
  | quantifier p =>
    have hfinish : finishFactor ⟨n, stack, draft.push p, .quantifier p⟩ = .error e := hfinish
    exact pointsAt_of_finishFactor hfinish hn hstack
  | groupStart start =>
    cases hfinish
    exact Or.inl hn
  | groupKind | bounds =>
    cases hfinish
    exact hn
  | escape start =>
    cases hfinish
    exact ⟨EndsFrom.length_eq hmode, EndsFrom.standsAt hmode⟩
  | bracketStart start =>
    cases hfinish
    exact EndsFrom.standsAt hmode
  | brackets k part =>
    cases hfinish
    exact hmode.1

theorem Located.run (h : r.Located u) (hruns : r.Runs v r') : r'.Located (u ++ v) := by
  induction v generalizing r u with
  | nil =>
    obtain rfl := runs_nil_iff.1 hruns
    simpa using h
  | cons c v ih =>
    obtain ⟨m, hm, hruns⟩ := runs_cons_iff.1 hruns
    have hstep := h.step c
    rw [hm] at hstep
    simpa using ih hstep hruns

/-- An error on the way through a text points at its cause. -/
theorem Located.stops (h : r.Located u) (hstops : r.Stops v e) :
    e.fault.PointsAt (u ++ v) e.offset := by
  induction v generalizing r u with
  | nil => exact (not_stops_nil hstops).elim
  | cons c v ih =>
    have hstep := h.step c
    rcases stops_cons_iff.1 hstops with hc | ⟨m, hm, hstops⟩
    · rw [hc] at hstep
      exact hstep v
    · rw [hm] at hstep
      simpa using ih hstep hstops

end

end Reader

/-- Every error of a text points at its cause. -/
theorem Pattern.pointsAt_of_parseChars {cs : List Char} {e : SyntaxError}
    (h : parseChars cs = .error e) : e.fault.PointsAt cs e.offset := by
  rcases parseChars_eq_error_iff.1 h with ⟨rfl, rfl⟩ | ⟨-, hstops | ⟨r, hruns, hfinish⟩⟩
  · exact ⟨rfl, rfl⟩
  · exact Reader.located_start.stops hstops
  · exact (Reader.located_start.run hruns).finish hfinish

/-- **Syntax errors point at their cause.** The offset of an error lies within the text or at its
end, and what the fault says is what the text has there. That the pattern is empty is said of the
empty text alone. -/
theorem syntax_errors_point_at_their_cause :
    (∀ (written : String) (e : SyntaxError), Pattern.parse written = .error e →
      e.offset ≤ written.toList.length ∧ e.fault.PointsAt written.toList e.offset) ∧
    ∀ (written : String) (n : Nat),
      Pattern.parse written = .error ⟨.emptyPattern, n⟩ ↔ written = "" ∧ n = 0 := by
  constructor
  · intro written e h
    have hpoints := Pattern.pointsAt_of_parseChars h
    exact ⟨hpoints.le_length, hpoints⟩
  · intro written n
    constructor
    · intro h
      obtain ⟨hempty, hn⟩ := Pattern.pointsAt_of_parseChars h
      exact ⟨String.toList_eq_nil_iff.1 hempty, hn⟩
    · rintro ⟨rfl, rfl⟩
      rfl

/-- The reversed range of `x[z-a]`, a bound of too many digits, and the empty text. -/
theorem syntax_errors_point_at_their_cause_in_za :
    (Pattern.parse "x[z-a]" = .error ⟨.invalidRange 'z' 'a', 2⟩ ∧
      Fault.PointsAt "x[z-a]".toList 2 (.invalidRange 'z' 'a')) ∧
    (Pattern.parse "a\x7b7,99999999999999999999\x7d" = .error ⟨.numberTooLarge, 4⟩ ∧
      Fault.PointsAt "a\x7b7,99999999999999999999\x7d".toList 4 .numberTooLarge) ∧
    (Pattern.parse "" = .error ⟨.emptyPattern, 0⟩ ↔ "" = "" ∧ 0 = 0) := by
  obtain ⟨hpoints, hempty⟩ := syntax_errors_point_at_their_cause
  have hrange : Pattern.parse "x[z-a]" = .error ⟨.invalidRange 'z' 'a', 2⟩ := rfl
  have hnumber : Pattern.parse "a\x7b7,99999999999999999999\x7d" = .error ⟨.numberTooLarge, 4⟩ :=
    rfl
  exact ⟨⟨hrange, (hpoints _ _ hrange).2⟩, ⟨hnumber, (hpoints _ _ hnumber).2⟩, hempty "" 0⟩

end PatternSweep
