import PatternSweep.Proofs.SpanScripts

/-!
# Starts of another size

A span is put in only if both of its offsets are in range. Where starts are put in by the set, one
after the other or with another set of spans, the end is checked, and the starts are compared with
the row they join: if there is no row yet, they make one as they are. So a set of starts of another
size is recorded, with offsets out of range among them, wherever it is the first one of an end
(`SpanSet.TakesForeign`). As long as that does not happen, every set of spans is in range and has a
set of all starts, whatever it is combined with; and when it happens, one is not
(`spans_stay_in_range_iff_no_foreign_row_is_made`).
-/

namespace PatternSweep

/-- What is left after a check is what it lets through. -/
theorem Except.bind_eq_ok_iff {ε α : Type} {check : Except ε Unit} {a b : α} :
    (check >>= fun _ => (pure a : Except ε α)) = .ok b ↔ check = .ok () ∧ a = b := by
  cases check with
  | error e => simp [bind, Except.bind]
  | ok _ => simp [bind, Except.bind, pure, Except.pure]

theorem Except.map_eq_ok_iff {ε α β : Type} {f : α → β} {x : Except ε α} {b : β} :
    x.map f = .ok b ↔ ∃ a, x = .ok a ∧ f a = b := by
  cases x <;> simp [Except.map]

namespace Rows

/-- A row whose key is not among those of the others is merged as it is. -/
theorem mem_merge_of_forall_ne {κ : Type} [Key κ] {xs ys : List (κ × OffsetSet)}
    {r : κ × OffsetSet} (hxs : ∀ x ∈ xs, x.1 ≠ r.1) (hr : r ∈ ys) : r ∈ merge xs ys := by
  induction xs generalizing ys with
  | nil => exact hr
  | cons x xs ih =>
    obtain ⟨hx, hxs⟩ := List.forall_mem_cons.1 hxs
    induction ys with
    | nil => cases hr
    | cons y ys ihy =>
      rw [merge, absorb]
      split
      next => exact List.mem_cons_of_mem _ (ih hxs hr)
      next hlt =>
        split
        next =>
          rcases List.mem_cons.1 hr with rfl | hr
          · exact List.mem_cons_self
          · exact List.mem_cons_of_mem _ (ihy hr)
        next hgt =>
          have hkey : x.1 = y.1 := Key.total (by simpa using hlt) (by simpa using hgt)
          rcases List.mem_cons.1 hr with rfl | hr
          · exact absurd hkey hx
          · exact List.mem_cons_of_mem _ (ih hxs hr)

end Rows

namespace SpanSet

variable {t u : SpanSet} {s : OffsetSet} {k : Nat}

/-- All spans are between offsets of the set, and all starts together are a set of offsets. -/
def InRange (t : SpanSet) : Prop :=
  (∀ i j, (i, j) ∈ t → i < t.size ∧ j < t.size) ∧ ∃ s, t.starts? = .ok s

/-- The starts under an end in range are the first ones there, and they have another size than the
set. -/
def TakesForeign (t : SpanSet) (starts : OffsetSet) (stop : Nat) : Prop :=
  (stop < t.size ∧ t.startsOf stop = none) ∧ starts.isEmpty = false ∧ starts.size ≠ t.size

instance (t : SpanSet) (starts : OffsetSet) (stop : Nat) : Decidable (t.TakesForeign starts stop) :=
  inferInstanceAs (Decidable ((_ ∧ _) ∧ _ ∧ _))

theorem requireSize_eq_ok_iff {m n : Nat} : requireSize m n = .ok () ↔ m = n := by
  unfold requireSize
  split <;> simp_all

/-- A set of spans is in range exactly if its sets of starts have its size. -/
theorem inRange_iff : t.InRange ↔ t.Sized t.size := by
  have hstarts : (∃ s, t.starts? = .ok s) ↔ t.Sized t.size := by
    simp only [starts?, Except.bind_eq_ok_iff, forM_eq_ok_iff, requireSize_eq_ok_iff,
      exists_and_left, exists_eq', and_true]
    exact ⟨fun h => ⟨rfl, fun r hr => (h r hr).symm⟩, fun h r hr => (h.2 r hr).symm⟩
  refine ⟨fun h => hstarts.1 h.2, fun h => ⟨fun i j hij => ?_, hstarts.2 h⟩⟩
  exact ⟨h.start_lt hij, h.end_lt hij⟩

/-- Rows that are not refused keep a set in range unless one of them is the first one of its end and
foreign. -/
theorem sized_union_iff (ht : t.Sized t.size) (table : OffsetTable Nat)
    (hrows : ∀ r ∈ table.rows, t.requireRow r.2 r.1 = .ok ()) :
    (below t.size (t.table.union table)).Sized t.size ↔
      ∀ r ∈ table.rows, ¬t.TakesForeign r.2 r.1 := by
  have hmem : ∀ r, r ∈ (below t.size (t.table.union table)).rows ↔
      r ∈ Rows.merge t.rows table.rows ∧ r.1 < t.size := fun r =>
    OffsetTable.mem_rows_select.trans (and_congr_right fun _ => decide_eq_true_iff)
  constructor
  · rintro ⟨-, hsized⟩ r hr ⟨⟨hlt, hnone⟩, -, hforeign⟩
    have hfresh : ∀ x ∈ t.rows, x.1 ≠ r.1 := by
      intro x hx hkey
      have hrow : t.startsOf r.1 = some x.2 := startsOf_eq_some_iff.2 (hkey ▸ hx)
      rw [hnone] at hrow
      cases hrow
    exact hforeign (hsized r ((hmem r).2 ⟨Rows.mem_merge_of_forall_ne hfresh hr, hlt⟩))
  · intro hfit
    -- a row that is merged has the size of the set as far as its end is in range
    have hmerged : ∀ r ∈ Rows.merge t.rows table.rows, r.1 < t.size → r.2.size = t.size := by
      refine Rows.forall_mem_merge
        (P := fun r : Nat × OffsetSet => r.1 < t.size → r.2.size = t.size)
        (fun _ _ _ h => h) (fun r hr _ => ht.2 r hr) fun r hr hlt => ?_
      have hne : r.2.isEmpty = false := table.inhabited r hr
      have hrequire := hrows r hr
      unfold requireRow at hrequire
      cases hrow : t.startsOf r.1 with
      | none =>
        by_contra hforeign
        exact hfit r hr ⟨⟨hlt, hrow⟩, hne, hforeign⟩
      | some row =>
        rw [hrow] at hrequire
        simp only [hlt, hne, and_self, if_true, requireSize_eq_ok_iff] at hrequire
        exact hrequire.symm.trans (ht.size_startsOf hrow)
    exact ⟨rfl, fun r hr => hmerged r ((hmem r).1 hr).1 ((hmem r).1 hr).2⟩

theorem sized_insertStarts_iff (ht : t.Sized t.size) (hrow : t.requireRow s k = .ok ()) :
    (t.insertStarts s k).Sized t.size ↔ ¬t.TakesForeign s k := by
  have hsingle : ∀ r ∈ (OffsetTable.single k s).rows, r = (k, s) := by
    unfold OffsetTable.single
    split <;> simp [OffsetTable.empty]
  have hunion := sized_union_iff ht (OffsetTable.single k s) fun r hr => by
    rw [hsingle r hr]
    exact hrow
  refine hunion.trans ⟨fun h hforeign => ?_, fun h r hr => ?_⟩
  · have hne : s.isEmpty = false := hforeign.2.1
    refine h (k, s) ?_ hforeign
    rw [OffsetTable.single, dif_pos hne]
    exact List.mem_singleton_self _
  · rw [hsingle r hr]
    exact h

end SpanSet

/-! ### Commands -/

/-- A change of the spans `t` makes a row of foreign starts. -/
def SpanChange.MakesForeign (regs : Registers OffsetSet SpanSet) (t : SpanSet) : SpanChange → Prop
  | insertStarts a stop => t.TakesForeign (regs.plain a) stop
  | unite a => ∃ r ∈ (regs.spans a).rows, t.TakesForeign r.2 r.1
  | _ => False

/-- A command makes a row of foreign starts. -/
def SpanCommand.MakesForeign (regs : Registers OffsetSet SpanSet) : SpanCommand → Prop
  | spans r c => c.MakesForeign regs (regs.spans r)
  | _ => False

/-- All sets of spans are in range. -/
def Registers.InRange (regs : Registers OffsetSet SpanSet) : Prop := ∀ r, (regs.spans r).InRange

section Steps

variable {regs : Registers OffsetSet SpanSet}

/-- A change that is not refused makes of a set in range a set in range unless it makes a foreign
row. -/
theorem SpanChange.inRange_of_outcome (hregs : regs.InRange) {t u : SpanSet} (ht : t.InRange)
    {c : SpanChange} {answer : Option Bool}
    (hout : c.outcome SpanSet.ops regs t = .ok (u, answer)) :
    u.InRange ↔ ¬c.MakesForeign regs t := by
  have ht := SpanSet.inRange_iff.1 ht
  -- all but two changes lead to a set of one size, and make no foreign row
  have hplain : ∀ {n : Nat}, u.Sized n → (u.InRange ↔ ¬False) := fun h =>
    iff_of_true (SpanSet.inRange_iff.2 (h.1 ▸ h)) id
  have hkept : ∀ {v : SpanSet} {check : Except SizeMismatch Unit},
      (check >>= fun _ => (pure v : Except SizeMismatch SpanSet)).map (fun v => (v, none)) =
        .ok (u, answer) → v.Sized t.size → (u.InRange ↔ ¬False) := fun hout hv => by
    obtain ⟨_, hw, heq⟩ := Except.map_eq_ok_iff.1 hout
    obtain ⟨-, rfl⟩ := Except.bind_eq_ok_iff.1 hw
    cases heq
    exact hplain hv
  cases c with
  | empty size =>
    cases hout
    exact hplain SpanSet.sized_empty
  | lift a =>
    cases hout
    exact hplain (SpanSet.sized_lift rfl)
  | copy a =>
    cases hout
    exact hplain (SpanSet.inRange_iff.1 (hregs a))
  | insert start stop =>
    cases hout
    exact hplain (SpanSet.sized_insert ht)
  | insertStarts a stop =>
    obtain ⟨_, hops, heq⟩ := Except.map_eq_ok_iff.1 hout
    obtain ⟨v, hv, rfl⟩ := Except.map_eq_ok_iff.1 hops
    obtain ⟨hrow, rfl⟩ := Except.bind_eq_ok_iff.1 hv
    cases heq
    exact SpanSet.inRange_iff.trans (SpanSet.sized_insertStarts_iff ht hrow)
  | unite a =>
    obtain ⟨_, hops, heq⟩ := Except.map_eq_ok_iff.1 hout
    obtain ⟨v, hv, rfl⟩ := Except.map_eq_ok_iff.1 hops
    obtain ⟨hrows, rfl⟩ := Except.bind_eq_ok_iff.1 hv
    cases heq
    refine SpanSet.inRange_iff.trans
      ((SpanSet.sized_union_iff ht _ (SpanSet.forM_eq_ok_iff.1 hrows)).trans ?_)
    simp only [MakesForeign, not_exists, not_and]
    rfl
  | keepStarts a => exact hkept hout (SpanSet.sized_revise ht fun _ => rfl)
  | dropStarts a => exact hkept hout (SpanSet.sized_revise ht fun _ => rfl)
  | keepEnds a => exact hkept hout (SpanSet.sized_keepEnds ht)
  | whereStarts a =>
    have hstarts := SpanSet.starts?_eq (SpanSet.inRange_iff.1 (hregs a))
    simp only [outcome, SpanSet.ops, SpanSet.whereStarts?, hstarts] at hout
    exact hkept hout (SpanSet.sized_revise ht fun _ => rfl)
  | whereNotStarts a =>
    have hstarts := SpanSet.starts?_eq (SpanSet.inRange_iff.1 (hregs a))
    simp only [outcome, SpanSet.ops, SpanSet.whereNotStarts?, hstarts] at hout
    exact hkept hout (SpanSet.sized_revise ht fun _ => rfl)

theorem Registers.InRange.setSpans (h : regs.InRange) {r : Nat} {t : SpanSet} :
    (regs.setSpans r t).InRange ↔ t.InRange := by
  refine ⟨fun hset => by simpa [Registers.setSpans] using hset r, fun ht a => ?_⟩
  by_cases ha : a = r
  · simpa [Registers.setSpans, ha] using ht
  · simpa [Registers.setSpans, ha] using h a

/-- A command that is not refused leads from sets in range to sets in range unless it makes a
foreign row. -/
theorem SpanCommand.inRange_step_iff (hregs : regs.InRange) {c : SpanCommand} {answer : Option Bool}
    (hok : (c.step SpanSet.ops regs).2 = .ok answer) :
    (c.step SpanSet.ops regs).1.InRange ↔ ¬c.MakesForeign regs := by
  cases c with
  | plain c => exact iff_of_true hregs id
  | starts r a =>
    rw [step, show SpanSet.ops.starts (regs.spans a) = .ok (regs.spans a).starts from
      SpanSet.starts?_eq (SpanSet.inRange_iff.1 (hregs a))]
    exact iff_of_true hregs id
  | ends r a => exact iff_of_true hregs id
  | spans r c =>
    rw [step] at hok ⊢
    cases hout : c.outcome SpanSet.ops regs (regs.spans r) with
    | error e =>
      rw [hout] at hok
      cases hok
    | ok now => exact hregs.setSpans.trans (SpanChange.inRange_of_outcome hregs (hregs r) hout)

/-- Up to every point of a script that is not refused the sets are in range exactly if no command up
to there has made a foreign row. -/
theorem SpanCommand.inRange_run_iff (hregs : regs.InRange) {cs : List SpanCommand}
    (hok : ∀ reply ∈ (run SpanSet.ops regs cs).2, ∃ answer, reply = .ok answer) :
    (∀ k, (run SpanSet.ops regs (cs.take k)).1.InRange) ↔
      ∀ (k : Nat) (c : SpanCommand), cs[k]? = some c →
        ¬c.MakesForeign (run SpanSet.ops regs (cs.take k)).1 := by
  induction cs generalizing regs with
  | nil => exact iff_of_true (fun k => by simpa [run] using hregs) (by simp)
  | cons c cs ih =>
    obtain ⟨⟨answer, hanswer⟩, hrest⟩ := List.forall_mem_cons.1 hok
    have hstep := inRange_step_iff hregs hanswer
    constructor
    · intro h k d hd
      have hnext : (c.step SpanSet.ops regs).1.InRange := by simpa [run] using h 1
      cases k with
      | zero =>
        obtain rfl : c = d := Option.some.inj hd
        exact hstep.1 hnext
      | succ k => exact (ih hnext hrest).1 (fun k => h (k + 1)) k d hd
    · intro h k
      have hnext := hstep.2 (h 0 c rfl)
      cases k with
      | zero => exact hregs
      | succ k => exact (ih hnext hrest).2 (fun k d hd => h (k + 1) d hd) k

end Steps

/-- Run a script that is not refused, among sets of any sizes. At every point of it all spans are
between offsets of their sets and every set has a set of all starts, unless a command makes a row of
foreign starts: from there on one of them does not. -/
theorem spans_stay_in_range_iff_no_foreign_row_is_made (n : Nat) (cs : List SpanCommand)
    (hok : ∀ reply ∈ (SpanCommand.run SpanSet.ops (.blank SpanSet.ops n) cs).2,
      ∃ answer, reply = .ok answer) :
    (∀ k r, ((SpanCommand.run SpanSet.ops (.blank SpanSet.ops n) (cs.take k)).1.spans r).InRange) ↔
      ∀ (k : Nat) (c : SpanCommand), cs[k]? = some c →
        ¬c.MakesForeign (SpanCommand.run SpanSet.ops (.blank SpanSet.ops n) (cs.take k)).1 :=
  SpanCommand.inRange_run_iff (fun _ => SpanSet.inRange_iff.2 SpanSet.sized_empty) hok

/-- Spans of a greater set are put in, all of them with ends out of range. -/
theorem spans_stay_in_range_beside_a_greater_set :
    let cs : List SpanCommand := [.spans 0 (.empty 2), .spans 1 (.empty 5),
      .spans 1 (.insert 4 3), .spans 0 (.unite 1)]
    (∀ reply ∈ (SpanCommand.run SpanSet.ops (.blank SpanSet.ops 0) cs).2,
      ∃ answer, reply = .ok answer) ∧
    ∀ r, ((SpanCommand.run SpanSet.ops (.blank SpanSet.ops 0) cs).1.spans r).InRange := by
  intro cs
  have hreplies : (SpanCommand.run SpanSet.ops (.blank SpanSet.ops 0) cs).2 =
      [.ok none, .ok none, .ok (some true), .ok (some false)] := by
    decide
  have hok : ∀ reply ∈ (SpanCommand.run SpanSet.ops (.blank SpanSet.ops 0) cs).2,
      ∃ answer, reply = .ok answer := by
    simp [hreplies]
  refine ⟨hok, (spans_stay_in_range_iff_no_foreign_row_is_made 0 cs hok).2 ?_ 4⟩
  rintro (_ | _ | _ | _ | k) c hc <;> cases hc
  · exact id
  · exact id
  · exact id
  · show ¬∃ r ∈ _, _
    decide

/-- A span set of size two is united with one of size five: it takes the span from four to one, and
then it has no set of all starts. -/
theorem foreign_starts_leave_the_range :
    ¬∀ (n : Nat) (cs : List SpanCommand),
      (∀ reply ∈ (SpanCommand.run SpanSet.ops (.blank SpanSet.ops n) cs).2,
        ∃ answer, reply = .ok answer) →
      ∀ r, ((SpanCommand.run SpanSet.ops (.blank SpanSet.ops n) cs).1.spans r).InRange := by
  intro h
  let cs : List SpanCommand := [.spans 0 (.empty 2), .spans 1 (.empty 5),
    .spans 1 (.insert 4 1), .spans 0 (.unite 1)]
  have hreplies : (SpanCommand.run SpanSet.ops (.blank SpanSet.ops 0) cs).2 =
      [.ok none, .ok none, .ok (some true), .ok (some true)] := by
    decide
  obtain ⟨hpairs, -⟩ := h 0 cs (by simp [hreplies]) 0
  have hmem :
      (4, 1) ∈ ((SpanCommand.run SpanSet.ops (.blank SpanSet.ops 0) cs).1.spans 0).toList := by
    decide
  exact absurd (hpairs 4 1 (SpanSet.mem_toList.1 hmem)).1 (by decide)

end PatternSweep
