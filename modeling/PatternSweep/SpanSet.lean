import PatternSweep.OffsetTable

/-!
# Sets of spans

A `SpanSet` is a set of pairs `(start, end)` of offsets, filed by end: under each end lies the set
of the starts recorded for it. `toList` lists the pairs by end and then by start.

A start set that is filed under an end without a row keeps the size it came with, so a span set
can hold start sets of a size other than its own. The operations with a question mark refuse a
start set or a filter of another size; the plain ones read it through the size of the set they
are applied to.
-/

namespace PatternSweep

/-- A set of spans whose ends lie below `size`, filed by end. -/
structure SpanSet where
  /-- The number of offsets that can be ends. -/
  size : Nat
  /-- The starts recorded for each end. -/
  table : OffsetTable Nat
  end_lt : ∀ r ∈ table.rows, r.1 < size
  deriving DecidableEq

namespace SpanSet

/-- No spans. -/
def empty (size : Nat) : SpanSet := ⟨size, .empty, by simp [OffsetTable.empty]⟩

/-- The rows of a table whose ends lie below `size`. -/
def below (size : Nat) (table : OffsetTable Nat) : SpanSet where
  size := size
  table := table.select (· < size)
  end_lt r hr := by simpa using (OffsetTable.mem_rows_select.1 hr).2

/-- The empty span `(p, p)` for every offset `p` of a set. -/
def lift (s : OffsetSet) : SpanSet where
  size := s.size
  table :=
    { rows := s.toList.map fun p => (p, OffsetSet.ofList s.size [p])
      ascending := List.pairwise_map.2 <| s.pairwise_toList.imp fun h => by
        simpa [Key.before] using h
      inhabited := by
        intro r hr
        obtain ⟨p, hp, rfl⟩ := List.mem_map.1 hr
        have : p < s.size := OffsetSet.lt_size_of_mem (OffsetSet.mem_toList.1 hp)
        exact OffsetSet.isEmpty_eq_false_iff.2
          ⟨p, by simp [OffsetSet.mem_iff, OffsetSet.contains_ofList, this]⟩ }
  end_lt := by
    intro r hr
    obtain ⟨p, hp, rfl⟩ := List.mem_map.1 hr
    exact OffsetSet.lt_size_of_mem (OffsetSet.mem_toList.1 hp)

/-- The ends with their starts, by ascending end. -/
def rows (t : SpanSet) : List (Nat × OffsetSet) := t.table.rows

/-- The starts recorded for `stop`. -/
def startsOf (t : SpanSet) (stop : Nat) : Option OffsetSet := t.table.row? stop

/-- The ends of all spans. -/
def ends (t : SpanSet) : OffsetSet := OffsetSet.ofList t.size (t.rows.map (·.1))

/-- All spans, by end and then by start. -/
def toList (t : SpanSet) : List (Nat × Nat) :=
  t.rows.flatMap fun r => r.2.toList.map fun start => (start, r.1)

/-- The number of spans. -/
def card (t : SpanSet) : Nat := t.table.card

/-- Whether there is no span. -/
def isEmpty (t : SpanSet) : Bool := t.table.isEmpty

/-- The starts of all spans. -/
def starts (t : SpanSet) : OffsetSet :=
  t.rows.foldl (fun all r => all.union r.2) (OffsetSet.empty t.size)

/-- The spans of `t` with every start of `starts` recorded for `stop` too, if `stop` is in range. -/
def insertStarts (t : SpanSet) (starts : OffsetSet) (stop : Nat) : SpanSet :=
  below t.size (t.table.add stop starts)

/-- Whether recording `starts` for `stop` adds a span. -/
def gainsAt (t : SpanSet) (starts : OffsetSet) (stop : Nat) : Bool :=
  stop < t.size && !starts.isEmpty && (t.startsOf stop).all (·.gains starts)

/-- The spans of `t` and the span from `start` to `stop`, if both are in range. -/
def insert (t : SpanSet) (start stop : Nat) : SpanSet :=
  t.insertStarts (OffsetSet.ofList t.size [start]) stop

/-- Whether inserting the span from `start` to `stop` adds a span. -/
def adds (t : SpanSet) (start stop : Nat) : Bool :=
  start < t.size && stop < t.size && (t.startsOf stop).all (·.adds start)

/-- The spans of both sets whose ends are in range for the first. -/
def union (t u : SpanSet) : SpanSet := below t.size (t.table.union u.table)

/-- Whether a union with `u` adds a span. -/
def gains (t u : SpanSet) : Bool := u.rows.any fun r => t.gainsAt r.2 r.1

/-- `f` applied to every start set, dropping the ends that are left without a start. -/
def revise (t : SpanSet) (f : OffsetSet → OffsetSet) : SpanSet :=
  below t.size (t.table.revise fun _ s => f s)

/-- The spans whose start is allowed. -/
def keepStarts (t : SpanSet) (allowed : OffsetSet) : SpanSet := t.revise (·.inter allowed)

/-- The spans whose start is not denied. -/
def dropStarts (t : SpanSet) (denied : OffsetSet) : SpanSet := t.revise (·.diff denied)

/-- The spans whose end is allowed. -/
def keepEnds (t : SpanSet) (allowed : OffsetSet) : SpanSet :=
  below t.size (t.table.select allowed.contains)

/-- The spans that start where some span of `u` starts. -/
def whereStarts (t u : SpanSet) : SpanSet := t.keepStarts u.starts

/-- The spans that start where no span of `u` starts. -/
def whereNotStarts (t u : SpanSet) : SpanSet := t.dropStarts u.starts

/-- Every span whose end is a hit, made longer by one offset; what would end out of range is
dropped. -/
def advance (t : SpanSet) (hit : Nat → Bool) : SpanSet :=
  below t.size <| (t.table.select hit).rekey (· + 1) fun _ _ _ _ h => by
    simpa [Key.before] using h

/-! ### Operations that refuse sets of another size -/

/-- Accepts the sizes `m` and `n` if they are equal. -/
def requireSize (m n : Nat) : Except SizeMismatch Unit :=
  if m = n then .ok () else .error ⟨m, n⟩

/-- Accepts `starts` under `stop` unless the row already there has another size. -/
def requireRow (t : SpanSet) (starts : OffsetSet) (stop : Nat) : Except SizeMismatch Unit :=
  match t.startsOf stop with
  | some row =>
    if stop < t.size ∧ starts.isEmpty = false then requireSize row.size starts.size else .ok ()
  | none => .ok ()

/-- `insertStarts` for start sets of the size of the row they join. -/
def insertStarts? (t : SpanSet) (starts : OffsetSet) (stop : Nat) :
    Except SizeMismatch SpanSet := do
  t.requireRow starts stop
  return t.insertStarts starts stop

/-- `union` for sets whose rows under a common end have one size. -/
def union? (t u : SpanSet) : Except SizeMismatch SpanSet := do
  u.rows.forM fun r => t.requireRow r.2 r.1
  return t.union u

/-- The starts of all spans, for a set whose start sets all have its own size. -/
def starts? (t : SpanSet) : Except SizeMismatch OffsetSet := do
  t.rows.forM fun r => requireSize t.size r.2.size
  return t.starts

/-- `keepStarts` for a filter of the size of every start set. -/
def keepStarts? (t : SpanSet) (allowed : OffsetSet) : Except SizeMismatch SpanSet := do
  t.rows.forM fun r => requireSize r.2.size allowed.size
  return t.keepStarts allowed

/-- `dropStarts` for a filter of the size of every start set. -/
def dropStarts? (t : SpanSet) (denied : OffsetSet) : Except SizeMismatch SpanSet := do
  t.rows.forM fun r => requireSize r.2.size denied.size
  return t.dropStarts denied

/-- `keepEnds` for a filter of the size of the set. -/
def keepEnds? (t : SpanSet) (allowed : OffsetSet) : Except SizeMismatch SpanSet := do
  requireSize t.size allowed.size
  return t.keepEnds allowed

/-- `whereStarts` for sets whose start sets have one size. -/
def whereStarts? (t u : SpanSet) : Except SizeMismatch SpanSet := do
  t.keepStarts? (← u.starts?)

/-- `whereNotStarts` for sets whose start sets have one size. -/
def whereNotStarts? (t u : SpanSet) : Except SizeMismatch SpanSet := do
  t.dropStarts? (← u.starts?)

end SpanSet
end PatternSweep
