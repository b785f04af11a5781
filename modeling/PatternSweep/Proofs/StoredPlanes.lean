import PatternSweep.Proofs.FiniteStates

/-!
# Planes that are stored

A set of edit states can be kept as a bare map from cells to planes, to which each operation does no
more than it has to: it unites with a plane that is there and files one that is not, it takes a
plane out where nothing is left of it, and it closes a layer under deletions in one pass that reads
planes it has just extended. `StoredPlanes` is such a map, of which nothing is asked. From the rows
of a set of edit states every operation leads to the rows of what the same operation makes of the
set (`EditStates.stored`), and it tells whether the set has changed. So whatever is done to it, such
a map is `Sound`: above all no plane in it is empty.
-/

namespace PatternSweep

theorem OffsetSet.resize_self {s : OffsetSet} {n : Nat} (h : s.size = n) : s.resize n = s := by
  subst h
  refine ext_contains (size_resize s _) fun p => ?_
  rw [contains_resize, Bool.and_eq_right_iff_imp, decide_eq_true_eq]
  exact lt_size_of_mem

/-- The bounds of a set of states, and its planes by their cells. -/
structure StoredPlanes where
  textLength : Nat
  patternLength : Nat
  maxDistance : Nat
  rows : List (Cell × OffsetSet)
  deriving DecidableEq

/-- Why a change of edit states is refused: sets of offsets of different sizes would have been
combined, or sets of states with different bounds united. -/
inductive EditRefusal
  | sizes (e : SizeMismatch)
  | bounds
  deriving DecidableEq, Repr

namespace StoredPlanes

variable (x : StoredPlanes)

/-- No states. -/
def empty (textLength patternLength maxDistance : Nat) : StoredPlanes :=
  ⟨textLength, patternLength, maxDistance, []⟩

/-- No states, within the bounds of `x`. -/
def emptyLike : StoredPlanes := empty x.textLength x.patternLength x.maxDistance

/-- The plane that is stored at a cell. -/
def plane (pattern distance : Nat) : Option OffsetSet := x.rows.lookup ⟨pattern, distance⟩

/-- A plane is stored, in place of the one at its cell. -/
def put (c : Cell) (s : OffsetSet) : StoredPlanes := { x with rows := Rows.file c s x.rows }

/-- A state within the bounds is put into its plane, which is made if it is not there; the state is
new if the plane does not have its text offset. The number of text offsets, one more than the length
of the text, is taken to fit a machine word. -/
def insert (text pattern distance : Nat) : StoredPlanes × Bool :=
  if text ≤ x.textLength ∧ pattern ≤ x.patternLength ∧ distance ≤ x.maxDistance then
    let plane := (x.plane pattern distance).getD (.empty (x.textLength + 1))
    (x.put ⟨pattern, distance⟩ (plane.insert text), plane.adds text)
  else (x, false)

/-- Text offsets are put into the plane of a cell within the bounds, or make a plane of their own if
there are any. -/
def insertPlane (pattern distance : Nat) (offsets : OffsetSet) :
    Except SizeMismatch (StoredPlanes × Bool) :=
  if offsets.isEmpty = false ∧ pattern ≤ x.patternLength ∧ distance ≤ x.maxDistance then
    match x.plane pattern distance with
    | some plane => (plane.union? offsets).map fun u =>
      (x.put ⟨pattern, distance⟩ u, plane.gains offsets)
    | none => .ok (x.put ⟨pattern, distance⟩ offsets, true)
  else .ok (x, false)

/-- A state within the bounds is a plane with one text offset. -/
theorem insertPlane_ofList {t p d : Nat}
    (h : t ≤ x.textLength ∧ p ≤ x.patternLength ∧ d ≤ x.maxDistance)
    (hsize : ∀ plane, x.plane p d = some plane → plane.size = x.textLength + 1) :
    x.insertPlane p d (.ofList (x.textLength + 1) [t]) = .ok (x.insert t p d) := by
  obtain ⟨ht, hp, hd⟩ := h
  have hmem : t ∈ OffsetSet.ofList (x.textLength + 1) [t] :=
    OffsetSet.mem_ofList.2 ⟨List.mem_singleton_self t, Nat.lt_succ_of_le ht⟩
  have hne : (OffsetSet.ofList (x.textLength + 1) [t]).isEmpty = false :=
    OffsetSet.isEmpty_eq_false_iff.2 ⟨t, hmem⟩
  rw [insertPlane, insert, if_pos ⟨hne, hp, hd⟩, if_pos ⟨ht, hp, hd⟩]
  cases hrow : x.plane p d with
  | none =>
    have hfirst : (OffsetSet.empty (x.textLength + 1)).insert t = .ofList (x.textLength + 1) [t] :=
      OffsetSet.foldl_insert_empty _ [t]
    have hadds : (OffsetSet.empty (x.textLength + 1)).adds t = true :=
      OffsetSet.adds_iff.2 ⟨Nat.lt_succ_of_le ht, OffsetSet.not_mem_empty⟩
    simp [hfirst, hadds]
  | some plane =>
    have hplane := hsize plane hrow
    have hmore : plane.insert t = plane.union (.ofList (x.textLength + 1) [t]) :=
      hplane ▸ plane.insert_eq_union t
    have hadds : plane.adds t = plane.gains (.ofList (x.textLength + 1) [t]) :=
      hplane ▸ plane.adds_eq_gains t
    simp [OffsetSet.union?, OffsetSet.sameSize, hplane, Except.map, hmore, hadds]

/-- A row is put in; what it adds counts with what was added before. -/
def insertRow (now : StoredPlanes × Bool) (r : Cell × OffsetSet) :
    Except SizeMismatch (StoredPlanes × Bool) :=
  (now.1.insertPlane r.1.pattern r.1.distance r.2).map fun next => (next.1, now.2 || next.2)

/-- Rows are put in, one after the other. -/
def insertRows (rows : List (Cell × OffsetSet)) : Except SizeMismatch (StoredPlanes × Bool) :=
  rows.foldlM insertRow (x, false)

/-- Every text offset at the start of the pattern, without edits. -/
def seeded (textLength patternLength maxDistance : Nat) : Except SizeMismatch StoredPlanes :=
  ((empty textLength patternLength maxDistance).insertPlane 0 0 (.full (textLength + 1))).map
    Prod.fst

/-- The planes at one pattern offset, by distance. -/
def layer (pattern : Nat) : List (Nat × OffsetSet) :=
  x.rows.filterMap fun r =>
    if r.1.pattern = pattern ∧ r.1.distance ≤ x.maxDistance then some (r.1.distance, r.2) else none

/-- The planes of one layer are put in at another one, where there was nothing. -/
def relocate (source target : Nat) : Except SizeMismatch StoredPlanes :=
  (x.emptyLike.insertRows ((x.layer source).map fun r => (⟨target, r.1⟩, r.2))).map Prod.fst

/-- A plane of the layer is kept as far as it is allowed, any other one as it is. -/
def restrictRow (pattern : Nat) (allowed : OffsetSet) (x : StoredPlanes) (r : Cell × OffsetSet) :
    Except SizeMismatch StoredPlanes :=
  if r.1.pattern = pattern then
    (r.2.inter? allowed).map fun s =>
      if s.isEmpty then x else { x with rows := x.rows ++ [(r.1, s)] }
  else .ok { x with rows := x.rows ++ [r] }

/-- All planes are kept as far as they are allowed. -/
def restrictLayer (pattern : Nat) (allowed : OffsetSet) : Except SizeMismatch StoredPlanes :=
  x.rows.foldlM (restrictRow pattern allowed) { x with rows := [] }

/-- The plane at `(pattern, distance)`, if there is one, is put in one text offset on at the next
distance. -/
def deleteAt (pattern : Nat) (x : StoredPlanes) (distance : Nat) :
    Except SizeMismatch StoredPlanes :=
  match x.plane pattern distance with
  | some plane => (x.insertPlane pattern (distance + 1) plane.shifted).map Prod.fst
  | none => .ok x

/-- Distance after distance is gone through, each with what the one before has put in. -/
def applyDeletions (pattern : Nat) : Except SizeMismatch StoredPlanes :=
  (List.range x.maxDistance).foldlM (deleteAt pattern) x

/-- The planes of another map with the same bounds are put in. -/
def union (y : StoredPlanes) : Except EditRefusal (StoredPlanes × Bool) :=
  if x.textLength = y.textLength ∧ x.patternLength = y.patternLength ∧
      x.maxDistance = y.maxDistance then
    (x.insertRows y.rows).mapError .sizes
  else .error .bounds

/-- The bounds are `n`, `l` and `m`, the cells stand in ascending order and lie within them, and the
planes are sets of offsets up to `n`, none of them empty. -/
structure Sound (n l m : Nat) (x : StoredPlanes) : Prop where
  bounds : x.textLength = n ∧ x.patternLength = l ∧ x.maxDistance = m
  ascending : Rows.Ascending x.rows
  inhabited : ∀ r ∈ x.rows, r.2.isEmpty = false
  sized : Rows.Sized (n + 1) x.rows
  cell_le : ∀ r ∈ x.rows, r.1.pattern ≤ l ∧ r.1.distance ≤ m

end StoredPlanes

namespace EditStates

variable {s u v : EditStates} {t p q d e n l m : Nat} {offsets : OffsetSet}

/-- The bounds and the planes of a set of states. -/
def stored (s : EditStates) : StoredPlanes :=
  ⟨s.textLength, s.patternLength, s.maxDistance, s.rows⟩

theorem sound_stored (hs : s.Bounded n l m) : s.stored.Sound n l m := by
  obtain ⟨rfl, rfl, rfl⟩ := hs
  exact ⟨⟨rfl, rfl, rfl⟩, s.table.ascending, s.table.inhabited, s.size_eq, s.cell_le⟩

theorem stored_inj : s.stored = u.stored ↔ s = u := by
  refine ⟨fun heq => ?_, congrArg stored⟩
  obtain ⟨n, l, m, ⟨rows, _, _⟩, _, _⟩ := s
  obtain ⟨n', l', m', ⟨rows', _, _⟩, _, _⟩ := u
  cases heq
  rfl

/-! ### Whether a set has changed -/

/-- A set that has grown is another one if there is a member that is new. -/
theorem ne_iff_of_grows (hs : s.Bounded n l m) (hu : u.Bounded n l m) {P : Nat × Nat × Nat → Prop}
    (h : ∀ x, x ∈ u ↔ x ∈ s ∨ P x) : u ≠ s ↔ ∃ x, P x ∧ x ∉ s := by
  refine ⟨fun hne => ?_, ?_⟩
  · by_contra hnone
    refine hne (ext_mem hu hs fun x => (h x).trans (or_iff_left_of_imp fun hx => ?_))
    by_contra hnew
    exact hnone ⟨x, hx, hnew⟩
  · rintro ⟨x, hx, hnew⟩ rfl
    exact hnew ((h x).2 (Or.inr hx))

/-- A set that grows twice has changed if it has changed one time. -/
theorem ne_iff_of_grows_twice (hs : s.Bounded n l m) (hu : u.Bounded n l m) (hv : v.Bounded n l m)
    (hsu : ∀ x ∈ s, x ∈ u) (huv : ∀ x ∈ u, x ∈ v) : v ≠ s ↔ u ≠ s ∨ v ≠ u := by
  refine ⟨fun hne => ?_, ?_⟩
  · by_cases h : u = s
    · exact Or.inr (h ▸ hne)
    · exact Or.inl h
  · rintro (hne | hne) rfl
    · exact hne (ext_mem hu hs fun x => ⟨huv x, hsu x⟩)
    · exact hne (ext_mem hv hu fun x => ⟨hsu x, huv x⟩)

/-! ### Putting in -/

theorem rows_within {table : OffsetTable Cell}
    (hcell : ∀ r ∈ table.rows, r.1.pattern ≤ s.patternLength ∧ r.1.distance ≤ s.maxDistance)
    (hsize : table.Sized (s.textLength + 1)) : (s.within table).rows = table.rows := by
  have hselect : (table.select fun c =>
      c.pattern ≤ s.patternLength && c.distance ≤ s.maxDistance).rows = table.rows :=
    List.filter_eq_self.2 fun r hr => by simpa using hcell r hr
  show Rows.revise (fun _ plane => plane.resize (s.textLength + 1)) _ = table.rows
  rw [hselect]
  exact Rows.revise_eq_self fun r hr =>
    ⟨table.inhabited r hr, OffsetSet.resize_self (hsize r hr)⟩

theorem rows_insertPlane (hp : p ≤ s.patternLength) (hd : d ≤ s.maxDistance)
    (hsize : offsets.size = s.textLength + 1) (hne : offsets.isEmpty = false) :
    (s.insertPlane p d offsets).rows =
      Rows.file ⟨p, d⟩ ((s.plane p d).elim offsets (·.union offsets)) s.rows := by
  have hadd : (s.table.add ⟨p, d⟩ offsets).rows = Rows.merge s.rows [(⟨p, d⟩, offsets)] := by
    simp [OffsetTable.add, OffsetTable.union, OffsetTable.single, hne, rows]
  rw [insertPlane, OffsetSet.resize_self hsize, rows_within, hadd]
  · exact Rows.merge_single s.table.ascending
  · rw [hadd]
    refine Rows.forall_mem_merge (P := fun r : Cell × OffsetSet => r.1.pattern ≤ s.patternLength ∧
      r.1.distance ≤ s.maxDistance) (fun _ _ _ h => h) s.cell_le ?_
    simpa using ⟨hp, hd⟩
  · exact OffsetTable.sized_union s.sized_table (OffsetTable.sized_single hsize)

theorem stored_put (hs : s.Bounded n l m) (hp : p ≤ l) (hd : d ≤ m)
    (hsize : offsets.size = n + 1) (hne : offsets.isEmpty = false) :
    s.stored.put ⟨p, d⟩ ((s.plane p d).elim offsets (·.union offsets)) =
      (s.insertPlane p d offsets).stored := by
  obtain ⟨rfl, rfl, rfl⟩ := hs
  exact congrArg (StoredPlanes.mk _ _ _) (rows_insertPlane hp hd hsize hne).symm

/-- Offsets that are out of bounds, or none at all, change nothing. -/
theorem insertPlane_eq_self (hs : s.Bounded n l m)
    (h : ¬(offsets.isEmpty = false ∧ p ≤ l ∧ d ≤ m)) : s.insertPlane p d offsets = s := by
  refine ext_mem (bounded_insertPlane hs p d offsets) hs fun ⟨t, p', d'⟩ => ?_
  obtain ⟨-, rfl, rfl⟩ := hs
  rw [mem_insertPlane, or_iff_left]
  rintro ⟨-, -, ht, -, hp, hd⟩
  exact h ⟨OffsetSet.isEmpty_eq_false_iff.2 ⟨t, ht⟩, hp, hd⟩

/-- Putting in offsets changes a set if one of them is not there. -/
theorem insertPlane_ne_iff (hs : s.Bounded n l m) (hsize : offsets.size = n + 1) :
    s.insertPlane p d offsets ≠ s ↔ (p ≤ l ∧ d ≤ m) ∧ ∃ t, t ∈ offsets ∧ (t, p, d) ∉ s := by
  have hchanged := ne_iff_of_grows hs (bounded_insertPlane hs p d offsets)
    (P := fun x => x.2.1 = p ∧ x.2.2 = d ∧ x.1 ∈ offsets ∧ p ≤ l ∧ d ≤ m)
    fun _ => mem_insertPlane_iff hs hsize
  refine hchanged.trans ⟨?_, ?_⟩
  · rintro ⟨⟨t, _, _⟩, ⟨rfl, rfl, ht, hp, hd⟩, hnew⟩
    exact ⟨⟨hp, hd⟩, t, ht, hnew⟩
  · rintro ⟨⟨hp, hd⟩, t, ht, hnew⟩
    exact ⟨(t, p, d), ⟨rfl, rfl, ht, hp, hd⟩, hnew⟩

theorem stored_insertPlane (hs : s.Bounded n l m) (hsize : offsets.size = n + 1) :
    s.stored.insertPlane p d offsets =
      .ok ((s.insertPlane p d offsets).stored, decide (s.insertPlane p d offsets ≠ s)) := by
  have hplane : s.stored.plane p d = s.plane p d := rfl
  have hl : s.stored.patternLength = l := hs.2.1
  have hm : s.stored.maxDistance = m := hs.2.2
  have hchanged := insertPlane_ne_iff (p := p) (d := d) hs hsize
  unfold StoredPlanes.insertPlane
  rw [hl, hm]
  by_cases h : offsets.isEmpty = false ∧ p ≤ l ∧ d ≤ m
  · obtain ⟨hne, hp, hd⟩ := h
    rw [if_pos ⟨hne, hp, hd⟩, hplane, ← stored_put hs hp hd hsize hne]
    cases hrow : s.plane p d with
    | none =>
      -- there is no state at all at this cell
      have hnew : s.insertPlane p d offsets ≠ s := by
        obtain ⟨t, ht⟩ := OffsetSet.isEmpty_eq_false_iff.1 hne
        exact hchanged.2 ⟨⟨hp, hd⟩, t, ht, by simp [mem_iff_plane, hrow]⟩
      simp [hnew]
    | some plane =>
      have hsame : plane.size = offsets.size := (size_plane hs hrow).trans hsize.symm
      have hgain : plane.gains offsets = decide (s.insertPlane p d offsets ≠ s) := by
        rw [Bool.eq_iff_iff, OffsetSet.gains_iff hsame, decide_eq_true_eq, hchanged,
          and_iff_right ⟨hp, hd⟩]
        exact exists_congr fun t => and_congr_right fun _ => not_congr (mem_plane_iff hrow)
      simp [OffsetSet.union?, OffsetSet.sameSize, hsame, Except.map, hgain]
  · simp [h, insertPlane_eq_self hs h]

theorem stored_insert (hs : s.Bounded n l m) :
    s.stored.insert t p d = ((s.insert t p d).stored, decide (s.insert t p d ≠ s)) := by
  have hn : s.stored.textLength = s.textLength := rfl
  have hl : s.stored.patternLength = s.patternLength := rfl
  have hm : s.stored.maxDistance = s.maxDistance := rfl
  by_cases h : t ≤ s.textLength ∧ p ≤ s.patternLength ∧ d ≤ s.maxDistance
  · have hone : s.insert t p d = s.insertPlane p d (.ofList (s.textLength + 1) [t]) := if_pos h
    have hsize : ∀ plane, s.stored.plane p d = some plane → plane.size = s.textLength + 1 :=
      fun plane hplane => size_plane ⟨rfl, rfl, rfl⟩ hplane
    have hstored := StoredPlanes.insertPlane_ofList s.stored h hsize
    rw [hn, stored_insertPlane hs (congrArg (· + 1) hs.1), ← hone] at hstored
    exact (Except.ok.inj hstored).symm
  · have hsame : s.insert t p d = s := if_neg h
    rw [StoredPlanes.insert, hn, hl, hm, if_neg h, hsame]
    simp

theorem stored_seeded (n l m : Nat) :
    StoredPlanes.seeded n l m = .ok (seeded n l m).stored := by
  have hempty : (empty n l m).Bounded n l m := ⟨rfl, rfl, rfl⟩
  have h : (StoredPlanes.empty n l m).insertPlane 0 0 (.full (n + 1)) =
      .ok ((seeded n l m).stored, decide (seeded n l m ≠ empty n l m)) :=
    stored_insertPlane hempty (OffsetSet.size_full _)
  rw [StoredPlanes.seeded, h]
  rfl

/-! ### Rows put in one after the other -/

/-- All rows of a list are put in. -/
def insertRows (s : EditStates) (rows : List (Cell × OffsetSet)) : EditStates :=
  rows.foldl (fun s r => s.insertPlane r.1.pattern r.1.distance r.2) s

variable {rows : List (Cell × OffsetSet)}

theorem bounded_insertRows (hs : s.Bounded n l m) (rows : List (Cell × OffsetSet)) :
    (s.insertRows rows).Bounded n l m := by
  induction rows generalizing s with
  | nil => exact hs
  | cons r rows ih => exact ih (bounded_insertPlane hs _ _ _)

theorem mem_insertRows (hs : s.Bounded n l m) (hsize : Rows.Sized (n + 1) rows) :
    (t, p, d) ∈ s.insertRows rows ↔
      (t, p, d) ∈ s ∨ (Rows.Holds rows ⟨p, d⟩ t ∧ p ≤ l ∧ d ≤ m) := by
  induction rows generalizing s with
  | nil => simp [insertRows]
  | cons r rows ih =>
    obtain ⟨hr, hrows⟩ := List.forall_mem_cons.1 hsize
    have hfirst : (p = r.1.pattern ∧ d = r.1.distance ∧ t ∈ r.2 ∧ r.1.pattern ≤ l ∧
        r.1.distance ≤ m) ↔ ((⟨p, d⟩ : Cell) = r.1 ∧ t ∈ r.2) ∧ p ≤ l ∧ d ≤ m := by
      obtain ⟨⟨_, _⟩, _⟩ := r
      rw [Cell.mk.injEq]
      grind
    rw [insertRows, List.foldl_cons, ← insertRows, ih (bounded_insertPlane hs _ _ _) hrows,
      mem_insertPlane_iff hs hr, hfirst, Rows.holds_cons, or_and_right, or_assoc]

/-- What the rows change can be told row by row, since a set never shrinks on the way. -/
theorem stored_insertRows_from (hs : s.Bounded n l m) (hsize : Rows.Sized (n + 1) rows) (b : Bool) :
    rows.foldlM StoredPlanes.insertRow (s.stored, b) =
      .ok ((s.insertRows rows).stored, b || decide (s.insertRows rows ≠ s)) := by
  induction rows generalizing s b with
  | nil => simp [insertRows, pure, Except.pure]
  | cons r rows ih =>
    obtain ⟨hr, hrows⟩ := List.forall_mem_cons.1 hsize
    have hnext := bounded_insertPlane hs r.1.pattern r.1.distance r.2
    have hchanged := ne_iff_of_grows_twice hs hnext (bounded_insertRows hnext rows)
      (fun ⟨t, p, d⟩ hx => (mem_insertPlane_iff hs hr).2 (Or.inl hx))
      (fun ⟨t, p, d⟩ hx => (mem_insertRows hnext hrows).2 (Or.inl hx))
    rw [List.foldlM_cons, StoredPlanes.insertRow, stored_insertPlane hs hr]
    refine (ih hnext hrows _).trans ?_
    rw [Bool.or_assoc, ← Bool.decide_or]
    exact congrArg (fun c => Except.ok (_, b || c)) (decide_eq_decide.2 hchanged.symm)

theorem stored_insertRows (hs : s.Bounded n l m) (hsize : Rows.Sized (n + 1) rows) :
    s.stored.insertRows rows =
      .ok ((s.insertRows rows).stored, decide (s.insertRows rows ≠ s)) :=
  (stored_insertRows_from hs hsize false).trans (by rw [Bool.false_or])

theorem stored_union (hs : s.Bounded n l m) (hu : u.Bounded n l m) :
    s.stored.union u.stored = .ok ((s.union u).stored, decide (s.union u ≠ s)) := by
  have hrows : Rows.Sized (n + 1) u.rows := hu.1 ▸ u.size_eq
  have hunion : s.insertRows u.rows = s.union u := by
    refine ext_mem (bounded_insertRows hs _) (bounded_union hs u)
      fun ⟨t, p, d⟩ => ?_
    rw [mem_insertRows hs hrows, mem_union hs hu]
    exact or_congr_right (and_iff_left_of_imp fun hx => (hu.le_of_mem hx).2)
  have hbounds : s.stored.textLength = u.stored.textLength ∧
      s.stored.patternLength = u.stored.patternLength ∧
      s.stored.maxDistance = u.stored.maxDistance :=
    ⟨hs.1.trans hu.1.symm, hs.2.1.trans hu.2.1.symm, hs.2.2.trans hu.2.2.symm⟩
  have h : s.stored.insertRows u.stored.rows =
      .ok ((s.insertRows u.rows).stored, decide (s.insertRows u.rows ≠ s)) :=
    stored_insertRows hs hrows
  rw [StoredPlanes.union, if_pos hbounds, h, hunion]
  rfl

theorem stored_relocate (hs : s.Bounded n l m) (source target : Nat) :
    s.stored.relocate source target = .ok (s.relocate source target).stored := by
  have hlayer : s.stored.layer source = s.layer source := by
    unfold StoredPlanes.layer layer
    refine List.filterMap_congr fun r hr => ?_
    have hle : r.1.distance ≤ s.stored.maxDistance := (s.cell_le r hr).2
    simp only [and_iff_left hle]
  let moved : List (Cell × OffsetSet) := (s.layer source).map fun r => (⟨target, r.1⟩, r.2)
  have hplane : ∀ x, x ∈ moved ↔
      x.1.pattern = target ∧ (⟨source, x.1.distance⟩, x.2) ∈ s.rows := by
    rintro ⟨⟨p, d⟩, plane⟩
    simp only [moved, List.mem_map, Prod.mk.injEq, Cell.mk.injEq]
    constructor
    · rintro ⟨r, hr, ⟨rfl, rfl⟩, rfl⟩
      exact ⟨rfl, mem_layer.1 hr⟩
    · rintro ⟨rfl, hr⟩
      exact ⟨(d, plane), mem_layer.2 hr, ⟨rfl, rfl⟩, rfl⟩
  have hrows : Rows.Sized (n + 1) moved :=
    fun x hx => (s.size_eq (_, x.2) ((hplane x).1 hx).2).trans (congrArg (· + 1) hs.1)
  have hempty : s.emptyLike.Bounded n l m := bounded_emptyLike hs
  have hmoved : s.emptyLike.insertRows moved = s.relocate source target := by
    refine ext_mem (bounded_insertRows hempty _) (bounded_relocate hs _ _) fun ⟨t, p, d⟩ => ?_
    rw [mem_insertRows hempty hrows, or_iff_right not_mem_emptyLike, mem_relocate, hs.2.1]
    simp only [Rows.Holds, hplane]
    constructor
    · rintro ⟨⟨plane, ⟨rfl, hr⟩, ht⟩, hp, -⟩
      exact ⟨rfl, hp, plane, hr, ht⟩
    · rintro ⟨rfl, hp, hmem⟩
      obtain ⟨plane, hr, ht⟩ := hmem
      exact ⟨⟨plane, ⟨rfl, hr⟩, ht⟩, hp, (hs.2.2 ▸ s.cell_le _ hr).2⟩
  have h : s.stored.emptyLike.insertRows moved = _ := stored_insertRows hempty hrows
  rw [StoredPlanes.relocate, hlayer, h, hmoved]
  rfl

/-! ### Taking out -/

/-- What a restriction leaves of the plane at a cell. -/
def restrictPlane (pattern : Nat) (allowed : OffsetSet) (c : Cell) (plane : OffsetSet) :
    OffsetSet :=
  if c.pattern = pattern then plane.inter allowed else plane

theorem rows_restrictLayer {allowed : OffsetSet} :
    (s.restrictLayer q allowed).rows = Rows.revise (restrictPlane q allowed) s.rows := by
  have hrow : ∀ r ∈ (s.table.revise (restrictPlane q allowed)).rows,
      ∃ r' ∈ s.rows, r.1 = r'.1 ∧ r.2.size = r'.2.size := by
    intro r hr
    obtain ⟨r', hr', -, rfl⟩ := OffsetTable.mem_rows_revise.1 hr
    refine ⟨r', hr', rfl, ?_⟩
    unfold restrictPlane
    split <;> rfl
  refine rows_within (fun r hr => ?_) fun r hr => ?_
  · obtain ⟨r', hr', hkey, -⟩ := hrow r hr
    exact hkey ▸ s.cell_le r' hr'
  · obtain ⟨r', hr', -, hsize⟩ := hrow r hr
    exact hsize.trans (s.size_eq r' hr')

/-- Plane after plane is changed and kept, or left out. -/
theorem foldlM_restrictRow {allowed : OffsetSet} (x : StoredPlanes)
    (hrows : ∀ r ∈ rows, r.2.isEmpty = false ∧ r.2.size = allowed.size) :
    rows.foldlM (StoredPlanes.restrictRow q allowed) x =
      .ok { x with rows := x.rows ++ Rows.revise (restrictPlane q allowed) rows } := by
  induction rows generalizing x with
  | nil => simp [Rows.revise, pure, Except.pure]
  | cons r rows ih =>
    obtain ⟨⟨hne, hsize⟩, hrest⟩ := List.forall_mem_cons.1 hrows
    have hinter : r.2.inter? allowed = .ok (r.2.inter allowed) := if_pos hsize
    rw [List.foldlM_cons, StoredPlanes.restrictRow]
    by_cases hp : r.1.pattern = q
    · rw [if_pos hp, hinter]
      refine (ih _ hrest).trans ?_
      by_cases hempty : (r.2.inter allowed).isEmpty = true <;>
        simp [Rows.revise, restrictPlane, hp, hempty]
    · rw [if_neg hp]
      refine (ih _ hrest).trans ?_
      simp [Rows.revise, restrictPlane, hp, hne]

theorem stored_restrictLayer {allowed : OffsetSet} (hs : s.Bounded n l m)
    (hsize : allowed.size = n + 1) :
    s.stored.restrictLayer q allowed = .ok (s.restrictLayer q allowed).stored := by
  have hrows : ∀ r ∈ s.rows, r.2.isEmpty = false ∧ r.2.size = allowed.size := fun r hr =>
    ⟨s.table.inhabited r hr, (s.size_eq r hr).trans (hs.1 ▸ hsize.symm)⟩
  have hleft : (s.restrictLayer q allowed).stored = { s.stored with
      rows := Rows.revise (restrictPlane q allowed) s.rows } :=
    congrArg (StoredPlanes.mk _ _ _) rows_restrictLayer
  rw [hleft]
  exact foldlM_restrictRow _ hrows

/-! ### Deletions -/

theorem stored_deleteAt (hs : s.Bounded n l m) :
    s.stored.deleteAt q e = .ok (deleteAt q s e).stored := by
  have hplane : s.stored.plane q e = s.plane q e := rfl
  rw [StoredPlanes.deleteAt, deleteAt, hplane]
  cases hrow : s.plane q e with
  | none => rfl
  | some plane =>
    have hsize : plane.shifted.size = n + 1 :=
      (OffsetSet.size_shifted plane).trans (size_plane hs hrow)
    simp only [stored_insertPlane hs hsize, Except.map]

theorem stored_applyDeletions (hs : s.Bounded n l m) (q : Nat) :
    s.stored.applyDeletions q = .ok (s.applyDeletions q).stored := by
  have hfold : ∀ (ds : List Nat) {s : EditStates}, s.Bounded n l m →
      ds.foldlM (StoredPlanes.deleteAt q) s.stored = .ok (ds.foldl (deleteAt q) s).stored := by
    intro ds
    induction ds with
    | nil => exact fun _ => rfl
    | cons e ds ih =>
      intro s hs
      rw [List.foldlM_cons, stored_deleteAt hs]
      exact ih (bounded_deleteAt hs e)
  exact hfold (List.range s.maxDistance) hs

/-- A layer that is closed under deletions stays as it is. -/
theorem applyDeletions_applyDeletions (hs : s.Bounded n l m) (q : Nat) :
    (s.applyDeletions q).applyDeletions q = s.applyDeletions q := by
  have hclosed := bounded_applyDeletions hs q
  refine ext_mem (bounded_applyDeletions hclosed q) hclosed fun ⟨t, p, d⟩ => ?_
  rw [mem_applyDeletions hclosed]
  refine or_iff_left_of_imp ?_
  rintro ⟨rfl, ht, hd, i, k, c, hi, rfl, rfl⟩
  rw [mem_applyDeletions hs] at hi ⊢
  -- two diagonals, one behind the other, are one
  rcases hi with hi | ⟨-, -, -, j, k', c', hj, rfl, rfl⟩
  · exact Or.inr ⟨rfl, ht, hd, i, k, c, hi, rfl, rfl⟩
  · exact Or.inr ⟨rfl, ht, hd, j, k' + k, c', hj, Nat.add_assoc .., Nat.add_assoc ..⟩

end EditStates

end PatternSweep
