import PatternSweep.Bits

/-!
# Sets of offsets

An `OffsetSet` is a set of offsets below a fixed `size`, kept as packed bits with every bit at or
past `size` off. Its view is membership: `p ∈ s` says that offset `p` is a member, each operation
has one `contains_` equation, and `ext_contains` says that a set is its size and its members.

The plain operations `union`, `inter` and `diff` read the second set through the size of the
first. `union?`, `inter?` and `diff?` refuse sets of unequal size instead.
-/

namespace PatternSweep

/-- A set of the offsets `0, …, size - 1`, one bit for each. -/
structure OffsetSet where
  /-- The number of offsets that can be members. -/
  size : Nat
  /-- The members as packed bits. -/
  words : List UInt64
  length_words : words.length = Bits.wordCount size
  get_of_size_le : ∀ p, size ≤ p → Bits.get words p = false
  deriving DecidableEq

/-- Two sets that had to be of one size are not. -/
structure SizeMismatch where
  left : Nat
  right : Nat
  deriving DecidableEq, Repr

namespace OffsetSet

/-- Whether `p` is a member. -/
def contains (s : OffsetSet) (p : Nat) : Bool := Bits.get s.words p

instance : Membership Nat OffsetSet := ⟨fun s p => s.contains p = true⟩

instance (p : Nat) (s : OffsetSet) : Decidable (p ∈ s) :=
  inferInstanceAs (Decidable (s.contains p = true))

/-- The set of the bits of `words` that lie below `size`. -/
def ofWords (size : Nat) (words : List UInt64) : OffsetSet where
  size := size
  words := Bits.keep size (Bits.fit (Bits.wordCount size) words)
  length_words := by simp
  get_of_size_le p h := by simp [Bits.get_keep, Nat.not_lt.2 h]

/-- No offsets. -/
def empty (size : Nat) : OffsetSet := ofWords size []

/-- Every offset below `size`. -/
def full (size : Nat) : OffsetSet :=
  ofWords size (List.replicate (Bits.wordCount size) (Bits.lowOnes 64))

/-- The set with `p` added, if `p` is below its size. -/
def insert (s : OffsetSet) (p : Nat) : OffsetSet := ofWords s.size (Bits.turnOn s.words p)

/-- Whether inserting `p` adds a member. -/
def adds (s : OffsetSet) (p : Nat) : Bool := p < s.size && !s.contains p

/-- The set without `p`. -/
def erase (s : OffsetSet) (p : Nat) : OffsetSet := ofWords s.size (Bits.turnOff s.words p)

/-- The set without any of its members. -/
def clear (s : OffsetSet) : OffsetSet := empty s.size

/-- The offsets of a list that lie below `size`. -/
def ofList (size : Nat) (ps : List Nat) : OffsetSet :=
  ofWords size (Bits.turnOnAll (List.replicate (Bits.wordCount size) 0) ps)

/-- The offsets in either set. -/
def union (s t : OffsetSet) : OffsetSet := ofWords s.size (Bits.union s.words t.words)

/-- Whether a union with `t` adds a member. -/
def gains (s t : OffsetSet) : Bool := Bits.gains s.words t.words

/-- The offsets in both sets. -/
def inter (s t : OffsetSet) : OffsetSet := ofWords s.size (Bits.inter s.words t.words)

/-- The offsets in the first set only. -/
def diff (s t : OffsetSet) : OffsetSet := ofWords s.size (Bits.diff s.words t.words)

/-- Every member moved one offset forward; a member at the last offset is dropped. -/
def shifted (s : OffsetSet) : OffsetSet := ofWords s.size (Bits.shift 0 s.words)

/-- The members in ascending order. -/
def toList (s : OffsetSet) : List Nat := Bits.places 0 s.words

/-- The number of members. -/
def card (s : OffsetSet) : Nat := Bits.count s.words

/-- Whether there is no member. -/
def isEmpty (s : OffsetSet) : Bool := s.words.all (· = 0)

/-- Whether the sets have one size and every member of the first is in the second. -/
def isSubset (s t : OffsetSet) : Bool := s.size = t.size && (s.diff t).isEmpty

/-- The members that satisfy `q`. -/
def filter (s : OffsetSet) (q : Nat → Bool) : OffsetSet := ofWords s.size (Bits.pick q 0 s.words)

/-- The members below `size`, in a set of that size. -/
def resize (s : OffsetSet) (size : Nat) : OffsetSet :=
  if s.size = size then s else ofWords size s.words

/-- `f s t` for sets of one size. -/
def sameSize (f : OffsetSet → OffsetSet → OffsetSet) (s t : OffsetSet) :
    Except SizeMismatch OffsetSet :=
  if s.size = t.size then .ok (f s t) else .error ⟨s.size, t.size⟩

/-- The union of two sets of one size. -/
def union? : OffsetSet → OffsetSet → Except SizeMismatch OffsetSet := sameSize union

/-- The intersection of two sets of one size. -/
def inter? : OffsetSet → OffsetSet → Except SizeMismatch OffsetSet := sameSize inter

/-- The difference of two sets of one size. -/
def diff? : OffsetSet → OffsetSet → Except SizeMismatch OffsetSet := sameSize diff

/-- One digit per offset, `1` for a member and `0` for the rest. -/
def digits (s : OffsetSet) : String :=
  String.ofList ((List.range s.size).map fun p => if s.contains p then '1' else '0')

/-! ### Membership after each operation -/

variable {s t : OffsetSet} {p q n : Nat}

theorem mem_iff : p ∈ s ↔ s.contains p = true := Iff.rfl

theorem contains_eq_false_of_size_le (h : s.size ≤ p) : s.contains p = false :=
  s.get_of_size_le p h

theorem lt_size_of_mem (h : p ∈ s) : p < s.size := by
  rcases Nat.lt_or_ge p s.size with hp | hp
  · exact hp
  · have := contains_eq_false_of_size_le (s := s) hp
    simp [mem_iff, this] at h

/-- A set is its size and its members. -/
theorem ext_contains (hs : s.size = t.size) (h : ∀ p, s.contains p = t.contains p) : s = t := by
  obtain ⟨n, vs, hv, _⟩ := s
  obtain ⟨m, ws, hw, _⟩ := t
  simp only at hs
  subst hs
  have : vs = ws := Bits.eq_of_get (hv.trans hw.symm) h
  subst this
  rfl

@[simp] theorem size_ofWords (n : Nat) (ws : List UInt64) : (ofWords n ws).size = n := rfl

theorem contains_ofWords (n : Nat) (ws : List UInt64) (p : Nat) :
    (ofWords n ws).contains p = (decide (p < n) && Bits.get ws p) := by
  by_cases h : p < n
  · have : p < 64 * Bits.wordCount n := by simp only [Bits.wordCount]; omega
    simp [ofWords, contains, Bits.get_keep, Bits.get_fit, this]
  · simp [ofWords, contains, Bits.get_keep, h]

@[simp] theorem size_empty (n : Nat) : (empty n).size = n := rfl
@[simp] theorem size_full (n : Nat) : (full n).size = n := rfl
@[simp] theorem size_insert (s : OffsetSet) (p : Nat) : (s.insert p).size = s.size := rfl
@[simp] theorem size_erase (s : OffsetSet) (p : Nat) : (s.erase p).size = s.size := rfl
@[simp] theorem size_clear (s : OffsetSet) : s.clear.size = s.size := rfl
@[simp] theorem size_union (s t : OffsetSet) : (s.union t).size = s.size := rfl
@[simp] theorem size_inter (s t : OffsetSet) : (s.inter t).size = s.size := rfl
@[simp] theorem size_diff (s t : OffsetSet) : (s.diff t).size = s.size := rfl
@[simp] theorem size_shifted (s : OffsetSet) : s.shifted.size = s.size := rfl

@[simp] theorem size_ofList (n : Nat) (ps : List Nat) : (ofList n ps).size = n := rfl
@[simp] theorem size_filter (s : OffsetSet) (q : Nat → Bool) : (s.filter q).size = s.size := rfl

@[simp] theorem contains_empty (n p : Nat) : (empty n).contains p = false := by
  simp [empty, contains_ofWords]

theorem get_replicate_lowOnes (k p : Nat) :
    Bits.get (List.replicate k (Bits.lowOnes 64)) p = decide (p < 64 * k) := by
  induction k generalizing p with
  | zero => simp
  | succ k ih =>
    by_cases h : p < 64
    · have : p < 64 * (k + 1) := by omega
      simp [List.replicate_succ, Bits.get_cons, h, this]
    · have : p - 64 < 64 * k ↔ p < 64 * (k + 1) := by omega
      simp [List.replicate_succ, Bits.get_cons, h, ih, this]

@[simp] theorem contains_full (n p : Nat) : (full n).contains p = decide (p < n) := by
  rw [full, contains_ofWords, get_replicate_lowOnes]
  by_cases h : p < n
  · have : p < 64 * Bits.wordCount n := by simp only [Bits.wordCount]; omega
    simp [h, this]
  · simp [h]

theorem contains_insert (s : OffsetSet) (q p : Nat) :
    (s.insert q).contains p = (s.contains p || decide (p = q ∧ p < s.size)) := by
  rw [insert, contains_ofWords, Bits.get_turnOn, s.length_words]
  by_cases h : p < s.size
  · have : p < 64 * Bits.wordCount s.size := by simp only [Bits.wordCount]; omega
    simp [contains, h, this]
  · simp [contains_eq_false_of_size_le (Nat.not_lt.1 h), h]

theorem contains_erase (s : OffsetSet) (q p : Nat) :
    (s.erase q).contains p = (s.contains p && decide (p ≠ q)) := by
  rw [erase, contains_ofWords, Bits.get_turnOff]
  by_cases h : p < s.size
  · simp [contains, h]
  · simp [contains_eq_false_of_size_le (Nat.not_lt.1 h), h]

theorem contains_union (s t : OffsetSet) (p : Nat) :
    (s.union t).contains p = (s.contains p || (decide (p < s.size) && t.contains p)) := by
  rw [union, contains_ofWords, Bits.get_union]
  by_cases h : p < s.size
  · simp [contains, h]
  · simp [contains_eq_false_of_size_le (Nat.not_lt.1 h), h]

theorem contains_inter (s t : OffsetSet) (p : Nat) :
    (s.inter t).contains p = (s.contains p && t.contains p) := by
  rw [inter, contains_ofWords, Bits.get_inter]
  by_cases h : p < s.size
  · simp [contains, h]
  · simp [contains_eq_false_of_size_le (Nat.not_lt.1 h), h]

theorem contains_diff (s t : OffsetSet) (p : Nat) :
    (s.diff t).contains p = (s.contains p && !t.contains p) := by
  rw [diff, contains_ofWords, Bits.get_diff]
  by_cases h : p < s.size
  · simp [contains, h]
  · simp [contains_eq_false_of_size_le (Nat.not_lt.1 h), h]

theorem contains_shifted (s : OffsetSet) (p : Nat) :
    s.shifted.contains p = (decide (p ≠ 0 ∧ p < s.size) && s.contains (p - 1)) := by
  rw [shifted, contains_ofWords, Bits.get_shift 0 _ _ (by simp), s.length_words]
  by_cases h : p < s.size
  · have : p < 64 * Bits.wordCount s.size := by simp only [Bits.wordCount]; omega
    by_cases h0 : p = 0 <;> simp [contains, h, h0, this]
  · simp [h]

theorem get_replicate_zero (k p : Nat) : Bits.get (List.replicate k 0) p = false := by
  induction k generalizing p with
  | zero => rfl
  | succ k ih => by_cases h : p < 64 <;> simp [List.replicate_succ, Bits.get_cons, h, ih]

theorem contains_ofList (n : Nat) (ps : List Nat) (p : Nat) :
    (ofList n ps).contains p = decide (p ∈ ps ∧ p < n) := by
  rw [ofList, contains_ofWords, Bits.get_turnOnAll, get_replicate_zero, List.length_replicate]
  by_cases h : p < n
  · have : p < 64 * Bits.wordCount n := by simp only [Bits.wordCount]; omega
    simp [h, this]
  · simp [h]

theorem mem_toList : p ∈ s.toList ↔ p ∈ s := by
  simp [toList, Bits.mem_places, mem_iff, contains]

theorem pairwise_toList (s : OffsetSet) : s.toList.Pairwise (· < ·) :=
  Bits.pairwise_places 0 s.words

theorem card_eq_length_toList (s : OffsetSet) : s.card = s.toList.length :=
  Bits.count_eq_length_places 0 s.words

theorem isEmpty_iff : s.isEmpty = true ↔ ∀ p, s.contains p = false :=
  Bits.all_eq_zero_iff

theorem isEmpty_eq_false_iff : s.isEmpty = false ↔ ∃ p, p ∈ s := by
  rw [← Bool.not_eq_true, isEmpty_iff]
  simp [mem_iff]

theorem contains_filter (s : OffsetSet) (q : Nat → Bool) (p : Nat) :
    (s.filter q).contains p = (s.contains p && q p) := by
  rw [filter, contains_ofWords, Bits.get_pick, Nat.zero_add]
  by_cases h : p < s.size
  · simp [contains, h]
  · simp [contains_eq_false_of_size_le (Nat.not_lt.1 h), h]

@[simp] theorem size_resize (s : OffsetSet) (n : Nat) : (s.resize n).size = n := by
  unfold resize
  split
  next h => exact h
  next => rfl

theorem contains_resize (s : OffsetSet) (n p : Nat) :
    (s.resize n).contains p = (decide (p < n) && s.contains p) := by
  unfold resize
  split
  next h =>
    subst h
    by_cases hp : p < s.size
    · simp [hp]
    · simp [contains_eq_false_of_size_le (Nat.not_lt.1 hp)]
  next => rw [contains_ofWords, contains]

/-- A union with a set that has members has members. -/
theorem isEmpty_union_eq_false (h : s.isEmpty = false) : (s.union t).isEmpty = false := by
  obtain ⟨p, hp⟩ := isEmpty_eq_false_iff.1 h
  exact isEmpty_eq_false_iff.2 ⟨p, by simp [mem_iff, contains_union, mem_iff.1 hp]⟩

end OffsetSet
end PatternSweep
