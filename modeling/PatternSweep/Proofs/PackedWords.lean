import PatternSweep.Proofs.FiniteOffsets

/-!
# The words of an offset set

Every operation cuts its result to the size of the set. Here is what it does to the words without
that: as all bits past the size are off before, putting an offset in, taking one out, a union, an
intersection and a difference leave them off by themselves, and only the full set and the shifted
one have to be cut (`words_full`, `words_shifted`). So the words of a set can be changed in place.
-/

namespace PatternSweep

namespace Bits

variable {vs ws : List UInt64} {p : Nat}

/-! ### Numbers of words -/

theorem length_union (h : vs.length = ws.length) : (union vs ws).length = vs.length := by
  induction vs, ws using union.induct with
  | case1 ws => exact h.symm
  | case2 v vs => rfl
  | case3 v vs w ws ih => rw [union, List.length_cons, ih (Nat.succ.inj h), List.length_cons]

theorem length_inter (h : vs.length = ws.length) : (inter vs ws).length = vs.length := by
  induction vs generalizing ws with
  | nil => simp [inter]
  | cons v vs ih =>
    cases ws with
    | nil => simp at h
    | cons w ws => rw [inter, List.length_cons, ih (Nat.succ.inj h), List.length_cons]

theorem length_diff (vs ws : List UInt64) : (diff vs ws).length = vs.length := by
  induction vs, ws using diff.induct with
  | case1 ws => rfl
  | case2 v vs => rfl
  | case3 v vs w ws ih => rw [diff, List.length_cons, ih, List.length_cons]

theorem length_shift (carry : UInt64) (ws : List UInt64) :
    (shift carry ws).length = ws.length := by
  induction ws generalizing carry with
  | nil => rfl
  | cons w ws ih => rw [shift, List.length_cons, ih, List.length_cons]

theorem length_turnOff (ws : List UInt64) (q : Nat) : (turnOff ws q).length = ws.length := by
  induction ws generalizing q with
  | nil => rfl
  | cons w ws ih => by_cases h : q < 64 <;> simp [turnOff, h, ih]

/-! ### Bits that a union turns on -/

/-- A word changes when it takes up a bit that it did not have. -/
theorem or_ne_iff {v w : UInt64} :
    v ||| w ≠ v ↔ ∃ i, i < 64 ∧ bit w i = true ∧ bit v i = false := by
  constructor
  · intro h
    by_contra hnone
    refine h (word_eq_of_bit fun i hi => ?_)
    rw [bit_or, Bool.or_eq_left_iff_imp]
    intro hw
    by_contra hv
    exact hnone ⟨i, hi, hw, by simpa using hv⟩
  · rintro ⟨i, -, hw, hv⟩ heq
    have hi : bit (v ||| w) i = bit v i := congrArg (bit · i) heq
    rw [bit_or, hw, hv] at hi
    cases hi

/-- Word by word it is noticed whether a union turns any bit on. -/
theorem gains_iff (h : vs.length = ws.length) :
    gains vs ws = true ↔ ∃ p, get ws p = true ∧ get vs p = false := by
  induction vs generalizing ws with
  | nil =>
    have hnil : ws = [] := List.length_eq_zero_iff.1 h.symm
    simp [gains, hnil]
  | cons v vs ih =>
    cases ws with
    | nil => simp at h
    | cons w ws =>
      rw [gains, Bool.or_eq_true, bne_iff_ne, or_ne_iff, ih (Nat.succ.inj h)]
      constructor
      · rintro (⟨i, hi, hw, hv⟩ | ⟨p, hw, hv⟩)
        · exact ⟨i, by simpa [get_cons, hi] using hw, by simpa [get_cons, hi] using hv⟩
        · have hp : ¬p + 64 < 64 := by omega
          exact ⟨p + 64, by simpa [get_cons, hp] using hw, by simpa [get_cons, hp] using hv⟩
      · rintro ⟨p, hw, hv⟩
        rw [get_cons] at hw hv
        by_cases hp : p < 64
        · exact Or.inl ⟨p, hp, by simpa [hp] using hw, by simpa [hp] using hv⟩
        · exact Or.inr ⟨p - 64, by simpa [hp] using hw, by simpa [hp] using hv⟩

end Bits

namespace OffsetSet

variable {s t : OffsetSet} {ws : List UInt64} {n p q : Nat}

/-- Words with the bits of a set are its words. -/
theorem words_eq (hl : s.words.length = ws.length) (h : ∀ p, s.contains p = Bits.get ws p) :
    s.words = ws :=
  Bits.eq_of_get hl h

theorem length_words_eq (h : s.size = t.size) : s.words.length = t.words.length := by
  rw [s.length_words, t.length_words, h]

theorem words_empty (n : Nat) : (empty n).words = List.replicate (Bits.wordCount n) 0 := by
  refine words_eq (by rw [length_words, List.length_replicate, size_empty]) fun p => ?_
  rw [contains_empty, get_replicate_zero]

/-- All bits are on, up to the size. -/
theorem words_full (n : Nat) : (full n).words =
    Bits.keep n (List.replicate (Bits.wordCount n) (Bits.lowOnes 64)) := by
  refine words_eq ?_ fun p => ?_
  · rw [length_words, Bits.length_keep, List.length_replicate, size_full]
  · rw [contains_full, Bits.get_keep, get_replicate_lowOnes]
    by_cases hp : p < n
    · have : p < 64 * Bits.wordCount n := by simp only [Bits.wordCount]; omega
      simp [hp, this]
    · simp [hp]

theorem words_insert (h : q < s.size) : (s.insert q).words = Bits.turnOn s.words q := by
  refine words_eq ?_ fun p => ?_
  · rw [length_words, Bits.length_turnOn, length_words, size_insert]
  · have hq : q < 64 * Bits.wordCount s.size := by simp only [Bits.wordCount]; omega
    rw [contains_insert, Bits.get_turnOn, s.length_words]
    refine congrArg (s.contains p || ·) (decide_eq_decide.2 (and_congr_right ?_))
    rintro rfl
    exact iff_of_true h hq

theorem insert_eq_self (h : ¬q < s.size) : s.insert q = s := by
  refine ext_contains rfl fun p => ?_
  rw [contains_insert]
  have : ¬(p = q ∧ p < s.size) := by omega
  simp [this]

theorem words_erase : (s.erase q).words = Bits.turnOff s.words q := by
  refine words_eq ?_ fun p => ?_
  · rw [length_words, Bits.length_turnOff, length_words, size_erase]
  · rw [contains_erase, Bits.get_turnOff]
    rfl

theorem erase_eq_self (h : ¬q < s.size) : s.erase q = s := by
  refine ext_contains rfl fun p => ?_
  rw [contains_erase]
  by_cases hp : p = q
  · simp [hp, contains_eq_false_of_size_le (Nat.not_lt.1 h)]
  · simp [hp]

theorem words_clear (s : OffsetSet) : s.clear.words = s.words.map fun _ => 0 := by
  rw [clear, words_empty, List.map_const', s.length_words]

/-- The bit that leaves the last offset is cut off. -/
theorem words_shifted (s : OffsetSet) :
    s.shifted.words = Bits.keep s.size (Bits.shift 0 s.words) := by
  refine words_eq ?_ fun p => ?_
  · rw [length_words, Bits.length_keep, Bits.length_shift, length_words, size_shifted]
  · rw [contains_shifted, Bits.get_keep, Bits.get_shift 0 _ _ (by simp), s.length_words]
    by_cases hp : p < s.size
    · have : p < 64 * Bits.wordCount s.size := by simp only [Bits.wordCount]; omega
      by_cases h0 : p = 0 <;> simp [contains, hp, h0, this]
    · simp [hp]

theorem words_union (h : s.size = t.size) : (s.union t).words = Bits.union s.words t.words := by
  refine words_eq ?_ fun p => ?_
  · rw [length_words, Bits.length_union (length_words_eq h), length_words, size_union]
  · have hlt : t.contains p = true → p < s.size := fun hp => h ▸ lt_size_of_mem hp
    rw [contains_union, Bits.get_union]
    refine congrArg (s.contains p || ·) ?_
    exact Bool.and_eq_right_iff_imp.2 fun hp => decide_eq_true (hlt hp)

theorem words_inter (h : s.size = t.size) : (s.inter t).words = Bits.inter s.words t.words := by
  refine words_eq ?_ fun p => ?_
  · rw [length_words, Bits.length_inter (length_words_eq h), length_words, size_inter]
  · rw [contains_inter, Bits.get_inter]
    rfl

theorem words_diff : (s.diff t).words = Bits.diff s.words t.words := by
  refine words_eq ?_ fun p => ?_
  · rw [length_words, Bits.length_diff, length_words, size_diff]
  · rw [contains_diff, Bits.get_diff]
    rfl

/-! ### Whether a member is added -/

theorem adds_iff : s.adds q = true ↔ q < s.size ∧ q ∉ s := by
  rw [adds, Bool.and_eq_true, decide_eq_true_eq, Bool.not_eq_true', mem_iff, Bool.not_eq_true]

theorem gains_iff (h : s.size = t.size) : s.gains t = true ↔ ∃ p, p ∈ t ∧ p ∉ s := by
  rw [gains, Bits.gains_iff (length_words_eq h)]
  simp only [mem_iff, Bool.not_eq_true]
  exact Iff.rfl

theorem adds_eq_gains (s : OffsetSet) (q : Nat) : s.adds q = s.gains (ofList s.size [q]) := by
  rw [Bool.eq_iff_iff, adds_iff, gains_iff (size_ofList _ _).symm]
  simp [mem_ofList, and_assoc]

end OffsetSet

end PatternSweep
