import Mathlib.Data.List.ModifyLast
import PatternSweep.Proofs.PackedWords

/-!
# Reading words

What is read off a sequence of words is read word by word. The places of the bits that are on are
found from the lowest up: the trailing zeros of a word give the next place (`trailingZeros`), which
is then turned off (`bit_clearLowest`), and a word that has become zero gives way to the word after
it (`Positions.next`). The places that are still to come are known at every moment
(`Positions.remaining`), and a step takes the first of them (`Positions.remaining_eq`). So the
reading comes to an end and gives the `places` (`Positions.toList_start`), and the number of bits
that are on is the sum over the words (`sumOnes_eq_count`). Last, the bits past the size of a set
all lie in the last word, so that it is enough to cut that one (`clearTail_eq_keep`).
-/

namespace PatternSweep

namespace Bits

variable {w : UInt64} {ws : List UInt64}

/-! ### One bit -/

/-- Whether a bit is on, by the number of its word and its place in there. -/
def test (ws : List UInt64) (p : Nat) : Bool := ws[p / 64]?.getD 0 &&& single (p % 64) != 0

theorem and_single_ne_zero {i : Nat} (hi : i < 64) : w &&& single i ≠ 0 ↔ bit w i = true := by
  rw [← not_iff_not, not_not, eq_zero_iff, Bool.not_eq_true]
  constructor
  · intro h
    simpa [hi] using h i
  · intro h j
    by_cases hj : i = j
    · simp [← hj, h]
    · simp [hj]

theorem get_eq_bit (ws : List UInt64) (p : Nat) :
    get ws p = bit (ws[p / 64]?.getD 0) (p % 64) := by
  induction ws generalizing p with
  | nil => simp
  | cons w ws ih =>
    rw [get_cons]
    split
    next h => simp [Nat.div_eq_of_lt h, Nat.mod_eq_of_lt h]
    next h =>
      have hdiv : p / 64 = (p - 64) / 64 + 1 := by omega
      have hmod : p % 64 = (p - 64) % 64 := by omega
      rw [ih, hdiv, hmod, List.getElem?_cons_succ]

theorem test_eq_get (ws : List UInt64) (p : Nat) : test ws p = get ws p := by
  have hp : p % 64 < 64 := Nat.mod_lt p (by decide)
  rw [get_eq_bit, test, Bool.eq_iff_iff, bne_iff_ne, and_single_ne_zero hp]

/-! ### The lowest bit of a word -/

/-- The number of bits below the lowest one that is on. -/
def trailingZeros (w : UInt64) : Nat := w.toBitVec.ctz.toNat

/-- The word without its lowest bit. -/
def clearLowest (w : UInt64) : UInt64 := w &&& (w - 1)

/-- The number of bits of a word that are on. -/
def ones (w : UInt64) : Nat := w.toBitVec.cpop.toNat

theorem toBitVec_ne_zero (h : w ≠ 0) : w.toBitVec ≠ 0#64 := fun e => h (UInt64.toBitVec_inj.1 e)

theorem bit_trailingZeros (h : w ≠ 0) : bit w (trailingZeros w) = true := by
  rw [bit_eq]
  exact BitVec.getLsbD_true_ctz_of_ne_zero (toBitVec_ne_zero h)

theorem bit_of_lt_trailingZeros {i : Nat} (h : i < trailingZeros w) : bit w i = false := by
  rw [bit_eq]
  exact BitVec.getLsbD_false_of_lt_ctz h

theorem trailingZeros_lt (h : w ≠ 0) : trailingZeros w < 64 := by
  by_contra hle
  have hoff : bit w (trailingZeros w) = false := bit_eq_false_of_le (Nat.not_lt.1 hle)
  rw [bit_trailingZeros h] at hoff
  cases hoff

theorem testBit_toNat (w : UInt64) (i : Nat) : w.toNat.testBit i = bit w i := by
  rw [bit_eq]
  rfl

/-- Up to its lowest bit that is on, a word has no other bit. -/
theorem toNat_mod (h : w ≠ 0) :
    w.toNat % 2 ^ (trailingZeros w + 1) = 2 ^ trailingZeros w := by
  refine Nat.eq_of_testBit_eq fun i => ?_
  rw [Nat.testBit_mod_two_pow, Nat.testBit_two_pow, testBit_toNat]
  obtain hi | rfl | hi := Nat.lt_trichotomy i (trailingZeros w)
  · simp [bit_of_lt_trailingZeros hi, hi.ne']
  · simp [bit_trailingZeros h]
  · simp [hi.ne, Nat.not_lt.2 hi]

/-- Taking one off turns the lowest bit off and leaves the bits above it alone. -/
theorem bit_sub_one (h : w ≠ 0) {i : Nat} (hi : trailingZeros w ≤ i) :
    bit (w - 1) i = (bit w i && decide (i ≠ trailingZeros w)) := by
  generalize hq : w.toNat / 2 ^ (trailingZeros w + 1) = q
  have hpos : 0 < 2 ^ trailingZeros w := Nat.two_pow_pos _
  have hlt : 2 ^ trailingZeros w < 2 ^ (trailingZeros w + 1) :=
    Nat.pow_lt_pow_right (by decide) (Nat.lt_succ_self _)
  have hw : w.toNat = 2 ^ (trailingZeros w + 1) * q + 2 ^ trailingZeros w := by
    rw [← hq, ← toNat_mod h, Nat.div_add_mod]
  have hone : (1 : UInt64) ≤ w := by
    rw [UInt64.le_iff_toNat_le, UInt64.toNat_one]
    omega
  have hsub : (w - 1).toNat =
      2 ^ (trailingZeros w + 1) * q + (2 ^ trailingZeros w - 1) := by
    rw [UInt64.toNat_sub_of_le _ _ hone, UInt64.toNat_one]
    omega
  rw [← testBit_toNat, ← testBit_toNat, hsub, Nat.testBit_two_pow_mul_add _ (by omega), hw,
    Nat.testBit_two_pow_mul_add _ hlt]
  by_cases hk : i = trailingZeros w
  · simp [hk]
  · have habove : ¬i < trailingZeros w + 1 := by omega
    simp [hk, habove]

theorem bit_clearLowest (h : w ≠ 0) (i : Nat) :
    bit (clearLowest w) i = (bit w i && decide (i ≠ trailingZeros w)) := by
  rw [clearLowest, bit_and]
  obtain hi | hi := Nat.lt_or_ge i (trailingZeros w)
  · simp [bit_of_lt_trailingZeros hi]
  · rw [bit_sub_one h hi, ← Bool.and_assoc, Bool.and_self]

/-- What satisfies `p` is the first number that does, and then what satisfies `q`, if `q` is `p`
without that number. -/
theorem filter_range_eq_cons {p q : Nat → Bool} {k : Nat} (hk : p k = true)
    (hbelow : ∀ i < k, p i = false) (hq : ∀ i, q i = (p i && decide (i ≠ k))) {n : Nat}
    (hn : k < n) : (List.range n).filter p = k :: (List.range n).filter q := by
  induction n with
  | zero => exact absurd hn (Nat.not_lt_zero k)
  | succ n ih =>
    rw [List.range_succ, List.filter_append, List.filter_append]
    obtain hlt | rfl := Nat.lt_succ_iff_lt_or_eq.1 hn
    · have hsame : q n = p n := by simp [hq, hlt.ne']
      rw [ih hlt, List.filter_singleton, List.filter_singleton, hsame, List.cons_append]
    · have hp : (List.range k).filter p = [] := List.filter_eq_nil_iff.2 fun i hi => by
        simp [hbelow i (List.mem_range.1 hi)]
      have hqk : (List.range k).filter q = [] := List.filter_eq_nil_iff.2 fun i hi => by
        simp [hq, hbelow i (List.mem_range.1 hi)]
      rw [hp, hqk]
      simp [hk, hq]

/-- The places of a word: the lowest, and then those of the word without it. -/
theorem filter_bit_eq_cons (h : w ≠ 0) :
    (List.range 64).filter (bit w) =
      trailingZeros w :: (List.range 64).filter (bit (clearLowest w)) :=
  filter_range_eq_cons (bit_trailingZeros h) (fun _ => bit_of_lt_trailingZeros)
    (bit_clearLowest h) (trailingZeros_lt h)

theorem ones_eq_countP (w : UInt64) : ones w = (List.range 64).countP (bit w) := by
  have below (n : Nat) :
      w.toBitVec.cpopNatRec n 0 = (List.range n).countP (w.toBitVec.getLsbD ·) := by
    induction n with
    | zero => rfl
    | succ n ih =>
      rw [BitVec.cpopNatRec_succ, BitVec.cpopNatRec_add, ih, List.range_succ, List.countP_append]
      cases h : w.toBitVec.getLsbD n <;> simp [h]
  rw [ones, BitVec.toNat_cpop, below]
  exact List.countP_congr fun i _ => by rw [bit_eq]

/-- The bits that are on, counted word by word. -/
def sumOnes (ws : List UInt64) : Nat := ws.foldl (fun n w => n + ones w) 0

theorem sumOnes_eq_count (ws : List UInt64) : sumOnes ws = count ws := by
  have above (n : Nat) : ws.foldl (fun n w => n + ones w) n = n + count ws := by
    induction ws generalizing n with
    | nil => rfl
    | cons w ws ih =>
      rw [List.foldl_cons, ih, count, Nat.add_assoc]
      split
      next h => simp [h, ones_eq_countP]
      next h => rw [ones_eq_countP]
  rw [sumOnes, above, Nat.zero_add]

/-! ### Two sequences -/

/-- Whether every bit that is on in the first sequence is on in the second, word by word. -/
def within (vs ws : List UInt64) : Bool := (vs.zip ws).all fun u => u.1 &&& ~~~u.2 = 0

/-- Of sequences of one length, the first lies in the second if nothing is left of it without the
second. -/
theorem within_eq_all_diff {vs : List UInt64} (h : vs.length = ws.length) :
    within vs ws = (diff vs ws).all (· = 0) := by
  induction vs, ws using diff.induct with
  | case1 ws => rfl
  | case2 v vs => cases h
  | case3 v vs w ws ih =>
    rw [within, List.zip_cons_cons, List.all_cons, ← within, ih (Nat.succ.inj h), diff,
      List.all_cons]

/-! ### Places from the lowest up -/

/-- Passing over the words that are zero leaves no place out. -/
theorem places_cons (base : Nat) (w : UInt64) (ws : List UInt64) :
    places base (w :: ws) =
      ((List.range 64).filter (bit w)).map (base + ·) ++ places (base + 64) ws := by
  rw [places]
  split
  next h => simp [h]
  next h => rfl

/-- A reading of words, stopped on the way. -/
structure Positions where
  /-- All words. -/
  words : List UInt64
  /-- The number of the word that is being read. -/
  index : Nat
  /-- What is left of that word. -/
  current : UInt64

namespace Positions

/-- Before the first bit. -/
def start (words : List UInt64) : Positions := ⟨words, 0, words.head?.getD 0⟩

/-- The next place and the reading after it, or none if no bit is left. -/
def next (r : Positions) : Option (Nat × Positions) :=
  if r.current ≠ 0 then
    some (r.index * 64 + trailingZeros r.current, { r with current := clearLowest r.current })
  else
    match _h : r.words[r.index + 1]? with
    | none => none
    | some w => next { r with index := r.index + 1, current := w }
termination_by r.words.length - r.index
decreasing_by
  have : r.index + 1 < r.words.length := (List.getElem?_eq_some_iff.1 _h).1
  change r.words.length - (r.index + 1) < r.words.length - r.index
  omega

/-- The places that are still to come. -/
def remaining (r : Positions) : List Nat :=
  ((List.range 64).filter (bit r.current)).map (r.index * 64 + ·) ++
    places ((r.index + 1) * 64) (r.words.drop (r.index + 1))

/-- A step takes the first of the places that are to come, and there is none if they are over. -/
theorem remaining_eq (r : Positions) :
    r.remaining = r.next.elim [] fun step => step.1 :: step.2.remaining := by
  fun_induction next r with
  | case1 r h =>
    rw [remaining, filter_bit_eq_cons h]
    rfl
  | case2 r h hnone =>
    have hdrop : r.words.drop (r.index + 1) = [] :=
      List.drop_eq_nil_iff.2 (List.getElem?_eq_none_iff.1 hnone)
    simp [remaining, not_not.1 h, hdrop, places]
  | case3 r h w hw ih =>
    obtain ⟨hlt, hget⟩ := List.getElem?_eq_some_iff.1 hw
    -- the word in hand is used up, so it is the places of the next one that come first
    rw [← ih]
    simp only [remaining, not_not.1 h, List.drop_eq_getElem_cons hlt, hget, places_cons]
    simp [Nat.add_mul]

theorem remaining_of_next {r r' : Positions} {p : Nat} (h : r.next = some (p, r')) :
    r.remaining = p :: r'.remaining := by
  rw [remaining_eq, h]
  rfl

/-- All places, one step after the other. -/
def toList (r : Positions) : List Nat :=
  match _h : r.next with
  | none => []
  | some (p, r') => p :: r'.toList
termination_by r.remaining.length
decreasing_by simp [remaining_of_next _h]

theorem toList_eq (r : Positions) : r.toList = r.remaining := by
  fun_induction toList r with
  | case1 r h => rw [remaining_eq, h, Option.elim_none]
  | case2 r p r' h ih => rw [remaining_of_next h, ih]

/-- From the start every place is read, once and in ascending order. -/
theorem toList_start (ws : List UInt64) : (start ws).toList = places 0 ws := by
  rw [toList_eq]
  cases ws with
  | nil => simp [start, remaining, places]
  | cons w ws => simp [start, remaining, places_cons]

end Positions

/-! ### The last word -/

/-- The last word cut to the bits that the size leaves to it, if the size does not fill it. -/
def clearTail (size : Nat) (ws : List UInt64) : List UInt64 :=
  if size % 64 = 0 then ws
  else ws.modifyLast (· &&& ((1 <<< UInt64.ofNat (size % 64)) - 1))

theorem one_shiftLeft_sub_one {n : Nat} (h : n < 64) :
    (1 <<< UInt64.ofNat n) - 1 = lowOnes n := by
  have hpow : 2 ^ n < 2 ^ 64 := Nat.pow_lt_pow_right (by decide) h
  have hn : (UInt64.ofNat n).toNat % 64 = n := by
    simpa using Nat.mod_eq_of_lt h
  have hshift : (1 <<< UInt64.ofNat n : UInt64).toNat = 2 ^ n := by
    rw [UInt64.toNat_shiftLeft, hn, UInt64.toNat_one, Nat.one_shiftLeft, Nat.mod_eq_of_lt hpow]
  have hone : (1 : UInt64) ≤ 1 <<< UInt64.ofNat n := by
    rw [UInt64.le_iff_toNat_le, hshift, UInt64.toNat_one]
    exact Nat.one_le_two_pow
  rw [← UInt64.toNat_inj, UInt64.toNat_sub_of_le _ _ hone, hshift, lowOnes, Nat.min_eq_left h.le,
    Nat.one_shiftLeft, UInt64.toNat_ofNat', Nat.mod_eq_of_lt (by omega), UInt64.toNat_one]

theorem clearTail_cons_cons (size : Nat) (w v : UInt64) (ws : List UInt64) :
    clearTail size (w :: v :: ws) = w :: clearTail size (v :: ws) := by
  rw [clearTail, clearTail]
  split
  next h => rfl
  next h => exact List.modifyLast_append_of_right_ne_nil _ [w] (v :: ws) (List.cons_ne_nil v ws)

/-- The bits past the size are off once the last word is cut, if there are as many words as the size
asks for. -/
theorem clearTail_eq_keep {size : Nat} (h : ws.length = wordCount size) :
    clearTail size ws = keep size ws := by
  induction ws generalizing size with
  | nil => simp [clearTail, keep, List.modifyLast, List.modifyLast.go]
  | cons w ws ih =>
    cases ws with
    | nil =>
      have hsize : 0 < size ∧ size ≤ 64 := by
        simp only [wordCount, List.length_singleton] at h
        omega
      rw [clearTail, keep]
      obtain hlt | rfl := hsize.2.lt_or_eq
      · have hmod : size % 64 = size := Nat.mod_eq_of_lt hlt
        rw [hmod, if_neg hsize.1.ne', if_neg (Nat.not_le.2 hlt), ← one_shiftLeft_sub_one hlt]
        exact List.modifyLast_concat _ w []
      · rfl
    | cons v ws =>
      have hsize : 64 < size := by
        simp only [wordCount, List.length_cons] at h
        omega
      have hlength : (v :: ws).length = wordCount (size - 64) := by
        simp only [wordCount, List.length_cons] at h ⊢
        omega
      have hmod : (size - 64) % 64 = size % 64 := by omega
      rw [clearTail_cons_cons, keep, if_pos hsize.le, ← ih hlength, clearTail, clearTail, hmod]

end Bits

end PatternSweep
