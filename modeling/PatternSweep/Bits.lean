/-!
# Bits packed into words

A list of 64-bit words is read as one sequence of bits, the lowest bit of the first word first;
past the last word every bit is off. `get` reads a bit, and every operation has one equation
that says what it does to `get`: `get_union`, `get_inter`, `get_diff`, `get_shift`, `get_keep`,
`get_fit`, `get_turnOn`, `get_turnOnAll`, `get_turnOff`, `get_pick`. Two lists of one length with
the same bits are equal (`eq_of_get`).
-/

namespace PatternSweep.Bits

/-- Bit `i` of a word, the lowest being bit `0`. -/
def bit (w : UInt64) (i : Nat) : Bool := i < 64 && w >>> UInt64.ofNat i &&& 1 == 1

/-- The word whose lowest `n` bits are on. -/
def lowOnes (n : Nat) : UInt64 := UInt64.ofNat ((1 <<< min n 64) - 1)

/-- The word whose only bit is bit `i`, or none past the last. -/
def single (i : Nat) : UInt64 := if i < 64 then 1 <<< UInt64.ofNat i else 0

/-- The bits of a word are those of the bit vector it holds. -/
theorem bit_eq (w : UInt64) (i : Nat) : bit w i = w.toBitVec.getLsbD i := by
  by_cases h : i < 64
  · have hi : i % 64 = i := Nat.mod_eq_of_lt h
    have lowest (b : BitVec 64) : (b &&& 1#64 = 1#64) ↔ b.getLsbD 0 = true := by
      constructor
      · intro e
        simpa using congrArg (BitVec.getLsbD · 0) e
      · intro e
        refine BitVec.eq_of_getLsbD_eq fun j _ => ?_
        cases j with
        | zero => simpa using e
        | succ j => simp
    rw [bit, decide_eq_true h, Bool.true_and, Bool.eq_iff_iff, beq_iff_eq, ← UInt64.toBitVec_inj]
    simp [hi, lowest]
  · rw [BitVec.getLsbD_of_ge _ _ (Nat.not_lt.1 h), bit, decide_eq_false h, Bool.false_and]

theorem bit_eq_false_of_le {w : UInt64} {i : Nat} (h : 64 ≤ i) : bit w i = false := by
  rw [bit_eq, BitVec.getLsbD_of_ge _ _ h]

@[simp] theorem bit_zero (i : Nat) : bit 0 i = false := by
  simp [bit_eq]

@[simp] theorem bit_or (v w : UInt64) (i : Nat) : bit (v ||| w) i = (bit v i || bit w i) := by
  simp [bit_eq]

@[simp] theorem bit_and (v w : UInt64) (i : Nat) : bit (v &&& w) i = (bit v i && bit w i) := by
  simp [bit_eq]

theorem bit_not (w : UInt64) (i : Nat) : bit (~~~w) i = (decide (i < 64) && !bit w i) := by
  simp [bit_eq]

theorem bit_ofNat (n i : Nat) : bit (UInt64.ofNat n) i = (decide (i < 64) && n.testBit i) := by
  simp [bit_eq, UInt64.toBitVec_ofNat', BitVec.getLsbD_ofNat]

@[simp] theorem bit_lowOnes (n i : Nat) : bit (lowOnes n) i = decide (i < 64 ∧ i < n) := by
  rw [lowOnes, bit_ofNat, Nat.one_shiftLeft, Nat.testBit_two_pow_sub_one, ← Bool.decide_and]
  exact decide_eq_decide.2 (by omega)

@[simp] theorem bit_single (n i : Nat) : bit (single n) i = decide (i < 64 ∧ n = i) := by
  by_cases hn : n < 64
  · have : (decide (i < 64) && !decide (i < n) && decide (i - n = 0)) =
        decide (i < 64 ∧ n = i) := by
      rw [← decide_not, ← Bool.decide_and, ← Bool.decide_and]
      exact decide_eq_decide.2 (by omega)
    simpa [single, hn, bit_eq, Nat.mod_eq_of_lt hn] using this
  · have : ¬(i < 64 ∧ n = i) := by omega
    simp [single, hn, this]

theorem bit_shiftLeft_one (w : UInt64) (i : Nat) :
    bit (w <<< 1) i = (decide (i < 64) && decide (i ≠ 0) && bit w (i - 1)) := by
  by_cases h : i < 64 <;> by_cases h0 : i = 0 <;>
    simp [bit_eq, UInt64.toBitVec_shiftLeft, -BitVec.getLsbD_eq_getElem, h, h0]

theorem bit_shiftRight_last (w : UInt64) (i : Nat) :
    bit (w >>> 63) i = (decide (i = 0) && bit w 63) := by
  by_cases h : i = 0
  · subst h
    simp [bit_eq, UInt64.toBitVec_shiftRight]
  · have : 64 ≤ 63 + i := by omega
    simp [bit_eq, UInt64.toBitVec_shiftRight, h, BitVec.getLsbD_of_ge _ _ this]

/-- Two words with the same bits are equal. -/
theorem word_eq_of_bit {v w : UInt64} (h : ∀ i, i < 64 → bit v i = bit w i) : v = w :=
  UInt64.toBitVec_inj.1 (BitVec.eq_of_getLsbD_eq fun i hi => by rw [← bit_eq, ← bit_eq, h i hi])

theorem eq_zero_iff {w : UInt64} : w = 0 ↔ ∀ i, bit w i = false :=
  ⟨fun h i => by simp [h], fun h => word_eq_of_bit fun i _ => by simp [h i]⟩

/-! ### Sequences of words -/

/-- The number of words that hold `n` bits. -/
def wordCount (n : Nat) : Nat := (n + 63) / 64

/-- Bit `p` of a sequence of words. -/
def get : List UInt64 → Nat → Bool
  | [], _ => false
  | w :: ws, p => if p < 64 then bit w p else get ws (p - 64)

@[simp] theorem get_nil (p : Nat) : get [] p = false := rfl

theorem get_cons (w : UInt64) (ws : List UInt64) (p : Nat) :
    get (w :: ws) p = if p < 64 then bit w p else get ws (p - 64) := rfl

/-- Sequences of one length with the same bits are equal. -/
theorem eq_of_get {vs ws : List UInt64} (hl : vs.length = ws.length)
    (h : ∀ p, get vs p = get ws p) : vs = ws := by
  induction vs generalizing ws with
  | nil => exact (List.eq_nil_of_length_eq_zero hl.symm).symm
  | cons v vs ih =>
    cases ws with
    | nil => simp at hl
    | cons w ws =>
      have hd : v = w := word_eq_of_bit fun i hi => by simpa [get_cons, hi] using h i
      have tl : vs = ws := ih (by simpa using hl) fun p => by
        simpa [get_cons, show ¬p + 64 < 64 by omega] using h (p + 64)
      rw [hd, tl]

/-- Every bit that is on in either sequence. -/
def union : List UInt64 → List UInt64 → List UInt64
  | [], ws => ws
  | v :: vs, [] => v :: vs
  | v :: vs, w :: ws => (v ||| w) :: union vs ws

/-- Every bit that is on in both sequences. -/
def inter : List UInt64 → List UInt64 → List UInt64
  | v :: vs, w :: ws => (v &&& w) :: inter vs ws
  | _, _ => []

/-- Every bit that is on in the first sequence only. -/
def diff : List UInt64 → List UInt64 → List UInt64
  | [], _ => []
  | v :: vs, [] => v :: vs
  | v :: vs, w :: ws => (v &&& ~~~w) :: diff vs ws

/-- Every bit moved one place up; the bit that leaves a word enters the next one. -/
def shift (carry : UInt64) : List UInt64 → List UInt64
  | [] => []
  | w :: ws => (w <<< 1 ||| carry) :: shift (w >>> 63) ws

/-- The bits below `n`, the others turned off. -/
def keep (n : Nat) : List UInt64 → List UInt64
  | [] => []
  | w :: ws => (if 64 ≤ n then w else w &&& lowOnes n) :: keep (n - 64) ws

/-- The first `k` words, with words of zeros where there are fewer. -/
def fit : Nat → List UInt64 → List UInt64
  | 0, _ => []
  | k + 1, [] => 0 :: fit k []
  | k + 1, w :: ws => w :: fit k ws

/-- Bit `p` turned on, within the words there are. -/
def turnOn : List UInt64 → Nat → List UInt64
  | [], _ => []
  | w :: ws, p => if p < 64 then (w ||| single p) :: ws else w :: turnOn ws (p - 64)

/-- Every bit of a list turned on, within the words there are. -/
def turnOnAll (ws : List UInt64) (ps : List Nat) : List UInt64 := ps.foldl turnOn ws

/-- Bit `p` turned off. -/
def turnOff : List UInt64 → Nat → List UInt64
  | [], _ => []
  | w :: ws, p => if p < 64 then (w &&& ~~~single p) :: ws else w :: turnOff ws (p - 64)

/-- The lowest `n` bits of a word whose places, counted from `base`, satisfy `q`. -/
def pickWord (q : Nat → Bool) (base : Nat) (w : UInt64) : Nat → UInt64
  | 0 => 0
  | n + 1 =>
    if bit w n && q (base + n) then single n ||| pickWord q base w n else pickWord q base w n

/-- The bits whose places, counted from `base`, satisfy `q`. -/
def pick (q : Nat → Bool) (base : Nat) : List UInt64 → List UInt64
  | [] => []
  | w :: ws => (if w = 0 then 0 else pickWord q base w 64) :: pick q (base + 64) ws

/-- Whether a union with the second sequence turns a bit of the first one on. -/
def gains : List UInt64 → List UInt64 → Bool
  | v :: vs, w :: ws => (v ||| w) != v || gains vs ws
  | _, _ => false

/-- The places of the bits that are on, in ascending order, counted from `base`. -/
def places (base : Nat) : List UInt64 → List Nat
  | [] => []
  | w :: ws =>
    if w = 0 then places (base + 64) ws
    else ((List.range 64).filter (bit w)).map (base + ·) ++ places (base + 64) ws

/-- The number of bits that are on. -/
def count : List UInt64 → Nat
  | [] => 0
  | w :: ws => (if w = 0 then 0 else (List.range 64).countP (bit w)) + count ws

theorem get_union (vs ws : List UInt64) (p : Nat) :
    get (union vs ws) p = (get vs p || get ws p) := by
  induction vs, ws using union.induct generalizing p with
  | case1 ws => simp [union]
  | case2 v vs => simp [union]
  | case3 v vs w ws ih => by_cases h : p < 64 <;> simp [union, get_cons, h, ih]

theorem get_inter (vs ws : List UInt64) (p : Nat) :
    get (inter vs ws) p = (get vs p && get ws p) := by
  induction vs generalizing ws p with
  | nil => simp [inter]
  | cons v vs ih =>
    cases ws with
    | nil => simp [inter]
    | cons w ws => by_cases h : p < 64 <;> simp [inter, get_cons, h, ih]

theorem get_diff (vs ws : List UInt64) (p : Nat) :
    get (diff vs ws) p = (get vs p && !get ws p) := by
  induction vs, ws using diff.induct generalizing p with
  | case1 ws => simp [diff]
  | case2 v vs => simp [diff]
  | case3 v vs w ws ih => by_cases h : p < 64 <;> simp [diff, get_cons, h, ih, bit_not]

theorem get_shift (carry : UInt64) (ws : List UInt64) (p : Nat)
    (hc : ∀ i, bit carry i = (decide (i = 0) && bit carry 0)) :
    get (shift carry ws) p =
      (decide (p < 64 * ws.length) && if p = 0 then bit carry 0 else get ws (p - 1)) := by
  induction ws generalizing carry p with
  | nil => simp [shift]
  | cons w ws ih =>
    have hw : ∀ i, bit (w >>> 63) i = (decide (i = 0) && bit (w >>> 63) 0) := fun i => by
      simp [bit_shiftRight_last]
    by_cases h : p < 64
    · have hl : p < 64 * (ws.length + 1) := by omega
      by_cases h0 : p = 0
      · simp [shift, get_cons, h0, bit_shiftLeft_one]
      · have h1 : p - 1 < 64 := by omega
        rw [shift, get_cons, if_pos h, bit_or, bit_shiftLeft_one, hc p]
        simp [get_cons, h, h0, h1, hl]
    · have h0 : p ≠ 0 := by omega
      rw [shift, get_cons, if_neg h, ih _ _ hw, bit_shiftRight_last]
      by_cases h64 : p = 64
      · subst h64
        cases ws <;> simp [get_cons]
      · have h1 : ¬p - 1 < 64 := by omega
        have h2 : p - 64 ≠ 0 := by omega
        have h3 : p - 64 - 1 = p - 1 - 64 := by omega
        have h4 : (p - 64 < 64 * ws.length) ↔ p < 64 * (ws.length + 1) := by omega
        simp [get_cons, h0, h1, h2, h3, h4]

theorem get_keep (n : Nat) (ws : List UInt64) (p : Nat) :
    get (keep n ws) p = (decide (p < n) && get ws p) := by
  induction ws generalizing n p with
  | nil => simp [keep]
  | cons w ws ih =>
    by_cases h : p < 64
    · by_cases hn : 64 ≤ n
      · have : p < n := by omega
        simp [keep, get_cons, h, hn, this]
      · simp [keep, get_cons, h, hn, Bool.and_comm]
    · have : (p - 64 < n - 64) ↔ p < n := by omega
      simp [keep, get_cons, h, ih, this]

theorem get_fit (k : Nat) (ws : List UInt64) (p : Nat) :
    get (fit k ws) p = (decide (p < 64 * k) && get ws p) := by
  induction k generalizing ws p with
  | zero => simp [fit]
  | succ k ih =>
    have hk : (p - 64 < 64 * k ∧ ¬p < 64) ↔ (p < 64 * (k + 1) ∧ ¬p < 64) := by omega
    by_cases h : p < 64
    · have : p < 64 * (k + 1) := by omega
      cases ws <;> simp [fit, get_cons, h, this]
    · have : (p - 64 < 64 * k) ↔ p < 64 * (k + 1) := by omega
      cases ws <;> simp [fit, get_cons, h, ih, this]

theorem get_turnOn (ws : List UInt64) (q p : Nat) :
    get (turnOn ws q) p = (get ws p || decide (p = q ∧ p < 64 * ws.length)) := by
  induction ws generalizing q p with
  | nil => simp [turnOn]
  | cons w ws ih =>
    by_cases hq : q < 64 <;> by_cases hp : p < 64
    · have : q = p ↔ (p = q ∧ p < 64 * (ws.length + 1)) := by omega
      simp [turnOn, get_cons, hq, hp, -Bool.decide_and, this]
    · have : ¬(p = q ∧ p < 64 * (ws.length + 1)) := by omega
      simp [turnOn, get_cons, hq, hp, this]
    · have : ¬(p = q ∧ p < 64 * (ws.length + 1)) := by omega
      simp [turnOn, get_cons, hq, hp, this]
    · have : (p - 64 = q - 64 ∧ p - 64 < 64 * ws.length) ↔
          (p = q ∧ p < 64 * (ws.length + 1)) := by omega
      simp [turnOn, get_cons, hq, hp, ih, this]

theorem get_turnOff (ws : List UInt64) (q p : Nat) :
    get (turnOff ws q) p = (get ws p && decide (p ≠ q)) := by
  induction ws generalizing q p with
  | nil => simp [turnOff]
  | cons w ws ih =>
    by_cases hq : q < 64 <;> by_cases hp : p < 64
    · by_cases h : p = q
      · subst h; simp [turnOff, get_cons, hp, bit_not]
      · have : q ≠ p := fun e => h e.symm
        simp [turnOff, get_cons, hq, hp, bit_not, h, this]
    · have : p ≠ q := by omega
      simp [turnOff, get_cons, hq, hp, this]
    · have : p ≠ q := by omega
      simp [turnOff, get_cons, hq, hp, this]
    · have : (p - 64 = q - 64) ↔ p = q := by omega
      simp [turnOff, get_cons, hq, hp, ih, this]

@[simp] theorem length_turnOn (ws : List UInt64) (q : Nat) :
    (turnOn ws q).length = ws.length := by
  induction ws generalizing q with
  | nil => rfl
  | cons w ws ih => by_cases h : q < 64 <;> simp [turnOn, h, ih]

theorem get_turnOnAll (ws : List UInt64) (ps : List Nat) (p : Nat) :
    get (turnOnAll ws ps) p = (get ws p || decide (p ∈ ps ∧ p < 64 * ws.length)) := by
  induction ps generalizing ws with
  | nil => simp [turnOnAll]
  | cons q ps ih =>
    rw [turnOnAll, List.foldl_cons, ← turnOnAll, ih, get_turnOn, length_turnOn]
    by_cases h : p < 64 * ws.length <;> simp [h, Bool.or_assoc]

theorem bit_pickWord (q : Nat → Bool) (base : Nat) (w : UInt64) (n i : Nat) :
    bit (pickWord q base w n) i = (decide (i < n) && (bit w i && q (base + i))) := by
  induction n with
  | zero => simp [pickWord]
  | succ n ih =>
    have step : bit (pickWord q base w (n + 1)) i =
        (bit (pickWord q base w n) i ||
          (decide (i < 64 ∧ n = i) && (bit w n && q (base + n)))) := by
      cases hq : bit w n && q (base + n) with
      | true => simp only [pickWord, hq, if_true, bit_or, bit_single, Bool.and_true, Bool.or_comm]
      | false => simp [pickWord, hq]
    rw [step, ih]
    by_cases h : n = i
    · subst h
      by_cases h64 : n < 64
      · simp [h64]
      · simp [h64, bit_eq_false_of_le (Nat.not_lt.1 h64)]
    · have : i < n + 1 ↔ i < n := by omega
      simp [h, this]

theorem get_pick (q : Nat → Bool) (base : Nat) (ws : List UInt64) (p : Nat) :
    get (pick q base ws) p = (get ws p && q (base + p)) := by
  induction ws generalizing base p with
  | nil => simp [pick]
  | cons w ws ih =>
    by_cases h : p < 64
    · by_cases hw : w = 0 <;> simp [pick, get_cons, h, hw, bit_pickWord]
    · have : base + 64 + (p - 64) = base + p := by omega
      simp [pick, get_cons, h, ih, this]

@[simp] theorem length_fit (k : Nat) (ws : List UInt64) : (fit k ws).length = k := by
  induction k generalizing ws with
  | zero => rfl
  | succ k ih => cases ws <;> simp [fit, ih]

@[simp] theorem length_keep (n : Nat) (ws : List UInt64) : (keep n ws).length = ws.length := by
  induction ws generalizing n with
  | nil => rfl
  | cons w ws ih => simp [keep, ih]

/-- All words are zero exactly when all bits are off. -/
theorem all_eq_zero_iff {ws : List UInt64} : ws.all (· = 0) = true ↔ ∀ p, get ws p = false := by
  induction ws with
  | nil => simp
  | cons w ws ih =>
    simp only [List.all_cons, Bool.and_eq_true, decide_eq_true_eq, ih, eq_zero_iff]
    constructor
    · rintro ⟨hw, hs⟩ p
      by_cases h : p < 64 <;> simp [get_cons, h, hw, hs]
    · intro h
      refine ⟨fun i => ?_, fun p => ?_⟩
      · by_cases hi : i < 64
        · simpa [get_cons, hi] using h i
        · exact bit_eq_false_of_le (by omega)
      · simpa [get_cons, show ¬p + 64 < 64 by omega] using h (p + 64)

theorem mem_places {base p : Nat} {ws : List UInt64} :
    p ∈ places base ws ↔ base ≤ p ∧ get ws (p - base) = true := by
  induction ws generalizing base with
  | nil => simp [places]
  | cons w ws ih =>
    have step : (base + 64 ≤ p ∧ get ws (p - (base + 64)) = true) ↔
        (base ≤ p ∧ ¬p - base < 64 ∧ get ws (p - base - 64) = true) := by
      constructor
      · rintro ⟨h, hg⟩
        exact ⟨by omega, by omega, by rwa [Nat.sub_sub]⟩
      · rintro ⟨h, h64, hg⟩
        exact ⟨by omega, by rwa [Nat.sub_sub] at hg⟩
    have head : (∃ i, (i < 64 ∧ bit w i = true) ∧ base + i = p) ↔
        (base ≤ p ∧ p - base < 64 ∧ bit w (p - base) = true) := by
      constructor
      · rintro ⟨i, ⟨hi, hb⟩, rfl⟩
        exact ⟨by omega, by omega, by rwa [Nat.add_sub_cancel_left]⟩
      · rintro ⟨h, h64, hb⟩
        exact ⟨p - base, ⟨h64, hb⟩, by omega⟩
    by_cases hw : w = 0
    · by_cases h64 : p - base < 64 <;> simp [places, hw, ih, get_cons, step, h64]
    · simp only [places, hw, if_false, List.mem_append, List.mem_map, List.mem_filter,
        List.mem_range, ih, step, head, get_cons]
      by_cases h64 : p - base < 64 <;> simp [h64]

theorem pairwise_places (base : Nat) (ws : List UInt64) :
    (places base ws).Pairwise (· < ·) := by
  induction ws generalizing base with
  | nil => exact List.Pairwise.nil
  | cons w ws ih =>
    by_cases hw : w = 0
    · simpa [places, hw] using ih (base + 64)
    · rw [places, if_neg hw]
      refine List.pairwise_append.2 ⟨?_, ih _, ?_⟩
      · exact ((List.pairwise_lt_range (n := 64)).filter _).map _ fun _ _ h => by omega
      · intro a ha b hb
        obtain ⟨i, hi, rfl⟩ := List.mem_map.1 ha
        have := List.mem_range.1 (List.mem_filter.1 hi).1
        have := (mem_places.1 hb).1
        omega

theorem count_eq_length_places (base : Nat) (ws : List UInt64) :
    count ws = (places base ws).length := by
  induction ws generalizing base with
  | nil => rfl
  | cons w ws ih =>
    by_cases hw : w = 0
    · simp [count, places, hw, ih (base + 64)]
    · simp [count, places, hw, ih (base + 64), List.countP_eq_length_filter]

end PatternSweep.Bits
