import Mathlib
import PatternSweep.Proofs.FiniteOffsets
import PatternSweep.Proofs.Masks

/-!
# The masks of an alphabet

The occurrences of an alphabet in a text hold one mask for each of its characters, with exactly the
offsets at which that character stands. Masks can also be filled in place: in one walk over the text
each offset is put into the mask of its character, or an ASCII text is searched for the byte of each
mask. Both ways come to the same masks (`masks_eq_walked`, `masks_eq_searched`). From the masks
follow the answer for a set of characters and the numbers of characters and offsets
(`masks_hold_exactly_their_occurrences`).
-/

namespace PatternSweep

variable {text alphabet : List Char} {c : Char} {p n : Nat}

/-- What a search for bytes finds is what a walk over the characters finds. -/
theorem offsetsOfChar_eq : offsetsOfChar text c = offsetsWhere text (· = c) := by
  refine OffsetSet.ext_mem size_offsetsOfChar fun p => ?_
  rw [mem_offsetsOfChar, mem_offsetsWhere]
  simp

namespace Occurrences

/-! ### Two ways to fill the masks -/

/-- A mask without offsets for each character of the alphabet. -/
def blank (text alphabet : List Char) : List (Char × OffsetSet) :=
  alphabet.eraseDups.map fun c => (c, .empty (text.length + 1))

/-- The masks after a walk over characters, the first of which stands at the offset `p`: each offset
is put into the mask of its character, if there is one. -/
def walked : List Char → Nat → List (Char × OffsetSet) → List (Char × OffsetSet)
  | [], _, masks => masks
  | c :: text, p, masks =>
    walked text (p + 1) (masks.map fun r => if r.1 = c then (r.1, r.2.insert p) else r)

/-- The masks after a search of bytes: each place of the byte of an ASCII character is put into its
mask. -/
def searched (bytes : List UInt8) (masks : List (Char × OffsetSet)) : List (Char × OffsetSet) :=
  masks.map fun r =>
    if isAscii r.1 then (r.1, (bytePlaces bytes r.1.val.toUInt8).foldl .insert r.2) else r

/-- A walk fills each mask with the places of its character. -/
theorem walked_eq_map (text : List Char) (p : Nat) (masks : List (Char × OffsetSet)) :
    walked text p masks = masks.map fun r =>
      (r.1, ((text.zipIdx p).filterMap fun x => if x.1 = r.1 then some x.2 else none).foldl
        .insert r.2) := by
  induction text generalizing p masks with
  | nil => simp [walked]
  | cons c text ih =>
    rw [walked, ih, List.map_map]
    refine List.map_congr_left fun r _ => ?_
    by_cases hr : r.1 = c
    · simp [hr]
    · simp [hr, Ne.symm hr]

/-- One walk over the text fills all masks. -/
theorem masks_eq_walked (text alphabet : List Char) :
    (build text alphabet).masks = walked text 0 (blank text alphabet) := by
  rw [walked_eq_map, blank, List.map_map]
  refine List.map_congr_left fun c _ => ?_
  simp only [Function.comp_apply, OffsetSet.foldl_insert_empty, offsetsOfChar_eq, offsetsWhere,
    decide_eq_true_eq]

/-- In a text of ASCII characters, one search for each byte fills its mask. -/
theorem masks_eq_searched (h : text.all isAscii = true) :
    (build text alphabet).masks = searched (textBytes text) (blank text alphabet) := by
  rw [searched, blank, List.map_map]
  refine List.map_congr_left fun c _ => ?_
  simp only [Function.comp_apply, offsetsOfChar, h, if_true]
  by_cases hc : isAscii c = true
  · simp only [hc, if_true, OffsetSet.foldl_insert_empty]
  · simp only [hc, if_false, Bool.false_eq_true, ← OffsetSet.foldl_insert_empty, List.foldl_nil]

/-! ### What the masks answer -/

theorem offsetsOf_build_eq :
    (build text alphabet).offsetsOf c =
      if c ∈ alphabet then some (offsetsOfChar text c) else none := by
  have hkeys : ∀ mask, (c, mask) ∈ (build text alphabet).masks ↔
      c ∈ alphabet ∧ mask = offsetsOfChar text c := by
    intro mask
    simp only [build, List.mem_map, List.mem_eraseDups, Prod.mk.injEq]
    constructor
    · rintro ⟨d, hd, rfl, rfl⟩
      exact ⟨hd, rfl⟩
    · rintro ⟨hc, rfl⟩
      exact ⟨c, hc, rfl, rfl⟩
  have hpairs : (build text alphabet).masks.Pairwise fun a b => a.1 ≠ b.1 :=
    List.pairwise_map.2 (nodup_eraseDups alphabet)
  refine Option.ext fun mask => ?_
  rw [offsetsOf, lookup_eq_some_iff_mem hpairs, hkeys]
  split <;> simp_all [eq_comm]

theorem size_foldl_union {q : Char → Bool} (masks : List (Char × OffsetSet)) (all : OffsetSet) :
    (masks.foldl (fun all r => if q r.1 then all.union r.2 else all) all).size = all.size := by
  induction masks generalizing all with
  | nil => rfl
  | cons r masks ih =>
    rw [List.foldl_cons, ih]
    split <;> rfl

theorem offsetsSuchThat_of_coversText {o : Occurrences} (q : Char → Bool)
    (h : o.coversText = true) :
    o.offsetsSuchThat q = some (o.masks.foldl (fun all r => if q r.1 then all.union r.2 else all)
      (.empty (o.text.length + 1))) := by
  rw [offsetsSuchThat, if_pos h]

theorem coversText_build_iff :
    (build text alphabet).coversText = true ↔ ∀ c ∈ text, c ∈ alphabet := by
  simp [build]

theorem alphabetSize_build : (build text alphabet).alphabetSize = alphabet.toFinset.card := by
  have hletters : alphabet.eraseDups.toFinset = alphabet.toFinset := by
    ext c
    simp
  rw [alphabetSize, build, List.length_map, ← hletters,
    List.toFinset_card_of_nodup (nodup_eraseDups alphabet)]

/-- The masks of different characters share no offset, so together they hold as many offsets as the
text has characters of the alphabet. -/
theorem card_build :
    (build text alphabet).card =
      {i ∈ Finset.range text.length | ∃ c ∈ alphabet, text[i]? = some c}.card := by
  have hsum : ∀ (masks : List (Char × OffsetSet)) (n : Nat),
      masks.foldl (fun n r => n + r.2.card) n = n + (masks.map fun r => r.2.card).sum := by
    intro masks
    induction masks with
    | nil => simp
    | cons r masks ih => intro n; simp [ih, Nat.add_assoc]
  have hdisjoint : (alphabet.eraseDups.toFinset : Set Char).PairwiseDisjoint
      fun c => (offsetsOfChar text c).members := by
    intro c _ d _ hcd
    refine Finset.disjoint_left.2 fun i hi hi' => hcd ?_
    rw [OffsetSet.mem_members, mem_offsetsOfChar] at hi hi'
    exact Option.some.inj (hi.symm.trans hi')
  have hunion : {i ∈ Finset.range text.length | ∃ c ∈ alphabet, text[i]? = some c} =
      alphabet.eraseDups.toFinset.biUnion fun c => (offsetsOfChar text c).members := by
    ext i
    simp only [Finset.mem_filter, Finset.mem_range, Finset.mem_biUnion, List.mem_toFinset,
      List.mem_eraseDups, OffsetSet.mem_members, mem_offsetsOfChar]
    refine and_iff_right_of_imp ?_
    rintro ⟨c, -, hc⟩
    exact (List.getElem?_eq_some_iff.1 hc).1
  rw [hunion, Finset.card_biUnion hdisjoint, List.sum_toFinset _ (nodup_eraseDups alphabet), card,
    hsum, Nat.zero_add, build, List.map_map]
  exact congrArg List.sum (List.map_congr_left fun c _ => OffsetSet.card_eq_card_members _)

end Occurrences

/-- **Masks hold exactly their occurrences.** Whatever the text and the alphabet are, a character of
the alphabet has the mask of exactly the offsets at which it stands, and another one has none; the
masks are those that one walk over the text fills, and for an ASCII text those that one search for
each byte fills. The alphabet covers the text if every character of the text is in it, and then the
mask for a set of characters holds exactly the offsets of these; else there is no such mask. The
counts are those of the different characters of the alphabet and of the offsets at which one of them
stands. -/
theorem masks_hold_exactly_their_occurrences (text alphabet : List Char) :
    let o : Occurrences := .build text alphabet
    (∀ c ∈ alphabet, ∃ mask, o.offsetsOf c = some mask ∧ mask.size = text.length + 1 ∧
        ∀ i, i ∈ mask ↔ text[i]? = some c) ∧
      (∀ c, c ∉ alphabet → o.offsetsOf c = none) ∧
      o.masks = Occurrences.walked text 0 (Occurrences.blank text alphabet) ∧
      (text.all isAscii = true →
        o.masks = Occurrences.searched (textBytes text) (Occurrences.blank text alphabet)) ∧
      (o.coversText = true ↔ ∀ c ∈ text, c ∈ alphabet) ∧
      (∀ q : Char → Bool, o.coversText = true → ∃ mask, o.offsetsSuchThat q = some mask ∧
        mask.size = text.length + 1 ∧ ∀ i, i ∈ mask ↔ ∃ c, text[i]? = some c ∧ q c = true) ∧
      (∀ q : Char → Bool, o.coversText = false → o.offsetsSuchThat q = none) ∧
      o.text = text ∧
      o.alphabetSize = alphabet.toFinset.card ∧
      o.card = {i ∈ Finset.range text.length | ∃ c ∈ alphabet, text[i]? = some c}.card := by
  intro o
  refine ⟨fun c hc => ?_, fun c hc => ?_, Occurrences.masks_eq_walked text alphabet,
    Occurrences.masks_eq_searched, Occurrences.coversText_build_iff, fun q hcovers => ?_,
    fun q hcovers => ?_, rfl, Occurrences.alphabetSize_build, Occurrences.card_build⟩
  · refine ⟨offsetsOfChar text c, ?_, size_offsetsOfChar, fun i => mem_offsetsOfChar⟩
    rw [Occurrences.offsetsOf_build_eq, if_pos hc]
  · rw [Occurrences.offsetsOf_build_eq, if_neg hc]
  · have hsome := Occurrences.offsetsSuchThat_of_coversText q hcovers
    exact ⟨_, hsome, Occurrences.size_foldl_union _ _,
      fun i => Occurrences.mem_offsetsSuchThat_build hsome⟩
  · simp [Occurrences.offsetsSuchThat, hcovers]

/-- The characters of the alphabet stand in masks of their own whether the text is ASCII or not, and
one that the text does not have keeps an empty mask. -/
example : (Occurrences.build ['a', 'é', 'a'] ['a', 'é', 'z', 'a']).masks.map
    (fun r => (r.1, r.2.toList)) = [('a', [0, 2]), ('é', [1]), ('z', [])] := by decide

end PatternSweep
