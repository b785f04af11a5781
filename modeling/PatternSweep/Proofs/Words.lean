import PatternSweep.Proofs.EditWalks
import PatternSweep.Proofs.Levenshtein

/-!
# The words of a pattern

`p.Word w` says that the atoms of `w` one after the other are one way to spell out the pattern `p`,
with a branch chosen in each alternation and a permitted count in each repetition. Without
lookaheads a walk of a pattern is a walk through the atoms of one of its words
(`Pattern.walks_iff_word`).

A walk through the atoms of a word, with the characters that are passed over in the end, aligns the
word with the piece of text that it covers. It may cost more than the alignment, for it may take a
substitution where the atom takes the character, but every alignment is walked at its cost
(`Pattern.aligned_of_spells`, `Pattern.spells_of_aligned`).
-/

namespace PatternSweep

/-! ### Pieces of a text -/

section

variable {text : List Char} {i e n : Nat} {w : List Atom} {c : Char} {s : List Char}

/-- The characters from the offset `i` up to the offset `e`. -/
def piece (text : List Char) (i e : Nat) : List Char := (text.take e).drop i

theorem piece_eq_nil (h : e ≤ i) : piece text i e = [] :=
  List.drop_eq_nil_of_le (Nat.le_trans (List.length_take_le _ _) h)

theorem piece_eq_cons (hc : text[i]? = some c) (hi : i < e) :
    piece text i e = c :: piece text (i + 1) e := by
  unfold piece
  rw [List.drop_eq_getElem?_toList_append, List.getElem?_take_of_lt hi, hc]
  rfl

theorem of_piece_eq_nil (h : piece text i e = []) (he : e ≤ text.length) : e ≤ i := by
  have hlength : (text.take e).length ≤ i := List.drop_eq_nil_iff.1 h
  rwa [List.length_take_of_le he] at hlength

theorem of_piece_eq_cons (h : piece text i e = c :: s) :
    i < e ∧ text[i]? = some c ∧ s = piece text (i + 1) e := by
  have hhead : (text.take e)[i]? = some c := by
    rw [← List.head?_drop, show (text.take e).drop i = c :: s from h]
    rfl
  rw [List.getElem?_take] at hhead
  split at hhead
  next hi =>
    rw [piece_eq_cons hhead hi] at h
    exact ⟨hi, hhead, (List.cons.inj h).2.symm⟩
  next => cases hhead

/-- Characters before the piece may be passed over at the cost of an edit each. -/
theorem aligned_piece_of_skip {k : Nat} (h : Aligned w (piece text (i + k) e) n) (hk : i + k ≤ e)
    (he : e ≤ text.length) : Aligned w (piece text i e) (n + k) := by
  induction k generalizing i with
  | zero => exact h
  | succ k ih =>
    obtain ⟨c, hc⟩ : ∃ c, text[i]? = some c := ⟨_, List.getElem?_eq_getElem (by omega)⟩
    rw [piece_eq_cons hc (by omega)]
    rw [← Nat.add_assoc, Nat.add_right_comm] at h
    exact .skipChar c (ih h (by omega))

end

/-! ### Words -/

namespace Pattern

mutual

/-- The atoms spell out the pattern; a lookahead is spelled out by its body. -/
def Word : Pattern → List Atom → Prop
  | .atom a => fun w => w = [a]
  | .seq ps => WordAll ps
  | .alt ps => WordAny ps
  | .repeated e min max => fun w =>
    ∃ ws : List (List Atom), Permits min max ws.length ∧ (∀ u ∈ ws, Word e u) ∧ w = ws.flatten
  | .ahead _ _ p => Word p

/-- The atoms spell out the patterns one after the other. -/
def WordAll : List Pattern → List Atom → Prop
  | [] => fun w => w = []
  | p :: ps => fun w => ∃ u v, Word p u ∧ WordAll ps v ∧ w = u ++ v

/-- The atoms spell out one of the patterns. -/
def WordAny : List Pattern → List Atom → Prop
  | [] => fun _ => False
  | p :: ps => fun w => Word p w ∨ WordAny ps w

end

section

variable {text : List Char} {most : Nat} {x y z : Nat × Nat} {p : Pattern} {ps qs : List Pattern}
  {w u v : List Atom}

theorem haveLookahead_eq_false_iff :
    haveLookahead ps = false ↔ ∀ p ∈ ps, p.hasLookahead = false := by
  induction ps with
  | nil => simp [haveLookahead]
  | cons p ps ih => simp [haveLookahead, ih]

theorem walksAll_append : WalksAll text most (ps ++ qs) x z ↔
    ∃ y, WalksAll text most ps x y ∧ WalksAll text most qs y z := by
  induction ps generalizing x with
  | nil => exact ⟨fun h => ⟨x, rfl, h⟩, fun ⟨_, hxy, h⟩ => hxy ▸ h⟩
  | cons p ps ih =>
    simp only [List.cons_append, WalksAll, ih]
    constructor
    · rintro ⟨b, hp, y, hps, hqs⟩
      exact ⟨y, ⟨b, hp, hps⟩, hqs⟩
    · intro hx
      obtain ⟨y, ⟨b, hp, hps⟩, hqs⟩ := hx
      exact ⟨b, hp, y, hps, hqs⟩

/-- A walk through atoms. -/
def WalksWord (text : List Char) (most : Nat) (w : List Atom) : Nat × Nat → Nat × Nat → Prop :=
  WalksAll text most (w.map atom)

theorem walksWord_append : WalksWord text most (u ++ v) x z ↔
    ∃ y, WalksWord text most u x y ∧ WalksWord text most v y z := by
  unfold WalksWord
  rw [List.map_append, walksAll_append]

/-- As many words as a repetition takes rounds are walked one after the other. -/
theorem iter_walks_iff {k : Nat}
    (h : ∀ x y, p.Walks text most x y ↔ ∃ w, p.Word w ∧ WalksWord text most w x y) :
    Iter (p.Walks text most) k x y ↔ ∃ ws : List (List Atom),
      ws.length = k ∧ (∀ u ∈ ws, p.Word u) ∧ WalksWord text most ws.flatten x y := by
  induction k generalizing x with
  | zero =>
    constructor
    · rintro rfl
      exact ⟨[], rfl, by simp, rfl⟩
    · rintro ⟨ws, hlength, -, hwalk⟩
      obtain rfl := List.eq_nil_of_length_eq_zero hlength
      exact hwalk
  | succ k ih =>
    rw [iter_succ']
    constructor
    · rintro ⟨b, hfirst, hrest⟩
      obtain ⟨u, hu, hwalk⟩ := (h x b).1 hfirst
      obtain ⟨ws, rfl, hws, hwalks⟩ := ih.1 hrest
      refine ⟨u :: ws, rfl, List.forall_mem_cons.2 ⟨hu, hws⟩, ?_⟩
      exact walksWord_append.2 ⟨b, hwalk, hwalks⟩
    · rintro ⟨ws, hlength, hws, hwalk⟩
      -- the first word is walked in the first round
      obtain ⟨u, ws, rfl⟩ := List.exists_cons_of_length_eq_add_one hlength
      obtain ⟨hu, hws⟩ := List.forall_mem_cons.1 hws
      obtain ⟨b, hfirst, hrest⟩ := walksWord_append.1 hwalk
      refine ⟨b, (h x b).2 ⟨u, hu, hfirst⟩, ih.2 ⟨ws, Nat.succ.inj hlength, hws, hrest⟩⟩

/-- **Without lookaheads the walks of a pattern are those through its words.** -/
theorem walks_iff_word (hp : p.hasLookahead = false) :
    p.Walks text most x y ↔ ∃ w, p.Word w ∧ WalksWord text most w x y := by
  induction p using Pattern.induct generalizing x y with
  | atom a =>
    unfold Word
    constructor
    · exact fun h => ⟨[a], rfl, y, h, rfl⟩
    · rintro ⟨_, rfl, b, h, rfl⟩
      exact h
  | seq ps ih =>
    have hps := haveLookahead_eq_false_iff.1 hp
    unfold Walks Word
    -- the parts are gone through by an induction of their own
    clear hp
    induction ps generalizing x with
    | nil =>
      constructor
      · exact fun h => ⟨[], rfl, h⟩
      · rintro ⟨w, rfl, h⟩
        exact h
    | cons p ps ihps =>
      obtain ⟨hhead, htail⟩ := List.forall_mem_cons.1 hps
      have hrest := fun x => ihps (x := x) (fun q hq => ih q (List.mem_cons_of_mem _ hq)) htail
      simp only [WalksAll, WordAll, ih p (by simp) hhead, hrest]
      constructor
      · intro hx
        obtain ⟨b, ⟨u, hu, hfirst⟩, v, hv, hlast⟩ := hx
        exact ⟨u ++ v, ⟨u, v, hu, hv, rfl⟩, walksWord_append.2 ⟨b, hfirst, hlast⟩⟩
      · intro hx
        obtain ⟨_, ⟨u, v, hu, hv, rfl⟩, hwalk⟩ := hx
        obtain ⟨b, hfirst, hlast⟩ := walksWord_append.1 hwalk
        exact ⟨b, ⟨u, hu, hfirst⟩, v, hv, hlast⟩
  | alt ps ih =>
    have hps := haveLookahead_eq_false_iff.1 hp
    unfold Walks Word
    clear hp
    induction ps with
    | nil => simp [WalksAny, WordAny]
    | cons p ps ihps =>
      obtain ⟨hhead, htail⟩ := List.forall_mem_cons.1 hps
      have hrest := ihps (fun q hq => ih q (List.mem_cons_of_mem _ hq)) htail
      simp only [WalksAny, WordAny, ih p (by simp) hhead, hrest, or_and_right, exists_or]
  | repeated e min max ih =>
    unfold Walks Word
    simp only [iter_walks_iff (fun x y => ih hp)]
    constructor
    · rintro ⟨_, hk, ws, rfl, hws, hwalk⟩
      exact ⟨ws.flatten, ⟨ws, hk, hws, rfl⟩, hwalk⟩
    · intro hx
      obtain ⟨_, ⟨ws, hk, hws, rfl⟩, hwalk⟩ := hx
      exact ⟨ws.length, hk, ws, rfl, hws, hwalk⟩
  | ahead positive c p _ _ => cases hp

end

/-! ### Walks and alignments -/

/-- A walk through the atoms of `w`, with the characters passed over after the last one. -/
def Spells (text : List Char) (most : Nat) (w : List Atom) (x y : Nat × Nat) : Prop :=
  ∃ z, WalksWord text most w x z ∧ ∃ k, y = (z.1 + k, z.2 + k)

section

variable {text : List Char} {most e n : Nat} {x y : Nat × Nat} {w : List Atom} {a : Atom}
  {s : List Char}

/-- Without lookaheads the places that are reached are those to which words are spelled out. -/
theorem reached_iff_spells {p : Pattern} (hp : p.hasLookahead = false) : p.Reached text most y ↔
    InReach text most y ∧ ∃ i, i ≤ text.length ∧ ∃ w, p.Word w ∧ Spells text most w (i, 0) y := by
  unfold Reached
  refine and_congr_right fun _ => exists_congr fun i => and_congr_right fun _ => ?_
  simp only [walks_iff_word hp]
  constructor
  · intro h
    obtain ⟨x, ⟨w, hw, hwalk⟩, k, hk⟩ := h
    exact ⟨w, hw, x, hwalk, k, hk⟩
  · rintro ⟨w, hw, x, hwalk, k, hk⟩
    exact ⟨x, ⟨w, hw, hwalk⟩, k, hk⟩

/-- A walk through a word aligns the word with the piece of text that it covers, at no greater
cost. -/
theorem aligned_of_spells (h : Spells text most w x y) (hy : y.1 ≤ text.length) :
    x.1 ≤ y.1 ∧ ∃ n, Aligned w (piece text x.1 y.1) n ∧ x.2 + n ≤ y.2 := by
  obtain ⟨z, hwalk, k, rfl⟩ := h
  induction w generalizing x with
  | nil =>
    obtain rfl : x = z := hwalk
    refine ⟨Nat.le_add_right _ _, 0 + k, aligned_piece_of_skip ?_ (Nat.le_refl _) hy, by simp⟩
    rw [piece_eq_nil (Nat.le_refl _)]
    exact .nil
  | cons a w ih =>
    obtain ⟨u, ⟨⟨j, huses⟩, hreach⟩, hrest⟩ := hwalk
    obtain ⟨hle, n, haligned, hn⟩ := ih hrest
    -- the atom is used where `j` characters have been passed over
    suffices hatom : x.1 + j ≤ z.1 + k ∧
        ∃ n, Aligned (a :: w) (piece text (x.1 + j) (z.1 + k)) n ∧ x.2 + j + n ≤ z.2 + k by
      obtain ⟨hj, n, haligned, hn⟩ := hatom
      refine ⟨by omega, n + j, aligned_piece_of_skip haligned hj hy, ?_⟩
      show x.2 + (n + j) ≤ z.2 + k
      omega
    rcases huses with ⟨rfl, c, hc, htakes⟩ | rfl | rfl
    · refine ⟨by omega, n, ?_, hn⟩
      rw [piece_eq_cons hc hle]
      have hpair := Aligned.pair a c haligned
      rwa [mismatch, if_pos htakes, Nat.zero_add] at hpair
    · obtain ⟨c, hc⟩ : ∃ c, text[x.1 + j]? = some c :=
        ⟨_, List.getElem?_eq_getElem (Nat.lt_of_lt_of_le hle hy)⟩
      refine ⟨by omega, mismatch a c + n, ?_, ?_⟩
      · rw [piece_eq_cons hc hle]
        exact .pair a c haligned
      · have hcost : mismatch a c ≤ 1 := by
          unfold mismatch
          split <;> omega
        simp only at hn ⊢
        omega
    · refine ⟨hle, n + 1, .skipAtom a haligned, ?_⟩
      simp only at hn ⊢
      omega

/-- A character may be passed over before a walk. -/
theorem Spells.skip (h : Spells text most w (x.1 + 1, x.2 + 1) y) : Spells text most w x y := by
  obtain ⟨z, hwalk, k, rfl⟩ := h
  cases w with
  | nil =>
    obtain rfl : (x.1 + 1, x.2 + 1) = z := hwalk
    exact ⟨x, rfl, k + 1, Prod.ext (Nat.add_right_comm _ _ _) (Nat.add_right_comm _ _ _)⟩
  | cons a w =>
    obtain ⟨u, ⟨⟨j, huses⟩, hreach⟩, hrest⟩ := hwalk
    refine ⟨z, ⟨u, ⟨⟨j + 1, ?_⟩, hreach⟩, hrest⟩, k, rfl⟩
    rwa [Nat.add_right_comm, Nat.add_right_comm (x.2)] at huses

theorem Spells.cons {u : Nat × Nat} (huses : a.Uses text x u) (hreach : InReach text most u)
    (h : Spells text most w u y) : Spells text most (a :: w) x y := by
  obtain ⟨z, hwalk, k, rfl⟩ := h
  exact ⟨z, ⟨u, ⟨⟨0, huses⟩, hreach⟩, hwalk⟩, k, rfl⟩

/-- Every alignment of a word with a piece of the text is walked, at its cost. -/
theorem spells_of_aligned (h : Aligned w s n) (hs : s = piece text x.1 e) (hx : x.1 ≤ e)
    (he : e ≤ text.length) (hn : x.2 + n ≤ most) : Spells text most w x (e, x.2 + n) := by
  induction h generalizing x with
  | nil =>
    obtain rfl : x.1 = e := Nat.le_antisymm hx (of_piece_eq_nil hs.symm he)
    exact ⟨x, rfl, 0, rfl⟩
  | pair a c _ ih =>
    obtain ⟨hlt, hc, rfl⟩ := of_piece_eq_cons hs.symm
    rw [← Nat.add_assoc] at hn ⊢
    have hreach : InReach text most (x.1 + 1, x.2 + mismatch a c) :=
      ⟨by omega, by omega⟩
    refine Spells.cons ?_ hreach (ih rfl hlt hn)
    unfold mismatch
    split
    next htakes => exact Or.inl ⟨rfl, c, hc, htakes⟩
    next => exact Or.inr (Or.inl rfl)
  | skipAtom a _ ih =>
    rw [Nat.add_comm _ 1, ← Nat.add_assoc] at hn ⊢
    have hreach : InReach text most (x.1, x.2 + 1) :=
      ⟨by omega, by omega⟩
    exact Spells.cons (Or.inr (Or.inr rfl)) hreach (ih hs hx hn)
  | skipChar c _ ih =>
    obtain ⟨hlt, -, rfl⟩ := of_piece_eq_cons hs.symm
    rw [Nat.add_comm _ 1, ← Nat.add_assoc] at hn ⊢
    exact Spells.skip (ih rfl hlt hn)

end

end Pattern

end PatternSweep
