import PatternSweep.Proofs.Matches

/-!
# The edits of a pattern

`p.Walks text most x y` says that the pattern `p` leads from the place `x` to the place `y`, where a
place `(t, d)` is an offset of the text and the number of edits made so far, at most `most`. The
definition is by recursion on the pattern, as that of `Pattern.Matches`, and knows of no axis: an
atom passes over any number of characters at the cost of an edit each, and then takes a character,
takes another one in its place, or is left out. A lookahead is decided by the matches of its
condition, without edits.

Each walk stays where it is or gets further in text and edits together (`climbs_walks`).
-/

namespace PatternSweep

/-- The place after one use of the atom: it takes the character at hand, takes another one in its
place at the cost of an edit, or is left out at the cost of an edit. -/
def Atom.Uses (text : List Char) (a : Atom) (x y : Nat × Nat) : Prop :=
  (y = (x.1 + 1, x.2) ∧ ∃ c, text[x.1]? = some c ∧ a.accepts c = true) ∨
    y = (x.1 + 1, x.2 + 1) ∨ y = (x.1, x.2 + 1)

theorem Atom.Uses.le {text : List Char} {a : Atom} {x y : Nat × Nat} (h : a.Uses text x y) :
    x.1 ≤ y.1 ∧ x.2 ≤ y.2 := by
  rcases h with ⟨rfl, -⟩ | rfl | rfl <;> simp only <;> omega

/-- The place `y` keeps the length of the text and the number of edits. -/
def InReach (text : List Char) (most : Nat) (y : Nat × Nat) : Prop := y.1 ≤ text.length ∧ y.2 ≤ most

namespace Pattern

mutual

/-- The pattern leads from one place to another. -/
def Walks (text : List Char) (most : Nat) : Pattern → Nat × Nat → Nat × Nat → Prop
  | .atom a => fun x y => (∃ k, a.Uses text (x.1 + k, x.2 + k) y) ∧ InReach text most y
  | .seq ps => WalksAll text most ps
  | .alt ps => WalksAny text most ps
  | .repeated e min max => fun x y => ∃ k, Permits min max k ∧ Iter (Walks text most e) k x y
  | .ahead positive c p => fun x y => Walks text most p x y ∧ Passes (Matches text c) positive x.1

/-- The patterns lead on one after the other. -/
def WalksAll (text : List Char) (most : Nat) : List Pattern → Nat × Nat → Nat × Nat → Prop
  | [] => fun x y => x = y
  | p :: ps => fun x z => ∃ y, Walks text most p x y ∧ WalksAll text most ps y z

/-- One of the patterns leads there. -/
def WalksAny (text : List Char) (most : Nat) : List Pattern → Nat × Nat → Nat × Nat → Prop
  | [] => fun _ _ => False
  | p :: ps => fun x y => Walks text most p x y ∨ WalksAny text most ps x y

end

/-- The place is in reach and lies on a diagonal behind the end of a walk that set out from some
offset of the text without edits: the characters in between are passed over. -/
def Reached (text : List Char) (most : Nat) (p : Pattern) (y : Nat × Nat) : Prop :=
  InReach text most y ∧ ∃ i, i ≤ text.length ∧ ∃ x, p.Walks text most (i, 0) x ∧
    ∃ k, y = (x.1 + k, x.2 + k)

/-- A walk gets further in text and edits together, or stays where it is. -/
theorem climbs_walks (text : List Char) (most : Nat) (p : Pattern) :
    Climbs (fun x => x.1 + x.2) (text.length + most) (p.Walks text most) := by
  induction p using Pattern.induct with
  | atom a =>
    constructor
    · intro x y h
      obtain ⟨⟨k, huses⟩, -⟩ := h
      right
      rcases huses with ⟨rfl, -⟩ | rfl | rfl <;> simp only <;> omega
    · rintro x y ⟨-, ht, hd⟩ -
      exact Nat.add_le_add ht hd
  | seq ps ih =>
    unfold Walks
    induction ps with
    | nil => exact climbs_eq
    | cons p ps ihps =>
      exact (ih p (by simp)).comp (ihps fun q hq => ih q (List.mem_cons_of_mem _ hq))
  | alt ps ih =>
    unfold Walks
    induction ps with
    | nil => exact climbs_eq.mono False.elim
    | cons p ps ihps =>
      exact (ih p (by simp)).or (ihps fun q hq => ih q (List.mem_cons_of_mem _ hq))
  | repeated e min max ih =>
    unfold Walks
    exact Climbs.union ih.iter (Permits min max)
  | ahead positive c p _ ih =>
    unfold Walks
    exact ih.mono And.left

end Pattern

end PatternSweep
