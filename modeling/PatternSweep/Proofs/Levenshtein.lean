import Mathlib.Order.Bounds.Basic
import PatternSweep.Pattern.Basic

/-!
# Alignments of atoms and characters

An alignment of a word of atoms with a piece of text pairs some of the atoms with some of the
characters in order. A pair costs nothing if the atom takes the character and one edit if not, and
each atom and each character that is left without a partner costs one edit: `Aligned w s n` says
that some alignment of `w` with `s` costs `n` edits. `levenshtein w s` is the least such cost
(`isLeast_levenshtein`).
-/

namespace PatternSweep

/-- The cost of a pair. -/
def mismatch (a : Atom) (c : Char) : Nat := if a.accepts c then 0 else 1

/-- Some alignment of a word with a piece of text costs that many edits. -/
inductive Aligned : List Atom → List Char → Nat → Prop
  | nil : Aligned [] [] 0
  | pair {w s n} (a : Atom) (c : Char) : Aligned w s n →
    Aligned (a :: w) (c :: s) (mismatch a c + n)
  /-- The atom has no partner. -/
  | skipAtom {w s n} (a : Atom) : Aligned w s n → Aligned (a :: w) s (n + 1)
  /-- The character has no partner. -/
  | skipChar {w s n} (c : Char) : Aligned w s n → Aligned w (c :: s) (n + 1)

/-- The least costs of `a` and the atoms of a word with a piece of text, from those of the word. -/
def levenshteinRow (a : Atom) (rest : List Char → Nat) : List Char → Nat
  | [] => rest [] + 1
  | c :: s =>
    min (mismatch a c + rest s) (min (rest (c :: s) + 1) (levenshteinRow a rest s + 1))

/-- The least cost of an alignment of a word with a piece of text. -/
def levenshtein : List Atom → List Char → Nat
  | [] => List.length
  | a :: w => levenshteinRow a (levenshtein w)

variable {w : List Atom} {s : List Char} {a : Atom} {c : Char} {n : Nat}

theorem levenshtein_cons_nil : levenshtein (a :: w) [] = levenshtein w [] + 1 := rfl

theorem levenshtein_cons_cons : levenshtein (a :: w) (c :: s) =
    min (mismatch a c + levenshtein w s)
      (min (levenshtein w (c :: s) + 1) (levenshtein (a :: w) s + 1)) := rfl

theorem levenshtein_cons_le : levenshtein (a :: w) s ≤ levenshtein w s + 1 := by
  cases s with
  | nil => rw [levenshtein_cons_nil]
  | cons c s =>
    rw [levenshtein_cons_cons]
    omega

theorem levenshtein_le_cons : levenshtein w (c :: s) ≤ levenshtein w s + 1 := by
  cases w with
  | nil => exact Nat.le_refl _
  | cons a w =>
    rw [levenshtein_cons_cons]
    omega

/-- Some alignment costs no more than the recursion says. -/
theorem aligned_levenshtein (w : List Atom) (s : List Char) : Aligned w s (levenshtein w s) := by
  induction w generalizing s with
  | nil =>
    induction s with
    | nil => exact .nil
    | cons c s ih => exact .skipChar c ih
  | cons a w ihw =>
    induction s with
    | nil => exact .skipAtom a (ihw [])
    | cons c s ihs =>
      have hcases : levenshtein (a :: w) (c :: s) = mismatch a c + levenshtein w s ∨
          levenshtein (a :: w) (c :: s) = levenshtein w (c :: s) + 1 ∨
          levenshtein (a :: w) (c :: s) = levenshtein (a :: w) s + 1 := by
        rw [levenshtein_cons_cons]
        omega
      rcases hcases with h | h | h <;> rw [h]
      · exact .pair a c (ihw s)
      · exact .skipAtom a (ihw (c :: s))
      · exact .skipChar c ihs

/-- No alignment costs less. -/
theorem Aligned.levenshtein_le (h : Aligned w s n) : levenshtein w s ≤ n := by
  induction h with
  | nil => exact Nat.le_refl _
  | pair a c _ ih =>
    rw [levenshtein_cons_cons]
    omega
  | skipAtom a _ ih =>
    apply Nat.le_trans levenshtein_cons_le
    omega
  | skipChar c _ ih =>
    apply Nat.le_trans levenshtein_le_cons
    omega

/-- **The recursion computes the least cost of an alignment.** -/
theorem isLeast_levenshtein (w : List Atom) (s : List Char) :
    IsLeast {n | Aligned w s n} (levenshtein w s) :=
  ⟨aligned_levenshtein w s, fun _ h => h.levenshtein_le⟩

/-- One substitution and one character over. -/
example : levenshtein [.literal 'a', .any] ['b', 'c', 'd'] = 2 := by decide

end PatternSweep
