import PatternSweep.Pattern.Basic
import PatternSweep.Proofs.Iterate

/-!
# The matches of a pattern

`p.Matches text i j` says that the pattern `p` matches the characters of a text from the offset `i`
up to the offset `j`, by recursion on the pattern and without any set of offsets: an atom takes one
character, a sequence composes its parts, an alternation unites its branches, a repetition composes
its element with itself a permitted number of times, and a lookahead keeps the matches of its body
from where its condition has some match, or none.

A match never ends before it starts nor past the end of the text (`climbs_matches`).
-/

namespace PatternSweep

/-- Whether a lookahead lets a match start at `i`, if `R` relates the starts and ends of the matches
of its condition. -/
def Passes (R : Nat → Nat → Prop) : Bool → Nat → Prop
  | true, i => ∃ j, R i j
  | false, i => ¬∃ j, R i j

namespace Pattern

mutual

/-- The pattern matches the characters from one offset of the text up to another. -/
def Matches (text : List Char) : Pattern → Nat → Nat → Prop
  | .atom a => fun i j => j = i + 1 ∧ ∃ c, text[i]? = some c ∧ a.accepts c = true
  | .seq ps => MatchesAll text ps
  | .alt ps => MatchesAny text ps
  | .repeated e min max => fun i j => ∃ k, Permits min max k ∧ Iter (Matches text e) k i j
  | .ahead positive c p => fun i j => Matches text p i j ∧ Passes (Matches text c) positive i

/-- The patterns match one after the other. -/
def MatchesAll (text : List Char) : List Pattern → Nat → Nat → Prop
  | [] => fun i j => i = j
  | p :: ps => fun i k => ∃ j, Matches text p i j ∧ MatchesAll text ps j k

/-- One of the patterns matches. -/
def MatchesAny (text : List Char) : List Pattern → Nat → Nat → Prop
  | [] => fun _ _ => False
  | p :: ps => fun i j => Matches text p i j ∨ MatchesAny text ps i j

end

variable {text : List Char}

/-- A match does not end before it starts, and within the text it ends there too. -/
theorem climbs_matches (text : List Char) (p : Pattern) :
    Climbs id text.length (p.Matches text) := by
  induction p using Pattern.induct with
  | atom a =>
    constructor
    · rintro i j ⟨rfl, -⟩
      exact Or.inr (Nat.lt_succ_self i)
    · rintro i j ⟨rfl, c, hc, -⟩ -
      exact (List.getElem?_eq_some_iff.1 hc).1
  | seq ps ih =>
    unfold Matches
    induction ps with
    | nil => exact climbs_eq
    | cons p ps ihps =>
      exact (ih p (by simp)).comp (ihps fun q hq => ih q (List.mem_cons_of_mem _ hq))
  | alt ps ih =>
    unfold Matches
    induction ps with
    | nil => exact climbs_eq.mono False.elim
    | cons p ps ihps =>
      exact (ih p (by simp)).or (ihps fun q hq => ih q (List.mem_cons_of_mem _ hq))
  | repeated e min max ih =>
    unfold Matches
    exact Climbs.union ih.iter (Permits min max)
  | ahead positive c p _ ih =>
    unfold Matches
    exact ih.mono And.left

theorem Matches.le {p : Pattern} {i j : Nat} (h : p.Matches text i j) : i ≤ j :=
  (climbs_matches text p).rank_mono h

theorem Matches.le_length {p : Pattern} {i j : Nat} (h : p.Matches text i j)
    (hi : i ≤ text.length) : j ≤ text.length :=
  (climbs_matches text p).rank_le h hi

end Pattern

end PatternSweep
