import PatternSweep.Json.Basic

/-!
# Ends of matches and their distances

An `EndDistances` says for every offset at which a match ends with edits the least number of edits
that reaches it. It is kept as a list of ends in ascending order, each with its distance; `endsAt`
gives the ends of one distance and `within` those of all distances up to a bound.
-/

namespace PatternSweep

/-- Every end once, in ascending order, with its distance. -/
structure EndDistances where
  best : List (Nat × Nat)
  ascending : best.Pairwise fun a b => a.1 < b.1
  deriving DecidableEq

namespace EndDistances

/-- Whether one pair of an end and a distance is not after another. -/
def inOrder (a b : Nat × Nat) : Bool := a.1 < b.1 || (a.1 = b.1 && a.2 ≤ b.2)

/-- The pair `a` and those that follow, without a pair whose end is that of the pair before. -/
def firsts (a : Nat × Nat) : List (Nat × Nat) → List (Nat × Nat)
  | [] => [a]
  | b :: rest => if b.1 = a.1 then firsts a rest else a :: firsts b rest

/-- The first pair of every end, of a list in order. -/
def firstPairs : List (Nat × Nat) → List (Nat × Nat)
  | [] => []
  | a :: rest => firsts a rest

/-- All pairs of an end and a distance at which it was reached. -/
def pairs (raw : List (Nat × List Nat)) : List (Nat × Nat) :=
  raw.flatMap fun r => r.2.map fun stop => (stop, r.1)

theorem mem_firsts {a x : Nat × Nat} {l : List (Nat × Nat)} (h : x ∈ firsts a l) :
    x = a ∨ x ∈ l := by
  induction l generalizing a with
  | nil => exact Or.inl (by simpa [firsts] using h)
  | cons b rest ih =>
    rw [firsts] at h
    split at h
    · rcases ih h with rfl | h
      · exact Or.inl rfl
      · exact Or.inr (List.mem_cons_of_mem _ h)
    · rcases List.mem_cons.1 h with rfl | h
      · exact Or.inl rfl
      · exact Or.inr (List.mem_cons.2 (ih h))

theorem pairwise_firsts {a : Nat × Nat} {l : List (Nat × Nat)}
    (h : (a :: l).Pairwise fun x y => inOrder x y = true) :
    (firsts a l).Pairwise fun x y => x.1 < y.1 := by
  induction l generalizing a with
  | nil => exact List.pairwise_singleton _ _
  | cons b rest ih =>
    obtain ⟨ha, hb⟩ := List.pairwise_cons.1 h
    rw [firsts]
    split
    · exact ih (List.pairwise_cons.2 ⟨fun x hx => ha x (List.mem_cons_of_mem _ hx), hb.of_cons⟩)
    next hne =>
      refine List.pairwise_cons.2 ⟨fun x hx => ?_, ih hb⟩
      have hab : a.1 < b.1 := by
        have := ha b List.mem_cons_self
        simp only [inOrder, Bool.or_eq_true, Bool.and_eq_true, decide_eq_true_eq] at this
        omega
      rcases mem_firsts hx with rfl | hx
      · exact hab
      · have := (List.pairwise_cons.1 hb).1 x hx
        simp only [inOrder, Bool.or_eq_true, Bool.and_eq_true, decide_eq_true_eq] at this
        omega

theorem pairwise_firstPairs {l : List (Nat × Nat)}
    (h : l.Pairwise fun x y => inOrder x y = true) :
    (firstPairs l).Pairwise fun x y => x.1 < y.1 := by
  cases l with
  | nil => exact List.Pairwise.nil
  | cons a l => exact pairwise_firsts h

theorem pairwise_mergeSort (l : List (Nat × Nat)) :
    (l.mergeSort inOrder).Pairwise fun x y => inOrder x y = true := by
  refine List.pairwise_mergeSort ?_ ?_ l
  · intro a b c hab hbc
    simp only [inOrder, Bool.or_eq_true, Bool.and_eq_true, decide_eq_true_eq] at *
    omega
  · intro a b
    simp only [inOrder, Bool.or_eq_true, Bool.and_eq_true, decide_eq_true_eq]
    omega

/-- The ends of lists that are each given with a distance; an end may come more than once. -/
def ofRaw (raw : List (Nat × List Nat)) : EndDistances where
  best := firstPairs ((pairs raw).mergeSort inOrder)
  ascending := pairwise_firstPairs (pairwise_mergeSort _)

/-- The ends whose distance is `d`, ascending. -/
def endsAt (m : EndDistances) (d : Nat) : List Nat :=
  m.best.filterMap fun r => if r.2 = d then some r.1 else none

/-- The ends that are reached without edits. -/
def exact (m : EndDistances) : List Nat := m.endsAt 0

/-- The distance of an end. -/
def distance? (m : EndDistances) (stop : Nat) : Option Nat := m.best.lookup stop

/-- The distances that some end has, ascending. -/
def distances (m : EndDistances) : List Nat :=
  (m.best.map (·.2)).eraseDups.mergeSort (· ≤ ·)

/-- The distances that some end has with their ends, both ascending. -/
def toList (m : EndDistances) : List (Nat × List Nat) := m.distances.map fun d => (d, m.endsAt d)

/-- The ends whose distance is at most `d`, ascending. -/
def within (m : EndDistances) (d : Nat) : List Nat :=
  m.best.filterMap fun r => if r.2 ≤ d then some r.1 else none

/-- The number of ends. -/
def length (m : EndDistances) : Nat := m.best.length

/-- Whether there is no end. -/
def isEmpty (m : EndDistances) : Bool := m.best.isEmpty

/-- An object with a member for every distance, whose value lists the ends. -/
def toJson (m : EndDistances) : Json :=
  .obj (m.toList.map fun r => (toString r.1, .arr (r.2.map Json.nat)))

/-- The number that a key denotes. -/
def ofKey? (key : String) : Option Nat :=
  if !key.toList.isEmpty && key.toList.all Char.isDigit then
    some (Nat.ofDigitChars 10 key.toList 0)
  else none

/-- A natural number from JSON. -/
def nat? : Json → Option Nat
  | .nat n => some n
  | _ => none

/-- The ends of an object with lists of ends under distances. -/
def ofJson? : Json → Option EndDistances
  | .obj members => ofRaw <$> members.mapM fun
    | (key, .arr ends) => do return (← ofKey? key, ← ends.mapM nat?)
    | _ => none
  | _ => none

end EndDistances
end PatternSweep
