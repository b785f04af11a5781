/-!
# Backslash letters for control characters

Six control characters are written as a backslash and a letter. `letter?` gives the letter of a
character, `meaning` the character that a letter stands for after a backslash: any other character
stands for itself. `meaning_of_letter` says that the second undoes the first.
-/

namespace PatternSweep.Escape

/-- The letter that stands for a control character after a backslash. -/
def letter? (c : Char) : Option Char :=
  if c = '\n' then some 'n'
  else if c = '\t' then some 't'
  else if c = '\r' then some 'r'
  else if c = '\x0c' then some 'f'
  else if c = '\x0b' then some 'v'
  else if c = '\x00' then some '0'
  else none

/-- The character that `c` stands for after a backslash. -/
def meaning (c : Char) : Char :=
  match c with
  | 'n' => '\n'
  | 't' => '\t'
  | 'r' => '\r'
  | 'f' => '\x0c'
  | 'v' => '\x0b'
  | '0' => '\x00'
  | c => c

/-- `c` as it is written where the characters of `marked` need a backslash to stand for
themselves. -/
def written (marked : List Char) (c : Char) : List Char :=
  match letter? c with
  | some l => ['\\', l]
  | none => if marked.contains c then ['\\', c] else [c]

theorem meaning_of_letter {c l : Char} (h : letter? c = some l) : meaning l = c := by
  unfold letter? at h
  split at h
  · cases h; simp [meaning, *]
  split at h
  · cases h; simp [meaning, *]
  split at h
  · cases h; simp [meaning, *]
  split at h
  · cases h; simp [meaning, *]
  split at h
  · cases h; simp [meaning, *]
  split at h
  · cases h; simp [meaning, *]
  · cases h

end PatternSweep.Escape
