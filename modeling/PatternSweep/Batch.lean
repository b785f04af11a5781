import PatternSweep.Query

/-!
# Many texts

One query is matched against many texts, each on its own; the results come in the order of the
texts. The texts can be handed out in chunks, which does not change any result.
-/

namespace PatternSweep

/-- How texts are handed out. -/
structure BatchConfig where
  /-- The number of workers to use, if it is fixed. -/
  workers : Option Nat
  /-- The least number of texts in a chunk. -/
  chunkSize : Nat
  chunkSize_pos : 0 < chunkSize
  deriving DecidableEq

namespace BatchConfig

/-- One text at a time, with as many workers as there may be. -/
def standard : BatchConfig := ⟨none, 1, Nat.one_pos⟩

/-- The configuration with a fixed number of workers. -/
def withWorkers (c : BatchConfig) (n : Nat) : BatchConfig := { c with workers := some n }

/-- The configuration with another size of chunks, which is one at least. -/
def withChunkSize (c : BatchConfig) (n : Nat) : BatchConfig :=
  { c with chunkSize := max n 1, chunkSize_pos := Nat.le_max_right n 1 }

end BatchConfig

/-- A list in pieces of `n` items, the last of which may have fewer. -/
def chunks {α : Type} (n : Nat) (hn : 0 < n) (xs : List α) : List (List α) :=
  if _h : xs = [] then [] else xs.take n :: chunks n hn (xs.drop n)
termination_by xs.length
decreasing_by
  have := List.length_pos_iff.2 _h
  simp only [List.length_drop]
  omega

theorem flatten_chunks {α : Type} (n : Nat) (hn : 0 < n) (xs : List α) :
    (chunks n hn xs).flatten = xs := by
  fun_induction chunks n hn xs with
  | case1 => rfl
  | case2 xs h ih => rw [List.flatten_cons, ih, List.take_append_drop]

namespace Query

/-- The result for every text. -/
def matchBatch (q : Query) (texts : List String) : List (Except MatchError (List Nat)) :=
  texts.map q.matchEnds

/-- The result for every text of an array. -/
def matchBatchArray (q : Query) (texts : Array String) : Array (Except MatchError (List Nat)) :=
  texts.map q.matchEnds

/-- The result for every text, handed out in chunks. -/
def matchBatchWith (q : Query) (c : BatchConfig) (texts : List String) :
    List (Except MatchError (List Nat)) :=
  (chunks c.chunkSize c.chunkSize_pos texts).flatMap q.matchBatch

theorem matchBatchWith_eq (q : Query) (c : BatchConfig) (texts : List String) :
    q.matchBatchWith c texts = q.matchBatch texts := by
  show (chunks c.chunkSize c.chunkSize_pos texts).flatMap (List.map q.matchEnds) = _
  rw [List.flatMap_def, ← List.map_flatten, flatten_chunks, matchBatch]

end Query
end PatternSweep
