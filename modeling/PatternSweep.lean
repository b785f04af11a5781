import PatternSweep.OffsetSet.Basic
import PatternSweep.OffsetTable
import PatternSweep.SpanSet
import PatternSweep.EditStates
import PatternSweep.CharClass
import PatternSweep.Pattern.Basic
import PatternSweep.SyntaxError
import PatternSweep.Escape
import PatternSweep.Pattern.Layout
import PatternSweep.Pattern.Render
import PatternSweep.Pattern.Parse
import PatternSweep.Json.Basic
import PatternSweep.Json.Read
import PatternSweep.Json.Write
import PatternSweep.Occurrences
import PatternSweep.Pattern.Json
import PatternSweep.Repetition
import PatternSweep.Subject
import PatternSweep.Event
import PatternSweep.Sweep.Basic
import PatternSweep.Sweep.Edits
import PatternSweep.EndDistances
import PatternSweep.Limits
import PatternSweep.Matching
import PatternSweep.Query
import PatternSweep.Batch
import PatternSweep.Describe
import PatternSweep.Pattern.Graph
import PatternSweep.Pattern.Outline
import PatternSweep.Trace
import PatternSweep.Proofs.Iterate
import PatternSweep.Proofs.Rounds
import PatternSweep.Proofs.SpanMembers
import PatternSweep.Proofs.Masks
import PatternSweep.Proofs.Matches
import PatternSweep.Proofs.Realises
import PatternSweep.Proofs.ExactMatches
import PatternSweep.Proofs.EditMembers
import PatternSweep.Proofs.EditSweeps
import PatternSweep.Proofs.Levenshtein
import PatternSweep.Proofs.Words
import PatternSweep.Proofs.EndMembers
import PatternSweep.Proofs.EditDistance
import PatternSweep.Proofs.Grammar
import PatternSweep.Proofs.Invariance
import PatternSweep.Proofs.ReaderSteps
import PatternSweep.Proofs.ReaderRuns
import PatternSweep.Proofs.ReaderTexts
import PatternSweep.Proofs.Shapes
import PatternSweep.Proofs.Writing
import PatternSweep.Proofs.RoundTrip
import PatternSweep.Proofs.WrittenRuns
import PatternSweep.Proofs.Collapse
import PatternSweep.Proofs.EditBounds
import PatternSweep.Proofs.LookaheadSplit
import PatternSweep.Proofs.Composition
import PatternSweep.Proofs.Surroundings
import PatternSweep.Proofs.Recall
import PatternSweep.Proofs.Pace
import PatternSweep.Proofs.Strides
import PatternSweep.Proofs.Repeats
import PatternSweep.Proofs.Watching
import PatternSweep.Proofs.Reports
import PatternSweep.Proofs.FaultPlaces
import PatternSweep.Proofs.FinalFaults
import PatternSweep.Proofs.Depth
import PatternSweep.Proofs.Accounts
import PatternSweep.Proofs.FiniteOffsets
import PatternSweep.Proofs.OccurrenceMasks
import PatternSweep.Proofs.BestDistances
import PatternSweep.Proofs.PackedWords
import PatternSweep.Proofs.WordReading
import PatternSweep.Proofs.OffsetScripts
import PatternSweep.Proofs.FiniteSpans
import PatternSweep.Proofs.IndexedSpans
import PatternSweep.Proofs.SpanScripts
import PatternSweep.Proofs.Counting
import PatternSweep.Proofs.FiniteStates
import PatternSweep.Proofs.StoredPlanes
import PatternSweep.Proofs.EditScripts
import PatternSweep.Proofs.ForeignStarts
import PatternSweep.Proofs.JsonGrammar
import PatternSweep.Proofs.JsonTexts
import PatternSweep.Proofs.Codecs
import PatternSweep.Proofs.JsonLibrary
import PatternSweep.Proofs.OwnCodecs
import PatternSweep.Proofs.PatternTexts
import PatternSweep.Proofs.Preorder
import PatternSweep.Proofs.GraphTexts
import PatternSweep.Proofs.Graphs
