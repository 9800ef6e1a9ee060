import ObjectSpace.Arena.Basic
import ObjectSpace.Collector
import ObjectSpace.Diagnostic
import ObjectSpace.Files.Stream
import ObjectSpace.Items
import ObjectSpace.Main
import ObjectSpace.Membership
import ObjectSpace.Method
import ObjectSpace.Names
import ObjectSpace.Proofs.Arena.Blocks
import ObjectSpace.Proofs.Arena.Growth
import ObjectSpace.Proofs.Arena.Twins
import ObjectSpace.Proofs.Diagnostic.Messages
import ObjectSpace.Proofs.Effects.Refilling
import ObjectSpace.Proofs.Effects.Shelter
import ObjectSpace.Proofs.Execution.Arithmetic
import ObjectSpace.Proofs.Execution.Constants
import ObjectSpace.Proofs.Execution.Construction
import ObjectSpace.Proofs.Execution.Draining
import ObjectSpace.Proofs.Execution.Evaluations
import ObjectSpace.Proofs.Execution.Extremes
import ObjectSpace.Proofs.Execution.Formats
import ObjectSpace.Proofs.Execution.Interleaving
import ObjectSpace.Proofs.Execution.IterationOrder
import ObjectSpace.Proofs.Execution.Lists
import ObjectSpace.Proofs.Execution.Membership
import ObjectSpace.Proofs.Execution.Numbering
import ObjectSpace.Proofs.Execution.Numerals
import ObjectSpace.Proofs.Execution.Ranges
import ObjectSpace.Proofs.Execution.Reading
import ObjectSpace.Proofs.Execution.Repetition
import ObjectSpace.Proofs.Execution.Routes
import ObjectSpace.Proofs.Execution.Scopes
import ObjectSpace.Proofs.Execution.Sequences
import ObjectSpace.Proofs.Execution.SetAlgebra
import ObjectSpace.Proofs.Execution.Slices
import ObjectSpace.Proofs.Execution.Sorting
import ObjectSpace.Proofs.Execution.Splitting
import ObjectSpace.Proofs.Execution.Updates
import ObjectSpace.Proofs.Execution.Writing
import ObjectSpace.Proofs.Files.Readers
import ObjectSpace.Proofs.Programs.Invisible
import ObjectSpace.Proofs.Run.Atomic
import ObjectSpace.Proofs.Run.Live
import ObjectSpace.Proofs.Safety.Recursion
import ObjectSpace.Proofs.Value.Coherence
import ObjectSpace.Proofs.Value.DictRuns
import ObjectSpace.Proofs.Value.Forms
import ObjectSpace.Proofs.Value.Hashing
import ObjectSpace.Proofs.Value.Unambiguous
import ObjectSpace.Repr
import ObjectSpace.Slice
import ObjectSpace.Text.Case
import ObjectSpace.Text.Literal
import ObjectSpace.Text.Numeral
import ObjectSpace.Text.Search
import ObjectSpace.Text.Utf8
