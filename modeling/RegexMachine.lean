import RegexMachine.Bisection
import RegexMachine.Capture.Journal
import RegexMachine.Capture.Table
import RegexMachine.Direction
import RegexMachine.Fault
import RegexMachine.Integer
import RegexMachine.Machine.Attempt
import RegexMachine.Machine.Processor
import RegexMachine.Machine.Search
import RegexMachine.Machine.State
import RegexMachine.Machine.Step
import RegexMachine.Narration
import RegexMachine.Pattern.Encoder
import RegexMachine.Pattern.Fragment
import RegexMachine.Program.Basic
import RegexMachine.Program.SaveDepth
import RegexMachine.Program.Validation
import RegexMachine.Proofs.Capture.Contents
import RegexMachine.Proofs.Capture.Rollback
import RegexMachine.Proofs.Capture.Versions
import RegexMachine.Proofs.Integer.Conversions
import RegexMachine.Proofs.Machine.Acceptance
import RegexMachine.Proofs.Machine.Activations
import RegexMachine.Proofs.Machine.Analysis
import RegexMachine.Proofs.Machine.Atomicity
import RegexMachine.Proofs.Machine.Bounds
import RegexMachine.Proofs.Machine.Budgets
import RegexMachine.Proofs.Machine.Composition
import RegexMachine.Proofs.Machine.Confinement
import RegexMachine.Proofs.Machine.Counting
import RegexMachine.Proofs.Machine.Granularities
import RegexMachine.Proofs.Machine.Histories
import RegexMachine.Proofs.Machine.Loops
import RegexMachine.Proofs.Machine.Positions
import RegexMachine.Proofs.Machine.Residue
import RegexMachine.Proofs.Machine.Restoration
import RegexMachine.Proofs.Machine.Runs
import RegexMachine.Proofs.Machine.Shifts
import RegexMachine.Proofs.Machine.StackDepth
import RegexMachine.Proofs.Machine.Standing
import RegexMachine.Proofs.Machine.Straying
import RegexMachine.Proofs.Machine.Transitions
import RegexMachine.Proofs.Machine.Yields
import RegexMachine.Proofs.Pattern.Accounts
import RegexMachine.Proofs.Pattern.Brackets
import RegexMachine.Proofs.Pattern.Calls
import RegexMachine.Proofs.Pattern.Captures
import RegexMachine.Proofs.Pattern.Caseless
import RegexMachine.Proofs.Pattern.Compilation
import RegexMachine.Proofs.Pattern.Delimiters
import RegexMachine.Proofs.Pattern.Duality
import RegexMachine.Proofs.Pattern.Effects
import RegexMachine.Proofs.Pattern.Emission
import RegexMachine.Proofs.Pattern.Encoding
import RegexMachine.Proofs.Pattern.Groups
import RegexMachine.Proofs.Pattern.Instructions
import RegexMachine.Proofs.Pattern.Levels
import RegexMachine.Proofs.Pattern.LiteralRuns
import RegexMachine.Proofs.Pattern.Literals
import RegexMachine.Proofs.Pattern.Lookarounds
import RegexMachine.Proofs.Pattern.Lookbehind
import RegexMachine.Proofs.Pattern.Operands
import RegexMachine.Proofs.Pattern.Outcomes
import RegexMachine.Proofs.Pattern.Pairing
import RegexMachine.Proofs.Pattern.Parts
import RegexMachine.Proofs.Pattern.Passages
import RegexMachine.Proofs.Pattern.Placement
import RegexMachine.Proofs.Pattern.Priority
import RegexMachine.Proofs.Pattern.Progress
import RegexMachine.Proofs.Pattern.Ranges
import RegexMachine.Proofs.Pattern.Realization
import RegexMachine.Proofs.Pattern.Relations
import RegexMachine.Proofs.Pattern.Repetitions
import RegexMachine.Proofs.Pattern.Residue
import RegexMachine.Proofs.Pattern.Returning
import RegexMachine.Proofs.Pattern.Scans
import RegexMachine.Proofs.Pattern.Searches
import RegexMachine.Proofs.Pattern.Soundness
import RegexMachine.Proofs.Pattern.Termination
import RegexMachine.Proofs.Pattern.Traversals
import RegexMachine.Proofs.Pattern.Truncation
import RegexMachine.Proofs.Pattern.Unrolling
import RegexMachine.Proofs.Pattern.Verdicts
import RegexMachine.Proofs.Pattern.Visits
import RegexMachine.Proofs.Program.Depths
import RegexMachine.Proofs.Program.Loops
import RegexMachine.Proofs.Program.Nesting
import RegexMachine.Proofs.Program.Rejections
import RegexMachine.Proofs.Program.Sweeping
import RegexMachine.Proofs.Program.Validity
import RegexMachine.Proofs.Rune.Canonical
import RegexMachine.Proofs.Rune.Folding
import RegexMachine.Proofs.Rune.Membership
import RegexMachine.Proofs.Rune.Sets
import RegexMachine.Proofs.Text.Automaton
import RegexMachine.Proofs.Text.Boundaries
import RegexMachine.Proofs.Text.Comparison
import RegexMachine.Proofs.Text.Cuts
import RegexMachine.Proofs.Text.Decoding
import RegexMachine.Proofs.Text.Folding
import RegexMachine.Proofs.Text.Granularities
import RegexMachine.Proofs.Text.Inversion
import RegexMachine.Proofs.Text.Joining
import RegexMachine.Proofs.Text.Limits
import RegexMachine.Proofs.Text.Reversal
import RegexMachine.Proofs.Text.RuneWise
import RegexMachine.Proofs.Text.Segmentation
import RegexMachine.Proofs.Text.Shortening
import RegexMachine.Proofs.Text.Slices
import RegexMachine.Proofs.Text.Units
import RegexMachine.Proofs.Text.Windows
import RegexMachine.Rune.Basic
import RegexMachine.Rune.Property
import RegexMachine.Rune.Repertoire
import RegexMachine.Rune.Set
import RegexMachine.Text.Octets
import RegexMachine.Text.Segmented
import RegexMachine.Text.Subject
import RegexMachine.Text.Utf8
