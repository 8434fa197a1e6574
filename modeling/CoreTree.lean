import CoreTree.CoreForm
import CoreTree.File.Loader
import CoreTree.File.Location
import CoreTree.File.Require
import CoreTree.Normal.Monad
import CoreTree.Normal.Normalize
import CoreTree.Normal.OfNode
import CoreTree.Normal.Options
import CoreTree.Normal.Pending
import CoreTree.Normal.Statements
import CoreTree.Normal.Sugar
import CoreTree.Program
import CoreTree.Proofs.Assignment.Paths
import CoreTree.Proofs.Assignment.Ordered
import CoreTree.Proofs.Assignment.Single
import CoreTree.Proofs.Assignment.Steady
import CoreTree.Proofs.Assignment.Straight
import CoreTree.Proofs.Assignment.Targets
import CoreTree.Proofs.Assignment.Timeline
import CoreTree.Proofs.Atoms.Keeping
import CoreTree.Proofs.Atoms.Law
import CoreTree.Proofs.CoreForm.Actions
import CoreTree.Proofs.CoreForm.Everywhere
import CoreTree.Proofs.CoreForm.Faults
import CoreTree.Proofs.CoreForm.OfNode
import CoreTree.Proofs.CoreForm.Pending
import CoreTree.Proofs.CoreForm.Sugar
import CoreTree.Proofs.Defaults.Family
import CoreTree.Proofs.Defaults.Frames
import CoreTree.Proofs.EarlyExits
import CoreTree.Proofs.Fixed.Constructs
import CoreTree.Proofs.Fixed.OfNode
import CoreTree.Proofs.Fixed.Scopes
import CoreTree.Proofs.Fixed.Settled
import CoreTree.Proofs.Fixed.Sugar
import CoreTree.Proofs.Flow.Ends
import CoreTree.Proofs.Flow.Flag
import CoreTree.Proofs.Flow.Truncation
import CoreTree.Proofs.Frame.Actions
import CoreTree.Proofs.Frame.OfNode
import CoreTree.Proofs.Frame.Parameters
import CoreTree.Proofs.Frame.Pending
import CoreTree.Proofs.Frame.Requires
import CoreTree.Proofs.Frame.Running
import CoreTree.Proofs.Frame.Spares
import CoreTree.Proofs.Frame.Views
import CoreTree.Proofs.Literals.Building
import CoreTree.Proofs.Literals.Forms
import CoreTree.Proofs.Literals.Fresh
import CoreTree.Proofs.Literals.OfNode
import CoreTree.Proofs.Meaning.Constructs
import CoreTree.Proofs.Meaning.Fragment
import CoreTree.Proofs.Meaning.Machine
import CoreTree.Proofs.Meaning.OfNode
import CoreTree.Proofs.Meaning.Total
import CoreTree.Proofs.Nesting.Peers
import CoreTree.Proofs.Nesting.Flattened
import CoreTree.Proofs.Normal.Ensures
import CoreTree.Proofs.Normal.History
import CoreTree.Proofs.Preservation
import CoreTree.Proofs.Printing.Bare
import CoreTree.Proofs.Printing.Phrase
import CoreTree.Proofs.Printing.Reading
import CoreTree.Proofs.Printing.Unambiguous
import CoreTree.Proofs.Printing.Words
import CoreTree.Proofs.Reads.Follows
import CoreTree.Proofs.Reads.Known
import CoreTree.Proofs.Reads.Sugar
import CoreTree.Proofs.Reads.Unbound
import CoreTree.Proofs.Reads.Walk
import CoreTree.Proofs.Registries.Indices
import CoreTree.Proofs.Registries.Receipts
import CoreTree.Proofs.Renaming.Actions
import CoreTree.Proofs.Renaming.Basic
import CoreTree.Proofs.Renaming.Constructs
import CoreTree.Proofs.Renaming.Histories
import CoreTree.Proofs.Renaming.Literals
import CoreTree.Proofs.Renaming.OfNode
import CoreTree.Proofs.Renaming.Pairing
import CoreTree.Proofs.Renaming.Registries
import CoreTree.Proofs.Renaming.Scopes
import CoreTree.Proofs.Renaming.Statements
import CoreTree.Proofs.Renaming.Sugar
import CoreTree.Proofs.Requires.Answers
import CoreTree.Proofs.Requires.Cycles
import CoreTree.Proofs.Requires.Failure
import CoreTree.Proofs.Requires.Locations
import CoreTree.Proofs.Requires.MadeOf
import CoreTree.Proofs.Requires.Spelling
import CoreTree.Proofs.Requires.Tracking
import CoreTree.Proofs.Runs.Basic
import CoreTree.Proofs.Runs.Calls
import CoreTree.Proofs.Runs.Code
import CoreTree.Proofs.Runs.Steps
import CoreTree.Proofs.Runs.Sugar
import CoreTree.Proofs.Runs.Termination
import CoreTree.Proofs.Runs.Unfold
import CoreTree.Proofs.Runs.Weight
import CoreTree.Proofs.Simulation.Actions
import CoreTree.Proofs.Simulation.Agreement
import CoreTree.Proofs.Simulation.Assignments
import CoreTree.Proofs.Simulation.Blocks
import CoreTree.Proofs.Simulation.Branches
import CoreTree.Proofs.Simulation.Calls
import CoreTree.Proofs.Simulation.Clauses
import CoreTree.Proofs.Simulation.Closing
import CoreTree.Proofs.Simulation.Conditionals
import CoreTree.Proofs.Simulation.Exits
import CoreTree.Proofs.Simulation.Loops
import CoreTree.Proofs.Simulation.OfNode
import CoreTree.Proofs.Simulation.Related
import CoreTree.Proofs.Simulation.Splicing
import CoreTree.Proofs.Simulation.Statements
import CoreTree.Proofs.Standing.Basic
import CoreTree.Proofs.Standing.Branches
import CoreTree.Proofs.Standing.Loops
import CoreTree.Proofs.Standing.OfNode
import CoreTree.Proofs.Standing.Preserved
import CoreTree.Proofs.Standing.Scopes
import CoreTree.Proofs.Standing.Sees
import CoreTree.Proofs.Temps.Allocated
import CoreTree.Proofs.Temps.Allotted
import CoreTree.Proofs.Temps.Constructs
import CoreTree.Proofs.Temps.Growing
import CoreTree.Proofs.Temps.Normalized
import CoreTree.Proofs.Temps.OfNode
import CoreTree.Proofs.Temps.Once
import CoreTree.Proofs.Temps.Sharing
import CoreTree.Proofs.Temps.Traces
import CoreTree.Proofs.Types.Order
import CoreTree.Proofs.Types.Printing
import CoreTree.Proofs.Types.Registry
import CoreTree.Proofs.Versions.Growth
import CoreTree.Proofs.Versions.Joining
import CoreTree.Proofs.Versions.Meeting
import CoreTree.Proofs.Versions.Merging
import CoreTree.Proofs.Versions.Order
import CoreTree.Proofs.Versions.Renewal
import CoreTree.Scope.Basic
import CoreTree.Scope.Join
import CoreTree.Span
import CoreTree.Symbol
import CoreTree.SymbolMap
import CoreTree.Tree.Basic
import CoreTree.Tree.Equality
import CoreTree.Tree.Generics
import CoreTree.Tree.Printer
import CoreTree.Tree.Query
import CoreTree.TypePool
import CoreTree.Unicode.Alphabetic
