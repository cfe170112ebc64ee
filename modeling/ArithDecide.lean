import ArithDecide.Atom
import ArithDecide.Bound
import ArithDecide.Check
import ArithDecide.CommandLine
import ArithDecide.CommandLine.Arguments
import ArithDecide.CommandLine.Report
import ArithDecide.Dependency
import ArithDecide.Engine.Assignment
import ArithDecide.Engine.Basic
import ArithDecide.Engine.Bounds
import ArithDecide.Engine.Display
import ArithDecide.Engine.FixedEqualities
import ArithDecide.Engine.ImpliedBounds
import ArithDecide.Engine.InPlace
import ArithDecide.Engine.Model
import ArithDecide.Engine.Moves
import ArithDecide.Engine.Problem
import ArithDecide.Engine.Propagation
import ArithDecide.Engine.Repair
import ArithDecide.Engine.Scopes
import ArithDecide.Explanation
import ArithDecide.Guarded.Bounds
import ArithDecide.Guarded.Calls
import ArithDecide.Guarded.Check
import ArithDecide.Guarded.Failure
import ArithDecide.Guarded.Integers
import ArithDecide.Guarded.Products
import ArithDecide.Guarded.Store
import ArithDecide.Integer.Branching
import ArithDecide.Integer.Check
import ArithDecide.Integer.DivisibilityTest
import ArithDecide.Integer.GomoryCut
import ArithDecide.Integer.Patching
import ArithDecide.Interval
import ArithDecide.LinearForm
import ArithDecide.Literal
import ArithDecide.Main
import ArithDecide.Names
import ArithDecide.Nonlinear.BasisStep
import ArithDecide.Nonlinear.Check
import ArithDecide.Nonlinear.Completion
import ArithDecide.Nonlinear.MonomialBounds
import ArithDecide.Nonlinear.NestedForm
import ArithDecide.Nonlinear.Refinement
import ArithDecide.Number.InfRat
import ArithDecide.Number.Rational
import ArithDecide.Polynomial
import ArithDecide.Proofs.Alike
import ArithDecide.Proofs.AlikeChecks
import ArithDecide.Proofs.Assignment
import ArithDecide.Proofs.AtomHistory
import ArithDecide.Proofs.AtomIndices
import ArithDecide.Proofs.Awaiting
import ArithDecide.Proofs.Backtracking
import ArithDecide.Proofs.Bases
import ArithDecide.Proofs.BoundHistory
import ArithDecide.Proofs.BoundStore
import ArithDecide.Proofs.Branches
import ArithDecide.Proofs.Changes
import ArithDecide.Proofs.Checking
import ArithDecide.Proofs.Clearing
import ArithDecide.Proofs.Coefficients
import ArithDecide.Proofs.Compacting
import ArithDecide.Proofs.Completing
import ArithDecide.Proofs.Consequences
import ArithDecide.Proofs.Conservation
import ArithDecide.Proofs.Consistency
import ArithDecide.Proofs.Criterion
import ArithDecide.Proofs.Cuts
import ArithDecide.Proofs.Deciding
import ArithDecide.Proofs.Deferring
import ArithDecide.Proofs.Demands
import ArithDecide.Proofs.Dependency
import ArithDecide.Proofs.Determining
import ArithDecide.Proofs.Divisibility
import ArithDecide.Proofs.Divisors
import ArithDecide.Proofs.Editing
import ArithDecide.Proofs.Engine
import ArithDecide.Proofs.Equating
import ArithDecide.Proofs.Exchanging
import ArithDecide.Proofs.Exponents
import ArithDecide.Proofs.ExportedNames
import ArithDecide.Proofs.Exporting
import ArithDecide.Proofs.Expressions
import ArithDecide.Proofs.Failing
import ArithDecide.Proofs.Fixing
import ArithDecide.Proofs.Flags
import ArithDecide.Proofs.Flattening
import ArithDecide.Proofs.Guarantees
import ArithDecide.Proofs.GuardedBounds
import ArithDecide.Proofs.GuardedCheck
import ArithDecide.Proofs.GuardedIntegers
import ArithDecide.Proofs.GuardedProducts
import ArithDecide.Proofs.GuardedSessions
import ArithDecide.Proofs.GuardedStore
import ArithDecide.Proofs.HandingOut
import ArithDecide.Proofs.Harmless
import ArithDecide.Proofs.Honoring
import ArithDecide.Proofs.Hulls
import ArithDecide.Proofs.Independence
import ArithDecide.Proofs.Infinitesimal
import ArithDecide.Proofs.Installing
import ArithDecide.Proofs.Integers
import ArithDecide.Proofs.IntegralValues
import ArithDecide.Proofs.Intervals
import ArithDecide.Proofs.Invariant
import ArithDecide.Proofs.Laziness
import ArithDecide.Proofs.LinearForm
import ArithDecide.Proofs.Linking
import ArithDecide.Proofs.Loading
import ArithDecide.Proofs.Looping
import ArithDecide.Proofs.Mirroring
import ArithDecide.Proofs.MirroringChecks
import ArithDecide.Proofs.Misuse
import ArithDecide.Proofs.Models
import ArithDecide.Proofs.MonomialOrder
import ArithDecide.Proofs.Moving
import ArithDecide.Proofs.Naming
import ArithDecide.Proofs.Narrowing
import ArithDecide.Proofs.NestedForms
import ArithDecide.Proofs.Nesting
import ArithDecide.Proofs.Numerals
import ArithDecide.Proofs.OrderedPolynomials
import ArithDecide.Proofs.Orderly
import ArithDecide.Proofs.OrderlySessions
import ArithDecide.Proofs.PendingRows
import ArithDecide.Proofs.Polynomials
import ArithDecide.Proofs.Posing
import ArithDecide.Proofs.Prefix
import ArithDecide.Proofs.Products
import ArithDecide.Proofs.Propagation
import ArithDecide.Proofs.Reducing
import ArithDecide.Proofs.Reduction
import ArithDecide.Proofs.Refilling
import ArithDecide.Proofs.Refining
import ArithDecide.Proofs.Refusals
import ArithDecide.Proofs.Renaming
import ArithDecide.Proofs.Repairing
import ArithDecide.Proofs.Replaying
import ArithDecide.Proofs.Reports
import ArithDecide.Proofs.Rounds
import ArithDecide.Proofs.RowSums
import ArithDecide.Proofs.Scopes
import ArithDecide.Proofs.SearchDepth
import ArithDecide.Proofs.Searching
import ArithDecide.Proofs.Selectors
import ArithDecide.Proofs.Semantics
import ArithDecide.Proofs.Separating
import ArithDecide.Proofs.Sessions
import ArithDecide.Proofs.Settling
import ArithDecide.Proofs.Slots
import ArithDecide.Proofs.SnapshotTexts
import ArithDecide.Proofs.Splitting
import ArithDecide.Proofs.Stability
import ArithDecide.Proofs.Steps
import ArithDecide.Proofs.StoredLayout
import ArithDecide.Proofs.StoredPivot
import ArithDecide.Proofs.StoredReduction
import ArithDecide.Proofs.StoredSessions
import ArithDecide.Proofs.StoredUndo
import ArithDecide.Proofs.Strictness
import ArithDecide.Proofs.Strides
import ArithDecide.Proofs.Substituting
import ArithDecide.Proofs.SyntaxErrors
import ArithDecide.Proofs.Tableau
import ArithDecide.Proofs.Termination
import ArithDecide.Proofs.Thresholds
import ArithDecide.Proofs.Tightness
import ArithDecide.Proofs.Tokens
import ArithDecide.Proofs.Turns
import ArithDecide.Proofs.Unfolding
import ArithDecide.Proofs.Vanishing
import ArithDecide.Proofs.Verdicts
import ArithDecide.Search
import ArithDecide.Selection
import ArithDecide.Snapshot.Basic
import ArithDecide.Snapshot.Export
import ArithDecide.Snapshot.Load
import ArithDecide.Snapshot.Numeral
import ArithDecide.Snapshot.Reader
import ArithDecide.Snapshot.SExpr
import ArithDecide.Snapshot.Writer
import ArithDecide.SortedSet
import ArithDecide.Statistics
import ArithDecide.Storage.Basic
import ArithDecide.Storage.Calls
import ArithDecide.Storage.Registry
import ArithDecide.Storage.Session
import ArithDecide.Storage.Slots
import ArithDecide.Tableau
import ArithDecide.Text.Blank
import ArithDecide.Trace
import ArithDecide.Trace.Sharing
