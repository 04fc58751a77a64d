import BoundedSimplex.PhaseOne
import BoundedSimplex.Proofs.Agree
import BoundedSimplex.Proofs.Assignment
import BoundedSimplex.Proofs.Atomicity
import BoundedSimplex.Proofs.Basis.Assigned
import BoundedSimplex.Proofs.Basis.Drift
import BoundedSimplex.Proofs.Basis.Elimination
import BoundedSimplex.Proofs.Basis.Eta
import BoundedSimplex.Proofs.Basis.Exchange
import BoundedSimplex.Proofs.Basis.Failures
import BoundedSimplex.Proofs.Basis.Inverse
import BoundedSimplex.Proofs.Basis.Partition
import BoundedSimplex.Proofs.Basis.Pivoting
import BoundedSimplex.Proofs.Basis.Positions
import BoundedSimplex.Proofs.Basis.Shape
import BoundedSimplex.Proofs.Basis.Split
import BoundedSimplex.Proofs.Basis.Substitution
import BoundedSimplex.Proofs.Basis.Tracking
import BoundedSimplex.Proofs.Basis.Twins
import BoundedSimplex.Proofs.BinaryZeros
import BoundedSimplex.Proofs.Bounds
import BoundedSimplex.Proofs.Checked
import BoundedSimplex.Proofs.Commuting
import BoundedSimplex.Proofs.Conservative
import BoundedSimplex.Proofs.Consistent
import BoundedSimplex.Proofs.Continuation
import BoundedSimplex.Proofs.Descent
import BoundedSimplex.Proofs.Driver
import BoundedSimplex.Proofs.Extended
import BoundedSimplex.Proofs.FailedMerge
import BoundedSimplex.Proofs.FailedStart
import BoundedSimplex.Proofs.Fairness
import BoundedSimplex.Proofs.Folding
import BoundedSimplex.Proofs.Forest
import BoundedSimplex.Proofs.Freshness
import BoundedSimplex.Proofs.Home
import BoundedSimplex.Proofs.Hull
import BoundedSimplex.Proofs.Initialization
import BoundedSimplex.Proofs.Linear.ColumnMajor
import BoundedSimplex.Proofs.Linear.DenseVector
import BoundedSimplex.Proofs.Linear.LinearEquation
import BoundedSimplex.Proofs.Linear.MatrixShape
import BoundedSimplex.Proofs.Linear.MatrixStorage
import BoundedSimplex.Proofs.Linear.PlainMatrix
import BoundedSimplex.Proofs.Linear.SparseStorage
import BoundedSimplex.Proofs.Linear.SparseVector
import BoundedSimplex.Proofs.Linear.SystemMatrix
import BoundedSimplex.Proofs.Listed
import BoundedSimplex.Proofs.Merges
import BoundedSimplex.Proofs.Mirror
import BoundedSimplex.Proofs.Narrowing
import BoundedSimplex.Proofs.NumberSet
import BoundedSimplex.Proofs.Numbers
import BoundedSimplex.Proofs.Operated
import BoundedSimplex.Proofs.Overrides
import BoundedSimplex.Proofs.Parallel
import BoundedSimplex.Proofs.Progress
import BoundedSimplex.Proofs.Refusals
import BoundedSimplex.Proofs.Requests
import BoundedSimplex.Proofs.Roles
import BoundedSimplex.Proofs.RoundTrip
import BoundedSimplex.Proofs.RowsAndColumns
import BoundedSimplex.Proofs.SafeStep
import BoundedSimplex.Proofs.Session
import BoundedSimplex.Proofs.SettingOut
import BoundedSimplex.Proofs.Shape
import BoundedSimplex.Proofs.Tableau.Alike
import BoundedSimplex.Proofs.Tableau.AlikePerform
import BoundedSimplex.Proofs.Tableau.Anchored
import BoundedSimplex.Proofs.Tableau.Following
import BoundedSimplex.Proofs.Tableau.Growth
import BoundedSimplex.Proofs.Tableau.Landing
import BoundedSimplex.Proofs.Tableau.Merging
import BoundedSimplex.Proofs.Tableau.Optimality
import BoundedSimplex.Proofs.Tableau.Pivot
import BoundedSimplex.Proofs.Tableau.Prices
import BoundedSimplex.Proofs.Tableau.Progress
import BoundedSimplex.Proofs.Tableau.ProgressGrowth
import BoundedSimplex.Proofs.Tableau.ProgressPivot
import BoundedSimplex.Proofs.Tableau.RatioTest
import BoundedSimplex.Proofs.Tableau.Relaxed
import BoundedSimplex.Proofs.Tableau.Reports
import BoundedSimplex.Proofs.Tableau.Selection
import BoundedSimplex.Proofs.Tableau.Setup
import BoundedSimplex.Proofs.Tableau.Shape
import BoundedSimplex.Proofs.Tableau.ShapePivot
import BoundedSimplex.Proofs.Tableau.ShapeSetup
import BoundedSimplex.Proofs.Tableau.Snapshot
import BoundedSimplex.Proofs.Tableau.Sound
import BoundedSimplex.Proofs.Tableau.Textbook
import BoundedSimplex.Proofs.Tableau.Tightening
import BoundedSimplex.Proofs.Tableau.Values
import BoundedSimplex.Proofs.Tableau.Violation
import BoundedSimplex.Proofs.TestsAgree
import BoundedSimplex.Proofs.Tolerance
import BoundedSimplex.Proofs.Verdict
import BoundedSimplex.Proofs.Watching
import BoundedSimplex.Proofs.Zeros
import BoundedSimplex.Tableau.Listing
import BoundedSimplex.Tableau.Operation
