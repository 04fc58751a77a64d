/-
  BoundedSimplex.Settings — tolerances and switches of a tableau.
-/
import BoundedSimplex.Scalar

namespace BoundedSimplex

/-- What a tableau is told before it starts; the defaults suit well-scaled problems. -/
structure Settings (α : Type) [Scalar α] where
  /-- Values this close to a bound are at the bound. -/
  boundTolerance : α := 1e-9
  /-- Reduced costs of smaller magnitude make no variable eligible. -/
  entryTolerance : α := 1e-9
  /-- Entries of smaller magnitude in a change column are ignored by the ratio test. -/
  columnTolerance : α := 1e-9
  /-- How far a basic variable may pass a bound in the relaxed ratio test. -/
  harrisTolerance : α := 1e-7
  /-- Use the relaxed two-pass ratio test instead of the textbook one. -/
  useHarris : Bool := true
  /-- Number of exchanges after which the basis inverse is computed afresh. -/
  refreshThreshold : Nat := 100

end BoundedSimplex
