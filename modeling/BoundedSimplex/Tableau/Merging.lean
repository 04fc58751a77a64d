/-
  BoundedSimplex.Tableau.Merging — folding one non-basic variable into another.

  When two variables are known to be equal, the column of one is added to that of the other,
  which takes over the tighter bounds.  The folded variable keeps its index; it is read
  through the other one.
-/
import BoundedSimplex.Tableau.Tightening

namespace BoundedSimplex.Tableau

variable {α : Type} [Scalar α]

/-- Why a variable cannot take part in a merge. -/
def mergeFailure? (t : Tableau α) (v : Nat) : Option Failure :=
  if t.varCount ≤ v then some (.unknownVariable v t.varCount)
  else if t.split.isBasic v then some (.mergeBasic v)
  else none

/-- The remaining variable takes over the bounds of the folded one where they are tighter. -/
def intersectBounds (t : Tableau α) (source target : Nat) : Checked (Tableau α) := do
  let lower ← t.lowerBound source
  let t ← if lower > (← t.lowerBound target) then t.tightenLower target lower else pure t
  let upper ← t.upperBound source
  if upper < (← t.upperBound target) then t.tightenUpper target upper else return t

/-- Fixes a non-basic variable at its value, which no equation depends on any more. -/
def freeze (t : Tableau α) (v : Nat) : Checked (Tableau α) := do
  let x ← Checked.getAt t.nonBasicValues (← t.split.positionOf v)
  (← t.setLower v x).setUpper v x

/-- Folds the column of `source` into that of `target`. -/
def fold (t : Tableau α) (source target : Nat) : Checked (Tableau α) := do
  let matrix ← t.matrix.mergeColumns source target
  let merges ← t.merges.record source target
  ({ t with matrix, merges }.freeze source)

/-- Merges `source` into `target`.  Both have to exist and to be non-basic. -/
def merge (t : Tableau α) (source target : Nat) : Attempt α Unit := do
  t.requireBasis
  Checked.require (source ≠ target) (.sameVariable source)
  match (t.mergeFailure? source).or (t.mergeFailure? target) with
  | some cause => return (.error cause, t)
  | none =>
    let t ← (t.remark (.merging source target)).intersectBounds source target
    let t ← t.fold source target
    match ← (t.count .mergedColumns).refactor with
    | (.error cause, t) => return (.error cause, t)
    | (.ok (), t) => return (.ok (), ← t.computeValues)

end BoundedSimplex.Tableau
