/-
  BoundedSimplex.Tableau.Refactor — starting the basis inverse over, and reading it.
-/
import BoundedSimplex.Tableau.Basic

namespace BoundedSimplex.Tableau

variable {α : Type} [Scalar α]

/-- Computes the basis inverse from the columns of the basic variables.  The old one stays if the
    basis is singular. -/
def refactor (t : Tableau α) : Attempt α Unit := do
  let columns ← t.basisColumns
  let (result, inverse) ← t.inverse.startOver columns
  match result with
  | .ok () =>
    let t := { t with inverse }.remark (.refreshed t.rowCount t.inverse.exchanges)
    return (.ok (), t.count .refactorizations)
  | .error cause =>
    return (.error (.factorization cause), { t with inverse }.remark (.refreshFailed cause))

/-- Starts over if enough exchanges went by.  If that fails, the old inverse stays in use. -/
def refactorIfDue (t : Tableau α) : Checked (Tableau α) := do
  if t.inverse.isDue then
    match ← t.refactor with
    | (.ok (), t) => return t
    | (.error cause, t) => return t.remark (.exchangedKept cause)
  else
    return t

/-- Solves `x B = costs` for costs of the basic variables, and keeps the result. -/
def computeMultipliers (t : Tableau α) (costs : List α) : Checked (Tableau α) := do
  Checked.require (costs.length = t.rowCount) (.sizeMismatch costs.length t.rowCount)
  let multipliers ← t.inverse.solveRow costs
  return { t with multipliers }

/-- The basic variable of a row, expressed through the non-basic ones: with `ρ` the row of the
    inverse, the scalar is `ρ b` and the coefficient of a variable is `-(ρ A_j)`. -/
def solvedRow (t : Tableau α) (i : Nat) : Checked (SolvedRow α) := do
  Checked.require (i < t.rowCount) (.outOfRange i t.rowCount)
  let rho ← t.inverse.solveRow (Scalar.unit t.rowCount i)
  let coefficients ← t.split.nonBasic.mapM fun v => do
    return (v, -(← (← t.matrix.sparseColumn v).dot rho))
  return ⟨i, ← t.split.slotAt i, Scalar.dot rho t.rightHandSide, coefficients⟩

end BoundedSimplex.Tableau
