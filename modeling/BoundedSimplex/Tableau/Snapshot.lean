/-
  BoundedSimplex.Tableau.Snapshot — saving the state and returning to it.

  A snapshot is the state and nothing else.  The basis inverse is computed afresh on the way back,
  and prices and the selections of a pivot are dropped.
-/
import BoundedSimplex.Tableau.Refactor

namespace BoundedSimplex.Tableau

variable {α : Type} [Scalar α]

/-- The state of a tableau with a basis. -/
def save (t : Tableau α) : Checked (State α × Tableau α) := do
  t.requireBasis
  return (t.toState, t.remark (.storing t.rowCount t.varCount))

/-- Returns to a saved state.  If its basis has no usable inverse, nothing changes. -/
def restore (t : Tableau α) (s : State α) : Attempt α Unit := do
  let t := t.remark (.restoring s.rowCount s.varCount)
  let (result, inverse) ← t.inverse.startOver (← s.basisColumns)
  match result with
  | .error cause => return (.error (.factorization cause), { t with inverse })
  | .ok () =>
    let t :=
      { t with
        toState := s
        inverse
        pricing := t.pricing.invalidate
        multipliers := Scalar.zeros s.rowCount
        plan := .none
        hasBasis := true }.tellSize
    t.requireConsistent
    return (.ok (), t)

end BoundedSimplex.Tableau
