/-
  BoundedSimplex.Tableau.Growth — adding an equation to a tableau with a basis.

  The equation `Σ c x = scalar` becomes the row `Σ c x - aux = scalar` with a new variable that
  stands for its residual.  The new variable is basic in the new row; its bounds and its value are
  those of the residual, so no assignment is lost and none has to change.
-/
import BoundedSimplex.Tableau.Refactor
import BoundedSimplex.Tableau.Values

namespace BoundedSimplex.Tableau

variable {α : Type} [Scalar α]

/-- The matrix with a row for the equation and a column for the new variable, which has to be the
    last one.  Terms in the same variable add up. -/
def extendMatrix (a : SystemMatrix α) (e : LinearEquation α) (aux : Nat) :
    Checked (SystemMatrix α) := do
  let grown := (← a.appendRow).appendColumn
  Checked.require (aux = grown.columnCount - 1) (.misplaced aux (grown.columnCount - 1))
  let filled ← e.terms.foldlM (fun b t => b.addEntry a.rowCount t.var t.coefficient) grown
  filled.set a.rowCount aux (-1)

/-- The new variable, and the state with it and with the equation.  The variable has the
    given bounds and value. -/
def extendState (t : Tableau α) (e : LinearEquation α) (lower upper x : α) :
    Checked (Nat × Tableau α) := do
  let (aux, split) := t.split.addBasic
  let matrix ← extendMatrix t.matrix e aux
  let bounds ← t.bounds.push lower upper
  let t :=
    { t with
      matrix, bounds, split
      rightHandSide := t.rightHandSide ++ [e.scalar]
      basicValues := t.basicValues ++ [x]
      standings := t.standings ++ [Standing.between]
      multipliers := t.multipliers ++ [0] }
  return (aux, ← t.classifyAt (t.rowCount - 1))

/-- Adds an equation and returns the new variable.  Merged variables are read through the variables
    they were merged into.  If the new basis has no usable inverse, the row stays. -/
def addEquation (t : Tableau α) (e : LinearEquation α) : Attempt α Nat := do
  t.requireBasis
  match e.terms.find? fun term => t.varCount ≤ term.var with
  | some term => return (.error (.unknownVariable term.var t.varCount), t)
  | none =>
    let e := e.rename t.merges.resolve
    let (lower, upper) ← e.residualBounds t.bounds.lower t.bounds.upper
    let x ← e.residual t.storedValue
    let (aux, t) ← (t.remark (.addingEquation e)).extendState e lower upper x
    let t := (t.clearPlan.invalidatePrices.count .addedRows).tellSize
    let t := ((t.tellLower aux lower).tellUpper aux upper).tellValue aux x
    match ← t.refactor with
    | (.ok (), t) => return (.ok aux, t)
    | (.error cause, t) => return (.error cause, t)

end BoundedSimplex.Tableau
