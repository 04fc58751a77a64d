/-
  BoundedSimplex.Tableau.Values — computing and moving the values of variables.

  The basic values follow from the others.  They are computed afresh from the equations, or shifted
  along when one non-basic variable moves.
-/
import BoundedSimplex.Tableau.Refactor

namespace BoundedSimplex.Tableau

variable {α : Type} [Scalar α]

/-! ## §1.  Standings -/

/-- Records the standing of the basic variable of a row. -/
def classifyAt (t : Tableau α) (i : Nat) : Checked (Tableau α) := do
  let standing ← t.standingAt t.settings.boundTolerance i
  let standings ← Checked.setAt t.standings i standing
  return { t with standings }

/-- Records the standing of a basic variable. -/
def classify (t : Tableau α) (v : Nat) : Checked (Tableau α) := do
  t.requireBasic v
  t.classifyAt (← t.split.positionOf v)

/-- Records the standings of all rows, for which there has to be room. -/
def classifyAll (t : Tableau α) : Checked (Tableau α) := do
  Checked.require (t.rowCount ≤ t.standings.length) (.outOfRange t.rowCount t.standings.length)
  let standings ← t.allStandings t.settings.boundTolerance
  return { t with standings }

/-! ## §2.  All basic values at once -/

/-- Pairs the basic variables with their values. -/
def basicPairs (t : Tableau α) : Checked (List (Nat × α)) := do
  let vars ← t.split.basic.mapM Checked.assigned
  return vars.zip t.basicValues

/-- Solves the equations for the basic variables. -/
def computeValues (t : Tableau α) : Checked (Tableau α) := do
  Checked.require (t.inverse.size = t.rowCount) (.sizeMismatch t.inverse.size t.rowCount)
  let basicValues ← t.inverse.solveColumn (← t.remainder)
  let t := { t with basicValues, settled := true }.count .assignmentComputations
  let t := (← t.classifyAll).invalidatePrices
  return t.tellValues (← t.basicPairs)

/-- Overrides whether the basic values count as computed for the present non-basic ones. -/
def setSettled (t : Tableau α) (settled : Bool) : Tableau α := { t with settled }

/-! ## §3.  Moving one variable -/

/-- The basic values after a move by `delta`; rows that the column does not reach stay. -/
def shift (delta : α) : List α → List α → List α
  | x :: xs, c :: cs => (if c == 0 then x else x - c * delta) :: shift delta xs cs
  | xs, [] => xs
  | [], _ => []

@[simp] theorem length_shift (delta : α) (xs column : List α) :
    (shift delta xs column).length = xs.length := by
  induction xs generalizing column with
  | nil => cases column <;> rfl
  | cons x xs ih => cases column <;> simp [shift, ih]

/-- The variables of the rows that a column moves, with their values. -/
def movedPairs (t : Tableau α) (column : List α) : Checked (List (Nat × α)) :=
  (column.zipIdx.filter fun (c, _) => !(c == 0)).mapM fun (_, i) => do
    return (← t.split.basicAt i, ← Checked.getAt t.basicValues i)

/-- Lets the basic variables follow the move of a non-basic variable. -/
def followMove (t : Tableau α) (v : Nat) (delta : α) : Checked (Tableau α) := do
  if delta == 0 then return t
  else
    let column ← t.inverse.solveColumn (← t.matrix.column v)
    let t := { t with basicValues := shift delta t.basicValues column }
    (t.tellValues (← t.movedPairs column)).classifyAll

/-- Moves a non-basic variable.  Either the basic variables follow, or their values are no longer
    those that the equations ask for. -/
def moveNonBasic (t : Tableau α) (v : Nat) (x : α) (follow : Bool) : Checked (Tableau α) := do
  Checked.require (t.split.isBasic v = false) (.wrongRole v)
  let j ← t.split.positionOf v
  let old ← Checked.getAt t.nonBasicValues j
  let moved := { t with nonBasicValues := t.nonBasicValues.set j x }
  let t := (moved.remark (.movingNonBasic v x)).tellValue v x
  let t ← if follow then t.followMove v (x - old) else pure (t.setSettled false)
  return t.invalidatePrices

end BoundedSimplex.Tableau
