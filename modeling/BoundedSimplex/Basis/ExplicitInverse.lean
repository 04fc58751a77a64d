/-
  BoundedSimplex.Basis.ExplicitInverse — the inverse of the basis, written out.

  An exchange is one elimination step on the rows of the inverse.
-/
import BoundedSimplex.Basis.TriangularFactors
import BoundedSimplex.Contract

namespace BoundedSimplex

/-- The rows of the inverse, and the number of exchanges since they were computed. -/
structure ExplicitInverse (α : Type) where
  rows : List (List α)
  exchanges : Nat
  /-- Number of exchanges after which starting over is recommended. -/
  threshold : Nat
deriving Repr

namespace ExplicitInverse

variable {α : Type} [Scalar α]

/-- The identity of dimension `m`. -/
def identity (m threshold : Nat) : ExplicitInverse α :=
  ⟨(List.range m).map (Scalar.unit m), 0, threshold⟩

/-- Number of rows. -/
def size (f : ExplicitInverse α) : Nat := f.rows.length

/-- Solves `B x = y`: every unknown is a row of the inverse times `y`. -/
def solveColumn (f : ExplicitInverse α) (y : List α) : List α := f.rows.map (Scalar.dot · y)

/-- Adds a multiple of a row to a row of the same length. -/
def addMultiple (target : List α) (factor : α) (row : List α) : List α :=
  List.zipWith (fun t x => t + factor * x) target row

/-- Solves `x B = y`: the sum of the multiples of the rows of the inverse. -/
def solveRow (f : ExplicitInverse α) (y : List α) : List α :=
  (f.rows.zip y).foldl (fun x (row, factor) => if factor == 0 then x else addMultiple x factor row)
    (Scalar.zeros f.size)

/-- A row after an exchange: the pivot row is scaled, the column is cleared everywhere else. -/
def reduceRow (pivot : Nat) (pivotRow : List α) (i : Nat) (c : α) (row : List α) : List α :=
  if i = pivot then pivotRow
  else if c == 0 then row
  else List.zipWith (fun x p => x - c * p) row pivotRow

/-- Scales the pivot row, then clears the column everywhere else. -/
def reduce? (rows : List (List α)) (pivot : Nat) (pivotValue : α) (column : List α) :
    Checked (List (List α)) := do
  let pivotRow := (← Checked.getAt rows pivot).map (· / pivotValue)
  return (← Checked.zip? column rows).mapIdx fun i (c, row) => reduceRow pivot pivotRow i c row

/-- What `reduce?` finds if there is a pivot row, and a row for every entry of the column. -/
def reduce (rows : List (List α)) (pivot : Nat) (pivotValue : α) (column : List α) :
    List (List α) :=
  let pivotRow := (rows.getD pivot []).map (· / pivotValue)
  (rows.zip column).mapIdx fun i (row, c) => reduceRow pivot pivotRow i c row

/-- One exchange. -/
def update (f : ExplicitInverse α) (index : Nat) (column : List α) :
    Checked (ExplicitInverse α) := do
  let pivotValue ← Checked.getAt column index
  Checked.require (¬(pivotValue == 0)) .zeroPivot
  let rows ← reduce? f.rows index pivotValue column
  return { f with rows, exchanges := f.exchanges + 1 }

/-- Starts over from the columns of the current basis.  The inverse stays as it is if they have
    none. -/
def startOver (f : ExplicitInverse α) (columns : List (List α)) :
    Checked (Except FactorizationFailure Unit × ExplicitInverse α) := do
  match ← TriangularFactors.ofColumns? columns with
  | .error cause => return (.error cause, f)
  | .ok factors =>
    let rows ← (List.range columns.length).mapM fun i =>
      factors.solveRow? (Scalar.unit columns.length i)
    return (.ok (), { f with rows, exchanges := 0 })

/-- What `startOver` finds. -/
def refresh (f : ExplicitInverse α) (columns : List (List α)) :
    Except FactorizationFailure (ExplicitInverse α) := do
  let factors ← TriangularFactors.ofColumns columns
  let rows := (List.range columns.length).map fun i =>
    factors.solveRow (Scalar.unit columns.length i)
  return { f with rows, exchanges := 0 }

end ExplicitInverse

end BoundedSimplex
