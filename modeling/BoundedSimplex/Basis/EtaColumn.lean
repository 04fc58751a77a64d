/-
  BoundedSimplex.Basis.EtaColumn — the identity matrix with one column replaced.

  Exchanging the column of a basis at position `p` for a column whose coordinates in that basis are
  `d` multiplies the basis on the right with the identity whose column `p` is `d`.  Systems with
  such a matrix are solved in one sweep over `d`.
-/
import BoundedSimplex.Contract
import BoundedSimplex.Scalar

namespace BoundedSimplex

/-- The replaced column: its entry at the pivot, and its other entries as far as they count. -/
structure EtaColumn (α : Type) where
  size : Nat
  pivot : Nat
  pivotValue : α
  others : List (Nat × α)
deriving Repr

namespace EtaColumn

variable {α : Type} [Scalar α]

/-- The column as it is kept: entries beside the pivot count if their magnitude is not
    negligible. -/
def ofColumn (pivot : Nat) (column : List α) : Checked (EtaColumn α) := do
  let pivotValue ← Checked.getAt column pivot
  Checked.require (¬(pivotValue == 0)) .zeroPivot
  let others := column.zipIdx.filter fun (x, i) =>
    i != pivot && decide (Scalar.magnitude x > Scalar.negligible)
  return ⟨column.length, pivot, pivotValue, others.map fun (x, i) => (i, x)⟩

/-- The vector has the size of the matrix. -/
def requireSize (e : EtaColumn α) (y : List α) : Checked Unit :=
  Checked.require (y.length = e.size) (.sizeMismatch y.length e.size)

/-! ## §1.  Solving -/

/-- Solves `x E = y`: only the entry at the pivot changes. -/
def solveRow? (e : EtaColumn α) (y : List α) : Checked (List α) := do
  e.requireSize y
  let subtract (rest : α) (entry : Nat × α) : Checked α :=
    return rest - (← Checked.getAt y entry.1) * entry.2
  let rest ← e.others.foldlM subtract (← Checked.getAt y e.pivot)
  Checked.setAt y e.pivot (rest / e.pivotValue)

/-- Solves `E x = y`. -/
def solveColumn? (e : EtaColumn α) (y : List α) : Checked (List α) := do
  e.requireSize y
  let x := (← Checked.getAt y e.pivot) / e.pivotValue
  let y ← Checked.setAt y e.pivot x
  if x == 0 then return y
  else e.others.foldlM (fun y (i, d) => Checked.modifyAt y i (· - d * x)) y

/-! ## §2.  The solutions -/

/-- What `solveRow?` finds for a vector of the right size. -/
def solveRow (e : EtaColumn α) (y : List α) : List α :=
  let rest := e.others.foldl (fun rest (i, d) => rest - y.getD i 0 * d) (y.getD e.pivot 0)
  y.set e.pivot (rest / e.pivotValue)

/-- What `solveColumn?` finds for a vector of the right size. -/
def solveColumn (e : EtaColumn α) (y : List α) : List α :=
  let x := y.getD e.pivot 0 / e.pivotValue
  let y := y.set e.pivot x
  if x == 0 then y else e.others.foldl (fun y (i, d) => y.modify i (· - d * x)) y

/-- A solve keeps the number of entries. -/
@[simp] theorem length_solveRow (e : EtaColumn α) (y : List α) :
    (e.solveRow y).length = y.length := by
  simp [solveRow]

@[simp] theorem length_solveColumn (e : EtaColumn α) (y : List α) :
    (e.solveColumn y).length = y.length := by
  have subtracting (x : α) (others : List (Nat × α)) (z : List α) :
      (others.foldl (fun z (i, d) => z.modify i (· - d * x)) z).length = z.length := by
    induction others generalizing z with
    | nil => rfl
    | cons o os ih => simp [ih]
  unfold solveColumn
  dsimp only
  split <;> simp [subtracting]

end EtaColumn

end BoundedSimplex
