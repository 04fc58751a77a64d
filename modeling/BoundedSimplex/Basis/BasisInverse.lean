/-
  BoundedSimplex.Basis.BasisInverse — what the tableau knows about the inverse of its basis.

  Both representations answer the same questions: solve with the basis from either side, follow the
  exchange of one column, start over from all columns.
-/
import BoundedSimplex.Basis.ExplicitInverse
import BoundedSimplex.Basis.ProductForm

namespace BoundedSimplex

/-- A representation of the inverse of a basis. -/
inductive BasisInverse (α : Type) where
  | product (form : ProductForm α)
  | explicit (inverse : ExplicitInverse α)
deriving Repr

namespace BasisInverse

variable {α : Type} [Scalar α]

/-! ## §1.  Making one, its size and its age -/

/-- The inverse of the identity by factors, if there is room for the square. -/
def productIdentity? (m threshold : Nat) : Checked (BasisInverse α) := do
  Checked.requireRoom (m * m)
  return product (.identity m threshold)

/-- The inverse of the identity written out, if there is room for the square. -/
def explicitIdentity? (m threshold : Nat) : Checked (BasisInverse α) := do
  Checked.requireRoom (m * m)
  return explicit (.identity m threshold)

/-- Number of rows of the basis. -/
def size : BasisInverse α → Nat
  | product f => f.size
  | explicit f => f.size

/-- Number of exchanges since the last fresh start. -/
def exchanges : BasisInverse α → Nat
  | product f => f.etas.length
  | explicit f => f.exchanges

/-- Number of exchanges after which a fresh start is recommended. -/
def threshold : BasisInverse α → Nat
  | product f => f.threshold
  | explicit f => f.threshold

/-- A fresh start is recommended. -/
def isDue (f : BasisInverse α) : Bool := f.threshold ≤ f.exchanges

/-- The list has an entry per row of the basis. -/
def requireSize (f : BasisInverse α) (y : List α) : Checked Unit :=
  Checked.require (y.length = f.size) (.sizeMismatch y.length f.size)

/-! ## §2.  Solving -/

/-- Solves `B x = y`. -/
def solveColumn (f : BasisInverse α) (y : List α) : Checked (List α) := do
  f.requireSize y
  match f with
  | product f => f.solveColumn? y
  | explicit f => return f.solveColumn y

/-- Solves `x B = y`. -/
def solveRow (f : BasisInverse α) (y : List α) : Checked (List α) := do
  f.requireSize y
  match f with
  | product f => f.solveRow? y
  | explicit f => return f.solveRow y

/-- The rows of the inverse. -/
def rows : BasisInverse α → Checked (List (List α))
  | product f => (List.range f.size).mapM fun i => f.solveRow? (Scalar.unit f.size i)
  | explicit f => return f.rows

/-! ## §3.  Following the basis -/

/-- Exchanges the column at a position for one whose coordinates in the current basis are given. -/
def update (f : BasisInverse α) (index : Nat) (column : List α) : Checked (BasisInverse α) := do
  Checked.require (index < f.size) (.outOfRange index f.size)
  f.requireSize column
  match f with
  | product f => return product (← f.update index column)
  | explicit f => return explicit (← f.update index column)

/-- Starts over from the columns of the current basis.  Nothing changes if they have no usable
    inverse. -/
def startOver (f : BasisInverse α) (columns : List (List α)) :
    Checked (Except FactorizationFailure Unit × BasisInverse α) := do
  match f with
  | product f =>
    let (result, f) ← f.startOver columns
    return (result, product f)
  | explicit f =>
    let (result, f) ← f.startOver columns
    return (result, explicit f)

/-- What `startOver` finds: a representation, or why there is none. -/
def refresh (f : BasisInverse α) (columns : List (List α)) :
    Except FactorizationFailure (BasisInverse α) :=
  match f with
  | product f => (f.refresh columns).map product
  | explicit f => (f.refresh columns).map explicit

end BasisInverse

end BoundedSimplex
