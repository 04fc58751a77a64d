/-
  BoundedSimplex.Basis.ProductForm — triangular factors of a past basis, and the exchanges since.

  The current basis is `B₀ E₁ E₂ … E_k`: the factored basis times one eta column per exchange.
-/
import BoundedSimplex.Basis.EtaColumn
import BoundedSimplex.Basis.TriangularFactors
import BoundedSimplex.Numeral

namespace BoundedSimplex

/-- The factors of `B₀` and the eta columns, the oldest one first. -/
structure ProductForm (α : Type) where
  factors : TriangularFactors α
  etas : List (EtaColumn α)
  /-- Number of exchanges after which starting over is recommended. -/
  threshold : Nat
deriving Repr

namespace ProductForm

variable {α : Type} [Scalar α]

/-- The identity of dimension `m`. -/
def identity (m threshold : Nat) : ProductForm α := ⟨.identity m, [], threshold⟩

/-- Number of rows. -/
def size (f : ProductForm α) : Nat := f.factors.size

/-- Solves `B x = y`: first with the factors, then with the eta columns from the oldest on. -/
def solveColumn? (f : ProductForm α) (y : List α) : Checked (List α) := do
  f.etas.foldlM (fun x e => e.solveColumn? x) (← f.factors.solveColumn? y)

/-- Solves `x B = y`: first with the eta columns from the newest on, then with the factors. -/
def solveRow? (f : ProductForm α) (y : List α) : Checked (List α) := do
  f.factors.solveRow? (← f.etas.foldrM (fun e x => e.solveRow? x) y)

/-- What `solveColumn?` finds if the parts fit together. -/
def solveColumn (f : ProductForm α) (y : List α) : List α :=
  f.etas.foldl (fun x e => e.solveColumn x) (f.factors.solveColumn y)

/-- What `solveRow?` finds if the parts fit together. -/
def solveRow (f : ProductForm α) (y : List α) : List α :=
  f.factors.solveRow (f.etas.foldr (fun e x => e.solveRow x) y)

/-- One more exchange. -/
def update (f : ProductForm α) (index : Nat) (column : List α) : Checked (ProductForm α) := do
  let eta ← EtaColumn.ofColumn index column
  return { f with etas := f.etas ++ [eta] }

/-- Starts over from the columns of the current basis.  The factors stay as they are if the columns
    have none. -/
def startOver (f : ProductForm α) (columns : List (List α)) :
    Checked (Except FactorizationFailure Unit × ProductForm α) := do
  match ← TriangularFactors.ofColumns? columns with
  | .error cause => return (.error cause, f)
  | .ok factors => return (.ok (), { f with factors, etas := [] })

/-- What `startOver` finds. -/
def refresh (f : ProductForm α) (columns : List (List α)) :
    Except FactorizationFailure (ProductForm α) := do
  let factors ← TriangularFactors.ofColumns columns
  return { f with factors, etas := [] }

/-- Dimension and number of exchanges, the permutation, and the packed triangles as a table. -/
def text [Written α] (f : ProductForm α) : String :=
  let line (row : List α) : String := String.intercalate " " (row.map Written.column) ++ "\n"
  s!"LU ({f.size} x {f.size}), {f.etas.length} updates\n"
    ++ s!"P: {Numeral.indexList f.factors.order}\n" ++ String.join (f.factors.packed.map line)

end ProductForm

end BoundedSimplex
