/-
  BoundedSimplex.Linear.LinearEquation — an equation `c₁ x₁ + c₂ x₂ + … = scalar`.

  A variable may occur in several terms.  How far an assignment is from satisfying the equation is
  its residual; bounds on the variables give bounds on the residual.
-/
import BoundedSimplex.Contract
import BoundedSimplex.Numeral

namespace BoundedSimplex

/-- A coefficient times a variable. -/
structure Term (α : Type) where
  coefficient : α
  var : Nat
deriving BEq, Repr

/-- A sum of terms and the number it has to be equal to. -/
structure LinearEquation (α : Type) where
  terms : List (Term α)
  scalar : α
deriving BEq, Repr

namespace LinearEquation

variable {α : Type} [Scalar α]

/-- The equation `0 = 0`. -/
def trivial : LinearEquation α := ⟨[], 0⟩

/-- One more term, at the end. -/
def addTerm (e : LinearEquation α) (coefficient : α) (var : Nat) : LinearEquation α :=
  { e with terms := e.terms ++ [⟨coefficient, var⟩] }

/-- The same terms and another right-hand side. -/
def withScalar (e : LinearEquation α) (scalar : α) : LinearEquation α := { e with scalar }

/-- The equation over other names of the variables. -/
def rename (e : LinearEquation α) (f : Nat → Nat) : LinearEquation α :=
  { e with terms := e.terms.map fun t => { t with var := f t.var } }

/-! ## §1.  The residual -/

/-- The sum of the terms less the right-hand side. -/
def residual (e : LinearEquation α) (value : Nat → Checked α) : Checked α := do
  let products ← e.terms.mapM fun t => return t.coefficient * (← value t.var)
  return Scalar.sum products - e.scalar

/-- Extends an interval by one term.  A term that is zero whatever its variable is adds nothing, and
    a negative coefficient takes the bounds in reverse. -/
def extendInterval (lower upper : Nat → Checked α) (interval : α × α) (t : Term α) :
    Checked (α × α) := do
  if t.coefficient == 0 then
    return interval
  else
    let l ← lower t.var
    let u ← upper t.var
    if 0 < t.coefficient then
      return (interval.1 + t.coefficient * l, interval.2 + t.coefficient * u)
    else
      return (interval.1 + t.coefficient * u, interval.2 + t.coefficient * l)

/-- The interval of the residual when every variable stays within its bounds. -/
def residualBounds (e : LinearEquation α) (lower upper : Nat → Checked α) : Checked (α × α) :=
  e.terms.foldlM (extendInterval lower upper) (-e.scalar, -e.scalar)

/-! ## §2.  The text -/

/-- The terms, then the right-hand side. -/
def text [Written α] (e : LinearEquation α) : String :=
  let term (t : Term α) : String := s!"{Written.shortest t.coefficient} x{t.var}"
  String.intercalate " + " (e.terms.map term) ++ " = " ++ Written.shortest e.scalar

end LinearEquation

end BoundedSimplex
