/-
  BoundedSimplex.State — the equations, the bounds, and an assignment for them.

  A state holds the system `A x = b`, bounds on every variable, the split into basic and non-basic
  variables and a value for each.  It is what a search procedure saves and returns to.  How the
  basis inverse is represented, prices, and the selections of a pivot under way are not part of it.
-/
import BoundedSimplex.Basis.BasisSplit
import BoundedSimplex.Bounds
import BoundedSimplex.Linear.SystemMatrix
import BoundedSimplex.Merges
import BoundedSimplex.Standing

namespace BoundedSimplex

/-- The system and the assignment. -/
structure State (α : Type) where
  matrix : SystemMatrix α
  rightHandSide : List α
  bounds : Bounds α
  split : BasisSplit
  /-- Values of the basic variables, by row. -/
  basicValues : List α
  /-- Values of the other variables, by non-basic position. -/
  nonBasicValues : List α
  /-- Standings of the basic variables, by row. -/
  standings : List Standing
  /-- The basic values were computed for the present non-basic ones. -/
  settled : Bool
  merges : Merges
deriving BEq

namespace State

variable {α : Type} [Scalar α]

/-! ## §1.  Dimensions -/

/-- Number of rows. -/
def rowCount (s : State α) : Nat := s.matrix.rowCount

/-- Number of variables. -/
def varCount (s : State α) : Nat := s.matrix.columnCount

/-- Number of variables that are not basic. -/
def nonBasicCount (s : State α) : Nat := s.varCount - s.rowCount

/-- Zero equations for unbounded variables, without a basis. -/
def blank (m n : Nat) : State α :=
  { matrix := .zero m n
    rightHandSide := Scalar.zeros m
    bounds := .free n
    split := .blank m n
    basicValues := Scalar.zeros m
    nonBasicValues := Scalar.zeros (n - m)
    standings := List.replicate m .between
    settled := false
    merges := .none }

/-- The variable exists. -/
def requireVariable (s : State α) (v : Nat) : Checked Unit :=
  Checked.require (v < s.varCount) (.outOfRange v s.varCount)

/-- The variable is basic. -/
def requireBasic (s : State α) (v : Nat) : Checked Unit :=
  Checked.require (s.split.isBasic v) (.wrongRole v)

/-! ## §2.  Values -/

/-- The value stored for a variable. -/
def storedValue (s : State α) (v : Nat) : Checked α := do
  let i ← s.split.positionOf v
  if s.split.isBasic v then Checked.getAt s.basicValues i else Checked.getAt s.nonBasicValues i

/-- The value of a variable, that of the variable it was merged into if it was merged. -/
def value (s : State α) (v : Nat) : Checked α := do
  s.requireVariable v
  s.storedValue (s.merges.resolve v)

/-- The stored values of all variables. -/
def storedValues (s : State α) : Checked (List α) := (List.range s.varCount).mapM s.storedValue

/-! ## §3.  Standings -/

/-- The standing of the basic variable of a row, from its value and its bounds. -/
def standingAt (s : State α) (tolerance : α) (i : Nat) : Checked Standing := do
  let v ← s.split.basicAt i
  let x ← Checked.getAt s.basicValues i
  let l ← s.bounds.lower v
  let u ← s.bounds.upper v
  return .classify x l u tolerance

/-- The standings of all rows. -/
def allStandings (s : State α) (tolerance : α) : Checked (List Standing) :=
  (List.range s.rowCount).mapM (s.standingAt tolerance)

/-- The recorded standing of a basic variable. -/
def standingOf (s : State α) (v : Nat) : Checked Standing := do
  s.requireBasic v
  Checked.getAt s.standings (← s.split.positionOf v)

/-- A basic variable is recorded as violating a bound. -/
def existsOutOfBounds (s : State α) : Bool := s.standings.any (·.isOutOfBounds)

/-- Number of basic variables with a recorded standing. -/
def countStanding (s : State α) (standing : Standing) : Nat :=
  (s.standings.filter (· = standing)).length

/-- By how much the basic variable of a row violates the bound that it is recorded to violate. -/
def violation (s : State α) (standing : Standing) (slot : Option Nat) (x : α) : Checked α := do
  match standing with
  | .belowLower => return (← s.bounds.lower (← Checked.assigned slot)) - x
  | .aboveUpper => return x - (← s.bounds.upper (← Checked.assigned slot))
  | .atLower | .between | .atUpper => return 0

/-- The sum of the violations. -/
def infeasibility (s : State α) : Checked α := do
  let violations ← ((s.standings.zip s.split.basic).zip s.basicValues).mapM
    fun ((standing, slot), x) => s.violation standing slot x
  return Scalar.sum violations

/-! ## §4.  The basis and the equations -/

/-- The column of the variable of a row. -/
def basisColumn (s : State α) (i : Nat) : Checked (List α) := do
  s.matrix.column (← s.split.basicAt i)

/-- The columns of the basic variables, by row. -/
def basisColumns (s : State α) : Checked (List (List α)) :=
  s.split.basic.mapM fun slot => do s.matrix.column (← Checked.assigned slot)

/-- Takes the part of one non-basic variable out of a right-hand side. -/
def subtractPart (s : State α) (rhs : List α) (part : Nat × α) : Checked (List α) := do
  if part.2 == 0 then return rhs
  else (← s.matrix.sparseColumn part.1).addTo (-part.2) rhs

/-- What the basic variables have to make up for, `b - A_N x_N`. -/
def remainder (s : State α) : Checked (List α) :=
  (s.split.nonBasic.zip s.nonBasicValues).foldlM s.subtractPart s.rightHandSide

/-- The two sides of an equation differ by at most a tolerance, relative to the right one. -/
def holdsWithin (tolerance : α) (sides : α × α) : Bool :=
  decide (Scalar.magnitude (sides.1 - sides.2) ≤ tolerance * (1 + Scalar.magnitude sides.2))

/-- The recorded standing of a row is the one that its value has. -/
def standingMatches (s : State α) (boundTolerance : α) (i : Nat) : Checked Bool := do
  return (← Checked.getAt s.standings i) == (← s.standingAt boundTolerance i)

/-- The split is consistent, the equations hold within a tolerance, the standings match. -/
def isConsistent (s : State α) (boundTolerance tolerance : α) : Checked Bool := do
  if !s.split.isConsistent then
    return false
  else
    let products ← s.matrix.multiply (← s.storedValues)
    let standingsMatch ← (List.range s.rowCount).allM (s.standingMatches boundTolerance)
    return (products.zip s.rightHandSide).all (holdsWithin tolerance) && standingsMatch

end State

end BoundedSimplex
