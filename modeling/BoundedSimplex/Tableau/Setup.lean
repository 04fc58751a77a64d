/-
  BoundedSimplex.Tableau.Setup — equations, bounds and a first basis.
-/
import BoundedSimplex.Tableau.Prices

namespace BoundedSimplex.Tableau

variable {α : Type} [Scalar α]

/-! ## §1.  The equations -/

/-- Starts over with zero equations for unbounded variables.  Watchers and statistics stay. -/
def setSize (t : Tableau α) (m n : Nat) : Checked (Tableau α) := do
  Checked.require (m ≤ n) (.tooManyRows m n)
  Checked.requireRoom (max (m * n) n)
  let t :=
    { t with
      toState := .blank m n
      pricing := t.pricing.invalidate
      multipliers := Scalar.zeros m
      plan := .none
      hasBasis := false }
  return (t.remark (.dimensions m n)).tellSize

/-- Replaces all coefficients, given row after row. -/
def setCoefficients (t : Tableau α) (xs : List α) : Checked (Tableau α) := do
  let matrix ← SystemMatrix.ofRowMajor xs t.rowCount t.varCount
  return { t with matrix }

/-- Replaces one coefficient. -/
def setCoefficient (t : Tableau α) (i j : Nat) (x : α) : Checked (Tableau α) := do
  let matrix ← t.matrix.set i j x
  return { t with matrix }

/-- Replaces the right-hand side. -/
def setRightHandSide (t : Tableau α) (xs : List α) : Checked (Tableau α) := do
  Checked.require (xs.length = t.rowCount) (.sizeMismatch xs.length t.rowCount)
  return { t with rightHandSide := xs }

/-- Replaces one entry of the right-hand side. -/
def setRightHandSideAt (t : Tableau α) (i : Nat) (x : α) : Checked (Tableau α) := do
  let rightHandSide ← Checked.setAt t.rightHandSide i x
  return { t with rightHandSide }

/-! ## §2.  The basis -/

/-- Makes a variable basic, in a row still to be assigned. -/
def markBasic (t : Tableau α) (v : Nat) : Checked (Tableau α) := do
  t.requireNoBasis
  let split ← t.split.markBasic v
  return { t with split }

/-- Gives a variable that was made basic its row. -/
def assignRow (t : Tableau α) (v i : Nat) : Checked (Tableau α) := do
  t.requireNoBasis
  let split ← t.split.assignRow v i
  return { t with split }

/-- Completes the setup once the basic variables have their rows: the other variables start at a
    bound if they have one, the inverse is computed, and values and costs are derived from it. -/
def start (t : Tableau α) : Attempt α Unit := do
  let marked := t.split.basicSet.size
  if marked ≠ t.rowCount then
    return (.error (.basisSize t.rowCount marked), t)
  else
    let split ← t.split.listNonBasic
    Checked.require (split.isConsistent = true) .brokenPartition
    let nonBasicValues ← split.nonBasic.mapM t.bounds.startValue
    let t :=
      { t with
        split, nonBasicValues
        basicValues := Scalar.zeros t.rowCount
        standings := List.replicate t.rowCount .between }
    match ← t.refactor with
    | (.error cause, t) => return (.error cause, t)
    | (.ok (), t) =>
      let t ← { t with hasBasis := true, plan := .none }.computeValues
      let t ← t.computePrices
      t.requireConsistent
      return (.ok (), t)

/-- Gives variable `vs[i]` row `i`, one after the other. -/
def assignRows (t : Tableau α) (vs : List Nat) : Checked (Tableau α) :=
  vs.zipIdx.foldlM (fun t (v, i) => do (← t.markBasic v).assignRow v i) t

/-- Number of different variables in a list. -/
def countDistinct (vs : List Nat) : Nat := vs.eraseDups.length

/-- Starts from a basis: variable `vs[i]` gets row `i`. -/
def startFrom (t : Tableau α) (vs : List Nat) : Attempt α Unit := do
  match vs.find? (t.varCount ≤ ·) with
  | some v => return (.error (.unknownVariable v t.varCount), t)
  | none =>
    if vs.length ≠ t.rowCount ∨ countDistinct vs ≠ t.rowCount then
      return (.error (.basisSize t.rowCount (countDistinct vs)), t)
    else
      let split := BasisSplit.blank t.rowCount t.varCount
      (← { t with split, hasBasis := false }.assignRows vs).start

end BoundedSimplex.Tableau
