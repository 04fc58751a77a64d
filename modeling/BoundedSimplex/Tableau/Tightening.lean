/-
  BoundedSimplex.Tableau.Tightening — changing the bounds of variables.

  Setting a bound leaves the assignment alone.  Tightening one takes effect at once: a non-basic
  variable that violates its new bound moves onto it, a basic one gets a new standing.
-/
import BoundedSimplex.Tableau.Values

namespace BoundedSimplex.Tableau

variable {α : Type} [Scalar α]

/-! ## §1.  Reading -/

/-- The lower bound of a variable. -/
def lowerBound (t : Tableau α) (v : Nat) : Checked α := do
  t.requireVariable v
  t.bounds.lower v

/-- The upper bound of a variable. -/
def upperBound (t : Tableau α) (v : Nat) : Checked α := do
  t.requireVariable v
  t.bounds.upper v

/-! ## §2.  Setting -/

/-- Replaces the lower bound of a variable. -/
def setLower (t : Tableau α) (v : Nat) (x : α) : Checked (Tableau α) := do
  t.requireVariable v
  let bounds ← t.bounds.setLower v x
  return { t with bounds }.tellLower v x

/-- Replaces the upper bound of a variable. -/
def setUpper (t : Tableau α) (v : Nat) (x : α) : Checked (Tableau α) := do
  t.requireVariable v
  let bounds ← t.bounds.setUpper v x
  return { t with bounds }.tellUpper v x

/-- Checks the bounds of one variable, and says whether they are valid. -/
def checkBounds (t : Tableau α) (v : Nat) : Checked (Bool × Tableau α) := do
  let (valid, bounds) ← t.bounds.check v
  return (valid, { t with bounds })

/-- Checks the bounds of all variables, and says whether all are valid. -/
def checkAllBounds (t : Tableau α) : Checked (Bool × Tableau α) := do
  let (valid, bounds) ← t.bounds.checkAll
  return (valid, { t with bounds })

/-! ## §3.  Tightening -/

/-- Records the standing of a row anew.  Costs go stale if it changed. -/
def restand (t : Tableau α) (i : Nat) : Checked (Tableau α) := do
  let before ← Checked.getAt t.standings i
  let t ← t.classifyAt i
  let after ← Checked.getAt t.standings i
  return if after = before then t else t.invalidatePrices

/-- What a new bound of a variable does to the assignment. -/
def enforce (t : Tableau α) (v : Nat) (bound : α) (violated : α → Bool) : Checked (Tableau α) := do
  let t := t.count .boundTightenings
  if t.hasBasis then
    let i ← t.split.positionOf v
    if t.split.isBasic v then t.restand i
    else
      let x ← Checked.getAt t.nonBasicValues i
      if violated x then t.moveNonBasic v bound true else return t
  else
    return t

/-- Raises the lower bound of a variable. -/
def tightenLower (t : Tableau α) (v : Nat) (x : α) : Checked (Tableau α) := do
  let t ← (t.remark (.tighteningLower v x)).setLower v x
  t.enforce v x fun current => decide (current < x)

/-- Lowers the upper bound of a variable. -/
def tightenUpper (t : Tableau α) (v : Nat) (x : α) : Checked (Tableau α) := do
  let t ← (t.remark (.tighteningUpper v x)).setUpper v x
  t.enforce v x fun current => decide (current > x)

end BoundedSimplex.Tableau
