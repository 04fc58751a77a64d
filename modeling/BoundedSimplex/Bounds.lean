/-
  BoundedSimplex.Bounds — lower and upper bounds of all variables.

  An absent bound is infinite.  Next to the bounds stands the set of the variables whose lower bound
  exceeds the upper one; it is a record of the last check of each variable.
-/
import BoundedSimplex.Contract
import BoundedSimplex.IndexSet
import BoundedSimplex.Scalar

namespace BoundedSimplex

/-- The bounds by variable, and the variables whose bounds contradict each other. -/
structure Bounds (α : Type) where
  lowers : List α
  uppers : List α
  contradictory : IndexSet
deriving BEq

namespace Bounds

variable {α : Type} [Scalar α]

/-! ## §1.  Reading -/

/-- `n` variables without bounds. -/
def free (n : Nat) : Bounds α :=
  ⟨List.replicate n (-Scalar.infinity), List.replicate n Scalar.infinity, .empty⟩

/-- `free`, if there is room for so many variables. -/
def free? (n : Nat) : Checked (Bounds α) := do
  Checked.requireRoom n
  return free n

/-- The lower bound of a variable. -/
def lower (b : Bounds α) (v : Nat) : Checked α := Checked.getAt b.lowers v

/-- The upper bound of a variable. -/
def upper (b : Bounds α) (v : Nat) : Checked α := Checked.getAt b.uppers v

/-- No variable is on record with contradictory bounds. -/
def allValid (b : Bounds α) : Bool := b.contradictory.toList.isEmpty

/-- Where a variable starts when it is not basic: at its lower bound, else at its upper bound, else
    at zero. -/
def startValue (b : Bounds α) (v : Nat) : Checked α := do
  let l ← b.lower v
  let u ← b.upper v
  return if Scalar.isFinite l then l else if Scalar.isFinite u then u else 0

/-! ## §2.  Validity -/

/-- Records whether the bounds of a variable contradict each other. -/
def mark (b : Bounds α) (v : Nat) (contradiction : Bool) : Bounds α :=
  { b with
    contradictory := if contradiction then b.contradictory.insert v else b.contradictory.erase v }

/-- Checks the bounds of one variable, and says whether they are valid. -/
def check (b : Bounds α) (v : Nat) : Checked (Bool × Bounds α) := do
  let l ← b.lower v
  let u ← b.upper v
  return (!decide (l > u), b.mark v (decide (l > u)))

/-- Checks the bounds of all variables, and says whether all are valid. -/
def checkAll (b : Bounds α) : Checked (Bool × Bounds α) := do
  let b ← (List.range b.lowers.length).foldlM (fun b v => return (← b.check v).2) b
  return (b.allValid, b)

/-! ## §3.  Writing -/

/-- Replaces the lower bound of a variable and checks it. -/
def setLower (b : Bounds α) (v : Nat) (x : α) : Checked (Bounds α) := do
  let lowers ← Checked.setAt b.lowers v x
  return (← { b with lowers }.check v).2

/-- Replaces the upper bound of a variable and checks it. -/
def setUpper (b : Bounds α) (v : Nat) (x : α) : Checked (Bounds α) := do
  let uppers ← Checked.setAt b.uppers v x
  return (← { b with uppers }.check v).2

/-- One more variable, with the given bounds. -/
def push (b : Bounds α) (l u : α) : Checked (Bounds α) := do
  return (← { b with lowers := b.lowers ++ [l], uppers := b.uppers ++ [u] }.check b.lowers.length).2

end Bounds

end BoundedSimplex
