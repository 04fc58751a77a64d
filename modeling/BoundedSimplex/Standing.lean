/-
  BoundedSimplex.Standing — where the value of a basic variable is relative to its bounds.
-/
import BoundedSimplex.Scalar

namespace BoundedSimplex

/-- The five places of a value relative to a lower and an upper bound. -/
inductive Standing where
  | belowLower
  | atLower
  | between
  | atUpper
  | aboveUpper
deriving DecidableEq, Repr

namespace Standing

/-- All standings, from below to above. -/
def all : List Standing := [belowLower, atLower, between, atUpper, aboveUpper]

variable {α : Type} [Scalar α]

/-- The standing of a value, up to a tolerance.  Violations come first, the upper bound before the
    lower one, so a fixed variable at its value is at its upper bound. -/
def classify (value lower upper tolerance : α) : Standing :=
  if value - upper > tolerance then aboveUpper
  else if lower - value > tolerance then belowLower
  else if Scalar.magnitude (upper - value) ≤ tolerance then atUpper
  else if Scalar.magnitude (value - lower) ≤ tolerance then atLower
  else between

/-- A bound is violated. -/
def isOutOfBounds : Standing → Bool
  | belowLower | aboveUpper => true
  | atLower | between | atUpper => false

/-- Slope of the violation in the value: it falls below the lower bound as the value rises, and
    rises with it above the upper one. -/
def cost : Standing → α
  | belowLower => -1
  | aboveUpper => 1
  | atLower | between | atUpper => 0

end Standing

end BoundedSimplex
