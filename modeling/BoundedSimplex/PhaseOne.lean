/-
  BoundedSimplex.PhaseOne — the search for an assignment within all bounds.

  As long as a basic variable violates a bound, an eligible variable enters and a pivot lowers the
  violation.  If no variable is eligible, the bounds cannot all be met.
-/
import BoundedSimplex.Tableau.Pivot

namespace BoundedSimplex

/-- How the search ended. -/
inductive Verdict where
  | feasible
  | infeasible
  | iterationLimit
deriving DecidableEq, Repr

/-- One iteration of the search: who entered, who left, how far the former was to move, and the
    violation before the pivot. -/
structure Iteration (α : Type) where
  entering : Option Nat
  leaving : Option Nat
  distance : α
  infeasibility : α
deriving Repr

/-- The verdict, the iterations, the rule with what it remembers, and the tableau. -/
structure SearchResult (α : Type) [Scalar α] where
  verdict : Verdict
  trace : List (Iteration α)
  rule : EnteringRule
  tableau : Tableau α

namespace Tableau

variable {α : Type} [Scalar α]

/-- Computes the costs if they cannot be relied on. -/
def ensurePrices (t : Tableau α) : Checked (Tableau α) :=
  if t.pricing.stale then t.computePrices else return t

/-- The selected pivot as an iteration of the search. -/
def iteration (t : Tableau α) : Checked (Iteration α) := do
  return ⟨← t.enteringVariable, ← t.leavingVariable, t.plan.distance, ← t.infeasibility⟩

/-- Selects the leaving variable and pivots.  With its row, the costs can be followed. -/
def leaveAndPivot (t : Tableau α) (withRow : Bool) : Checked (Iteration α × Tableau α) := do
  let t ← (← t.computeColumn).chooseLeaving
  let iteration ← t.iteration
  let t ← if withRow && !t.isFake then t.computeRow else pure t
  return (iteration, ← t.performPivot)

/-- Searches for at most the given number of iterations. -/
def search (withRow : Bool) : Nat → EnteringRule → Tableau α → Checked (SearchResult α)
  | 0, rule, t => return ⟨.iterationLimit, [], rule, t⟩
  | limit + 1, rule, t => do
    if t.existsOutOfBounds then
      let (found, rule, t) ← (← t.ensurePrices).chooseEntering rule
      if found then
        let (iteration, t) ← t.leaveAndPivot withRow
        let result ← search withRow limit rule t
        return { result with trace := iteration :: result.trace }
      else
        return ⟨.infeasible, [], rule, t⟩
    else
      return ⟨.feasible, [], rule, t⟩

end Tableau

end BoundedSimplex
