/-
  BoundedSimplex.EnteringRule — which of the eligible variables enters the basis.

  A rule sees the non-basic indices that are eligible, in increasing order, and the reduced cost of
  every non-basic index.  Only one of the rules remembers anything.
-/
import BoundedSimplex.Contract
import BoundedSimplex.Scalar

namespace BoundedSimplex

/-- The rules, with what they remember. -/
inductive EnteringRule where
  /-- The first candidate. -/
  | first
  /-- The first candidate after the one that was chosen last, going around. -/
  | cyclic (last : Option Nat)
  /-- The candidate with the largest reduced cost in magnitude, the first one of equals. -/
  | steepest
deriving DecidableEq, Repr

namespace EnteringRule

variable {α : Type} [Scalar α]

/-- The first candidate after `last`, else the first one. -/
def nextAfter (last : Option Nat) (candidates : List Nat) : Option Nat :=
  (last.bind fun l => candidates.find? (l < ·)).or candidates.head?

/-- The better one of the best candidate so far and a further one, with their magnitudes. -/
def steeper (best : Option (Nat × α)) (candidate : Nat × α) : Option (Nat × α) :=
  match best with
  | some (j, x) => if candidate.2 ≤ x then some (j, x) else some candidate
  | none => some candidate

/-- The chosen candidate, and the rule with what it remembers afterwards. -/
def choose (rule : EnteringRule) (candidates : List Nat) (costs : List α) :
    Checked (Option Nat × EnteringRule) := do
  match rule with
  | first => return (candidates.head?, first)
  | cyclic last =>
    let chosen := nextAfter last candidates
    return (chosen, cyclic chosen)
  | steepest =>
    let weighed ← candidates.mapM fun j => return (j, Scalar.magnitude (← Checked.getAt costs j))
    return ((weighed.foldl steeper none).map (·.1), steepest)

end EnteringRule

end BoundedSimplex
