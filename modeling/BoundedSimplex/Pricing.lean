/-
  BoundedSimplex.Pricing — the reduced cost of every non-basic variable.

  Phase one minimises the total violation of the bounds.  Its slope in each non-basic variable is a
  reduced cost; moving a variable against the sign of its cost lowers the violation.  Costs are
  computed from the basis, followed through an exchange where that is possible, and otherwise stale.
-/
import BoundedSimplex.Basis.BasisInverse
import BoundedSimplex.Journal
import BoundedSimplex.SolvedRow
import BoundedSimplex.State

namespace BoundedSimplex

/-- Where costs come from.  The violation of the bounds is the library's own source; a caller may
    register another one in its place.  The other two stand for such sources: the library does not
    define them, and a caller can define more. -/
inductive PricingRule (α : Type) where
  /-- The violation of the bounds by the basic variables. -/
  | infeasibility
  /-- A source of the caller: given once and for all. -/
  | fixed (costs : List α)
  /-- A source of the caller: from given costs of the basic variables, by row. -/
  | weighted (weights : List α)
deriving Repr

/-- The costs, by non-basic position, and whether they can be relied on. -/
structure Pricing (α : Type) where
  rule : PricingRule α
  /-- The costs of the basic variables that the reduced costs belong to, by row. -/
  basicCosts : List α
  costs : List α
  stale : Bool
deriving Repr

/-- What an exchange means for the costs. -/
structure Exchange (α : Type) where
  /-- Position of the entering variable, now of the leaving one. -/
  entering : Nat
  /-- Row of the leaving variable, now of the entering one. -/
  leaving : Nat
  pivotElement : α
  /-- The leaving variable expressed through the non-basic ones, before the exchange. -/
  row : SolvedRow α
  /-- Standings by row, after the exchange. -/
  standings : List Standing

namespace Pricing

variable {α : Type} [Scalar α]

/-- No costs yet. -/
def unpriced (rule : PricingRule α) : Pricing α := ⟨rule, [], [], true⟩

/-- The same costs, not to be relied on. -/
def invalidate (p : Pricing α) : Pricing α := { p with stale := true }

/-! ## §1.  From the basis -/

/-- The part of a tableau that costs are computed from. -/
structure View (α : Type) where
  standings : List Standing
  nonBasic : List Nat
  matrix : SystemMatrix α
  inverse : BasisInverse α

/-- The reduced cost of every non-basic variable for given multipliers `y`,
    which is `-(y · A_j)`. -/
def reducedCosts (view : View α) (multipliers : List α) : Checked (List α) :=
  view.nonBasic.mapM fun v => do
    return -(← (← view.matrix.sparseColumn v).dot multipliers)

/-- The reduced costs for given costs of the basic variables. -/
def price (view : View α) (basicCosts : List α) : Checked (List α) := do
  reducedCosts view (← view.inverse.solveRow basicCosts)

/-- Costs that can be relied on. -/
def compute (p : Pricing α) (view : View α) : Checked (Pricing α) := do
  Checked.require (view.standings.length = view.inverse.size)
    (.sizeMismatch view.standings.length view.inverse.size)
  match p.rule with
  | .infeasibility =>
    let basicCosts := view.standings.map Standing.cost
    return { p with basicCosts, costs := ← price view basicCosts, stale := false }
  | .fixed costs => return { p with costs := Scalar.fit view.nonBasic.length costs, stale := false }
  | .weighted weights =>
    return { p with costs := ← price view (Scalar.fit view.inverse.size weights), stale := false }

/-! ## §2.  Through an exchange -/

/-- The costs after an exchange.  Row operations on the cost row, with coefficients that are the
    negatives of the entries of the tableau; the leaving variable brings in its own cost. -/
def exchangeCosts (costs : List α) (entering : Nat) (ratio ownCost : α) (row : SolvedRow α) :
    List α :=
  (costs.zip row.entries).mapIdx fun j (c, (_, k)) =>
    if j = entering then -ratio - ownCost else c + k * ratio

/-- A basic variable has another cost than the one that the reduced costs belong to. -/
def outdated (basicCosts : List α) (standings : List Standing) : Bool :=
  (basicCosts.zip standings).any fun (c, s) => !(c == s.cost)

/-- Follows an exchange, and tells whether a basic cost turned out to have changed.  Given costs and
    weights stay as they are; the exchange goes on record for them. -/
def follow (p : Pricing α) (e : Exchange α) : Checked (Pricing α × Bool) := do
  match p.rule with
  | .fixed _ | .weighted _ => return (p, false)
  | .infeasibility =>
    if p.stale then return (p, false)
    else
      Checked.require (p.costs.length = e.row.entries.length)
        (.sizeMismatch p.costs.length e.row.entries.length)
      let ownCost ← Checked.getAt p.basicCosts e.leaving
      let cost ← Checked.getAt p.costs e.entering
      let costs := exchangeCosts p.costs e.entering (cost / e.pivotElement) ownCost e.row
      let basicCosts := p.basicCosts.set e.leaving 0
      let changed := outdated basicCosts e.standings
      return ({ p with basicCosts, costs, stale := changed }, changed)

/-- Exchanges go on record for these costs. -/
def records (p : Pricing α) : Bool :=
  match p.rule with
  | .infeasibility => false
  | .fixed _ | .weighted _ => true

end Pricing

end BoundedSimplex
