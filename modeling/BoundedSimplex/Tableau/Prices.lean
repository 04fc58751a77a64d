/-
  BoundedSimplex.Tableau.Prices — reduced costs, and which variables they make eligible.
-/
import BoundedSimplex.Tableau.Values

namespace BoundedSimplex.Tableau

variable {α : Type} [Scalar α]

/-! ## §1.  Costs -/

/-- Takes another source of costs.  It has not computed any. -/
def usePricing (t : Tableau α) (rule : PricingRule α) : Tableau α :=
  { t with pricing := .unpriced rule }

/-- The part of the tableau that costs are computed from. -/
def pricingView (t : Tableau α) : Pricing.View α :=
  { standings := t.standings
    nonBasic := t.split.nonBasic
    matrix := t.matrix
    inverse := t.inverse }

/-- Computes the costs afresh. -/
def computePrices (t : Tableau α) : Checked (Tableau α) := do
  t.requireBasis
  let pricing ← t.pricing.compute t.pricingView
  return { t with pricing }

/-- Lets the costs follow an exchange if the row of the leaving variable was computed for it. -/
def followExchange (t : Tableau α) (entering leaving : Nat) (pivotElement : α) :
    Checked (Tableau α) := do
  match t.plan.row with
  | some row =>
    if row.basicIndex = leaving then
      let (pricing, changed) ←
        t.pricing.follow ⟨entering, leaving, pivotElement, row, t.standings⟩
      let record : ExchangeRecord α := ⟨entering, leaving, pivotElement⟩
      let journal := if t.pricing.records then t.journal.addExchange record else t.journal
      return { t with pricing, journal }.remarkIf changed .basicCostChanged
    else
      return (t.remark (.rowMissing leaving)).invalidatePrices
  | none => return (t.remark (.rowMissing leaving)).invalidatePrices

/-! ## §2.  Eligible variables -/

/-- The variable at a non-basic position has room above its value. -/
def canRise (t : Tableau α) (j : Nat) : Checked Bool := do
  let u ← t.bounds.upper (← t.split.nonBasicAt j)
  return decide (u - (← Checked.getAt t.nonBasicValues j) > t.settings.boundTolerance)

/-- The variable at a non-basic position has room below its value. -/
def canFall (t : Tableau α) (j : Nat) : Checked Bool := do
  let l ← t.bounds.lower (← t.split.nonBasicAt j)
  return decide ((← Checked.getAt t.nonBasicValues j) - l > t.settings.boundTolerance)

/-- Moving the variable at a non-basic position against its cost is worth it and possible. -/
def isEligible (t : Tableau α) (j : Nat) (cost : α) : Checked Bool := do
  if Scalar.magnitude cost < t.settings.entryTolerance then return false
  else if cost > 0 then t.canFall j
  else t.canRise j

/-- The eligible positions, in increasing order. -/
def candidates (t : Tableau α) : Checked (List Nat) := do
  Checked.require (t.pricing.stale = false) .stalePrices
  Checked.require (t.pricing.costs.length = t.nonBasicCount)
    (.sizeMismatch t.pricing.costs.length t.nonBasicCount)
  let judged ← t.pricing.costs.zipIdx.mapM fun (cost, j) => return (j, ← t.isEligible j cost)
  return (judged.filter (·.2)).map (·.1)

/-! ## §3.  Selecting the entering variable -/

/-- Selects the entering variable by its non-basic position. -/
def selectEntering (t : Tableau α) (j : Nat) : Checked (Tableau α) := do
  Checked.require (j < t.nonBasicCount) (.outOfRange j t.nonBasicCount)
  return { t with plan := { t.plan with entering := some j } }

/-- Lets a rule select the entering variable.  It selects none iff no variable is eligible. -/
def chooseEntering (t : Tableau α) (rule : EnteringRule) :
    Checked (Bool × EnteringRule × Tableau α) := do
  let (chosen, rule) ← rule.choose (← t.candidates) t.pricing.costs
  match chosen with
  | some j => return (true, rule, ← t.selectEntering j)
  | none => return (false, rule, t)

end BoundedSimplex.Tableau
