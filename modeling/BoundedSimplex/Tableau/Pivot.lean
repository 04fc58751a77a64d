/-
  BoundedSimplex.Tableau.Pivot — performing the selected pivot.

  A pivot moves the entering variable and lets the basic ones follow.  Either it jumps to its
  other bound and the basis stays (a fake pivot), or it exchanges its role with the leaving
  variable, which lands exactly on the bound it was heading for.  A degenerate pivot exchanges
  roles and moves nothing.
-/
import BoundedSimplex.Tableau.RatioTest

namespace BoundedSimplex.Tableau

variable {α : Type} [Scalar α]

/-- The signed distance of the selected move. -/
def change (t : Tableau α) : α := if t.plan.enteringFalls then -t.plan.distance else t.plan.distance

/-- The pivot is over: nothing is selected, and the inverse is started over if it is due. -/
def finish (t : Tableau α) : Checked (Tableau α) := t.clearPlan.refactorIfDue

/-! ## §1.  Moving without an exchange -/

/-- The entering variable jumps to the bound it is heading for. -/
def jump (t : Tableau α) (j : Nat) : Checked (Tableau α) := do
  let v ← t.split.nonBasicAt j
  let x ← Checked.getAt t.nonBasicValues j
  let l ← t.bounds.lower v
  let u ← t.bounds.upper v
  let target := if t.plan.enteringFalls then l else u
  let column := t.plan.column
  let moved :=
    { t with
      basicValues := shift (target - x) t.basicValues column
      nonBasicValues := t.nonBasicValues.set j target }
  let t ← (moved.remark (.fakePivot v t.change)).classifyAll
  let t := t.invalidatePrices.tellValue v target
  return (t.tellValues (← t.movedPairs column)).count .fakePivots

/-- A move without an exchange, which needs a bound to move to. -/
def performFake (t : Tableau α) (j : Nat) : Checked (Tableau α) :=
  if Scalar.isFinite t.plan.distance then t.jump j else return t.remark .unboundedMove

/-! ## §2.  Exchanging two variables -/

/-- Where the leaving variable ends up: on the violated bound if it moves towards that, else on the
    bound ahead.  It never moves away from a violated lower bound, for nothing would stop it. -/
def landing (standing : Standing) (rises : Bool) (lower upper : α) : α :=
  match rises, standing with
  | true, .belowLower => lower
  | true, .atLower | true, .between | true, .atUpper | true, .aboveUpper => upper
  | false, .belowLower | false, .atLower | false, .between | false, .atUpper => lower
  | false, .aboveUpper => upper

/-- The entry of the change column in the row of the leaving variable, which must not be zero. -/
def pivotElement (t : Tableau α) (i : Nat) : Checked α := do
  Checked.require (t.plan.column.length = t.rowCount)
    (.sizeMismatch t.plan.column.length t.rowCount)
  let element ← Checked.getAt t.plan.column i
  Checked.require (¬(element == 0)) .zeroPivot
  return element

/-- The entering and the leaving variable exchange their places in the split and in the values, and
    the inverse follows. -/
def exchangePlaces (t : Tableau α) (j i : Nat) (enteringValue leavingValue : α) :
    Checked ((Nat × Nat) × Tableau α) := do
  let (names, split) ← t.split.swap j i
  let basicValues ← Checked.setAt t.basicValues i enteringValue
  let nonBasicValues ← Checked.setAt t.nonBasicValues j leavingValue
  let inverse ← t.inverse.update i t.plan.column
  return (names, { t with split, basicValues, nonBasicValues, inverse })

/-- The entering variable moves by the selected distance and takes over the row
    of the leaving one. -/
def performExchange (t : Tableau α) (j i : Nat) : Checked (Tableau α) := do
  let element ← t.pivotElement i
  let leaving ← t.split.basicAt i
  let standing ← Checked.getAt t.standings i
  let l ← t.bounds.lower leaving
  let u ← t.bounds.upper leaving
  let target := landing standing t.plan.leavingRises l u
  let delta := t.change
  let enteringValue := (← Checked.getAt t.nonBasicValues j) + delta
  let shifted := { t with basicValues := shift delta t.basicValues t.plan.column }
  let ((entering, _), t) ← shifted.exchangePlaces j i enteringValue target
  let t ← (t.remark (.pivot entering enteringValue leaving target)).classifyAll
  let t ← t.followExchange j i element
  let t := (t.tellValues (← t.movedPairs t.plan.column)).tellValue leaving target
  let t := t.count .pivots
  return if delta == 0 then t.count .degeneratePivots else t

/-- Performs the selected pivot. -/
def performPivot (t : Tableau α) : Checked (Tableau α) := do
  t.requireBasis
  let j ← t.enteringIndex
  let t ←
    match t.plan.leaving with
    | some .entering => t.performFake j
    | some (.basic i) => t.performExchange j i
    | none => .error .noLeaving
  t.finish

/-! ## §3.  Exchanging without moving -/

/-- The row of the leaving variable of an exchange. -/
def leavingRow (t : Tableau α) : Checked Nat :=
  match t.plan.leaving with
  | some (.basic i) => .ok i
  | _ => .error .exchangeWithoutBasic

/-- The entering and the leaving variable exchange roles and keep their values, so the leaving one
    has to be within its bounds. -/
def performDegenerate (t : Tableau α) : Checked (Tableau α) := do
  t.requireBasis
  let j ← t.enteringIndex
  let i ← t.leavingRow
  Checked.require ((← Checked.getAt t.standings i).isOutOfBounds = false) (.leavingOutOfBounds i)
  let element ← t.pivotElement i
  let enteringValue ← Checked.getAt t.nonBasicValues j
  let leavingValue ← Checked.getAt t.basicValues i
  let ((entering, leaving), t) ← t.exchangePlaces j i enteringValue leavingValue
  let t ← (t.remark (.degeneratePivot entering leaving)).classifyAt i
  let t ← t.followExchange j i element
  ((t.count .pivots).count .degeneratePivots).finish

end BoundedSimplex.Tableau
