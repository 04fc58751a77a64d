/-
  BoundedSimplex.Tableau.RatioTest — how far the entering variable can move, and who stops it.

  The basic variables move along with the entering one.  Each may move up to the bound it is heading
  for; one that violates a bound may move up to that bound, and away from it without limit.  The
  entering variable itself stops at its own other bound.
-/
import BoundedSimplex.Tableau.Prices

namespace BoundedSimplex.Tableau

variable {α : Type} [Scalar α]

/-! ## §1.  Selections -/

/-- The position of the entering variable. -/
def enteringIndex (t : Tableau α) : Checked Nat :=
  match t.plan.entering with
  | some j => .ok j
  | none => .error .noEntering

/-- The entering variable, if there is one. -/
def enteringVariable (t : Tableau α) : Checked (Option Nat) :=
  match t.plan.entering with
  | some j => return some (← t.split.nonBasicAt j)
  | none => return none

/-- The leaving variable, if there is one; in a move without an exchange the entering one. -/
def leavingVariable (t : Tableau α) : Checked (Option Nat) :=
  match t.plan.leaving with
  | some (.basic i) => t.split.slotAt i
  | some .entering => t.enteringVariable
  | none => return none

/-- The selected pivot leaves the basis alone. -/
def isFake (t : Tableau α) : Bool := t.plan.leaving == some .entering

/-- Selects the leaving variable by its row. -/
def selectLeaving (t : Tableau α) (i : Nat) : Checked (Tableau α) := do
  Checked.require (i < t.rowCount) (.outOfRange i t.rowCount)
  return { t with plan := { t.plan with leaving := some (.basic i) } }

/-- Overrides how far the entering variable moves. -/
def setDistance (t : Tableau α) (x : α) : Checked (Tableau α) := do
  Checked.require (x ≥ 0) .negativeDistance
  return { t with plan := { t.plan with distance := x } }

/-- Provides the change column. -/
def setColumn (t : Tableau α) (column : List α) : Checked (Tableau α) := do
  Checked.require (column.length = t.rowCount) (.sizeMismatch column.length t.rowCount)
  return { t with plan := { t.plan with column } }

/-- Computes the change column of the entering variable, `B⁻¹ A_q`. -/
def computeColumn (t : Tableau α) : Checked (Tableau α) := do
  let v ← t.split.nonBasicAt (← t.enteringIndex)
  let column ← t.inverse.solveColumn (← t.matrix.column v)
  return { t with plan := { t.plan with column } }

/-- Computes the row of the leaving variable. -/
def computeRow (t : Tableau α) : Checked (Tableau α) :=
  match t.plan.leaving with
  | some (.basic i) => do
    let row ← t.solvedRow i
    return { t with plan := { t.plan with row := some row } }
  | _ => .error .rowWithoutBasic

/-! ## §2.  Room to move -/

/-- How far the entering variable is from the bound it is heading for. -/
def enteringRange (t : Tableau α) (falls : Bool) : Checked α := do
  let j ← t.enteringIndex
  let v ← t.split.nonBasicAt j
  let x ← Checked.getAt t.nonBasicValues j
  let l ← t.bounds.lower v
  let u ← t.bounds.upper v
  return Scalar.larger (if falls then x - l else u - x) 0

/-- How far a value may move before it has to stop, given its standing. -/
def room (standing : Standing) (rises : Bool) (x lower upper : α) : α :=
  match rises, standing with
  | true, .belowLower => lower - x
  | true, .aboveUpper | false, .belowLower => Scalar.infinity
  | true, .atLower | true, .between | true, .atUpper => upper - x
  | false, .aboveUpper => x - upper
  | false, .atLower | false, .between | false, .atUpper => x - lower

/-- How far the basic variable of a row may move in a direction. -/
def basicRoom (t : Tableau α) (i : Nat) (rises : Bool) : Checked α := do
  let v ← t.split.basicAt i
  let x ← Checked.getAt t.basicValues i
  let l ← t.bounds.lower v
  let u ← t.bounds.upper v
  let standing ← Checked.getAt t.standings i
  return Scalar.larger (room standing rises x l u) 0

/-- The basic variable rises iff its entry is positive and the entering variable
    falls, or neither. -/
def rises (entry : α) (falls : Bool) : Bool := decide (entry > 0) == falls

/-- How far the entering variable can move before the basic variable of a row stops it. -/
def ratioAt (t : Tableau α) (i : Nat) (entry : α) (falls : Bool) : Checked α := do
  Checked.require (¬(entry == 0)) .zeroPivot
  return (← t.basicRoom i (rises entry falls)) / Scalar.magnitude entry

/-- The entering variable moves down iff its cost is positive. -/
def enteringFalls (t : Tableau α) : Checked Bool := do
  return decide ((← Checked.getAt t.pricing.costs (← t.enteringIndex)) > 0)

/-- The leaving variable moves up.  A basic one follows from its entry, the entering one moves
    as it was decided. -/
def leavingRises (t : Tableau α) (leaving : Leaving) (falls : Bool) : Checked Bool := do
  match leaving with
  | .basic i => return rises (← Checked.getAt t.plan.column i) falls
  | .entering => return !falls

/-- Records the outcome of a ratio test. -/
def conclude (t : Tableau α) (leaving : Leaving) (distance : α) (falls : Bool) :
    Checked (Tableau α) := do
  let leavingRises ← t.leavingRises leaving falls
  let plan :=
    { t.plan with leaving := some leaving, distance, enteringFalls := falls, leavingRises }
  return { t with plan }

/-! ## §3.  The textbook test -/

/-- The smaller one of the best candidate so far and a row; ties go to the former. -/
def tighter (t : Tableau α) (falls : Bool) (best : Leaving × α) (entry : α × Nat) :
    Checked (Leaving × α) := do
  if Scalar.magnitude entry.1 < t.settings.columnTolerance then return best
  else
    let ratio ← t.ratioAt entry.2 entry.1 falls
    return if ratio < best.2 then (.basic entry.2, ratio) else best

/-- The smallest ratio wins, the first one of equals, the entering variable before all rows. -/
def standardRatioTest (t : Tableau α) : Checked (Tableau α) := do
  let falls ← t.enteringFalls
  let range ← t.enteringRange falls
  let (leaving, distance) ← t.plan.column.zipIdx.foldlM (t.tighter falls) (.entering, range)
  t.conclude leaving distance falls

/-! ## §4.  The relaxed test -/

/-- The largest step for which no row passes its bound by more than the tolerance. -/
def relaxedBound (t : Tableau α) (falls : Bool) (range : α) : Checked α := do
  let counted := t.plan.column.zipIdx.filter fun (c, _) =>
    decide (Scalar.magnitude c ≥ t.settings.columnTolerance)
  let ratios ← counted.mapM fun (c, i) => do
    let space ← t.basicRoom i (rises c falls)
    return (space + t.settings.harrisTolerance) / Scalar.magnitude c
  return ratios.foldl Scalar.smaller range

/-- The row chosen so far, with the size of its entry and its ratio, and the
    smallest ratio so far. -/
structure HarrisScan (α : Type) where
  chosen : Option (Nat × α × α)
  exactMinimum : α

/-- Looks at one row: it is chosen if its ratio is within the relaxed bound and its entry is larger
    than that of the row chosen so far. -/
def HarrisScan.look (t : Tableau α) (falls : Bool) (bound : α) (scan : HarrisScan α)
    (entry : α × Nat) : Checked (HarrisScan α) := do
  let size := Scalar.magnitude entry.1
  if size < t.settings.columnTolerance then return scan
  else
    let ratio ← t.ratioAt entry.2 entry.1 falls
    let larger := scan.chosen.all fun (_, best, _) => decide (size > best)
    let chosen := if ratio ≤ bound ∧ larger = true then some (entry.2, size, ratio) else scan.chosen
    return ⟨chosen, Scalar.smaller scan.exactMinimum ratio⟩

/-- Among the rows within the relaxed bound, the one with the largest entry leaves. -/
def harrisRatioTest (t : Tableau α) : Checked (Tableau α) := do
  let falls ← t.enteringFalls
  let range ← t.enteringRange falls
  let bound ← t.relaxedBound falls range
  if range ≤ bound then
    t.conclude .entering range falls
  else
    let scan ← t.plan.column.zipIdx.foldlM (HarrisScan.look t falls bound) ⟨none, Scalar.infinity⟩
    match scan.chosen with
    | some (i, _, ratio) =>
      let t := t.remarkIf (decide (ratio > scan.exactMinimum))
        (.harrisAccepts ratio scan.exactMinimum)
      t.conclude (.basic i) (Scalar.larger ratio 0) falls
    | none => (t.remark (.harrisEmpty bound)).conclude .entering range falls

/-! ## §5.  Selecting the leaving variable -/

/-- Runs the ratio test that the settings ask for. -/
def chooseLeaving (t : Tableau α) : Checked (Tableau α) := do
  Checked.require (t.plan.column.length = t.rowCount)
    (.sizeMismatch t.plan.column.length t.rowCount)
  let t ← if t.settings.useHarris then t.harrisRatioTest else t.standardRatioTest
  let v ← t.split.nonBasicAt (← t.enteringIndex)
  return t.remark (.ratioTest (t.plan.leaving.getD .entering) t.plan.distance v)

/-- Provides the change column, then runs the ratio test. -/
def chooseLeavingWith (t : Tableau α) (column : List α) : Checked (Tableau α) := do
  (← t.setColumn column).chooseLeaving

end BoundedSimplex.Tableau
