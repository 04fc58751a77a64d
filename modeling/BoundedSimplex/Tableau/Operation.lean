/-
  BoundedSimplex.Tableau.Operation — the operations of a tableau as data.

  A run of a tableau is a list of operations.  Each either replies, possibly with a failure, and
  leaves a tableau to go on with, or breaks a contract.
-/
import BoundedSimplex.Tableau.Growth
import BoundedSimplex.Tableau.Merging
import BoundedSimplex.Tableau.Pivot
import BoundedSimplex.Tableau.Setup
import BoundedSimplex.Tableau.Snapshot

namespace BoundedSimplex

/-- Everything that can be done to a tableau. -/
inductive Operation (α : Type) where
  | setSize (m n : Nat)
  | setCoefficients (xs : List α)
  | setCoefficient (i j : Nat) (x : α)
  | setRightHandSide (xs : List α)
  | setRightHandSideAt (i : Nat) (x : α)
  | setLower (v : Nat) (x : α)
  | setUpper (v : Nat) (x : α)
  | tightenLower (v : Nat) (x : α)
  | tightenUpper (v : Nat) (x : α)
  | checkBounds (v : Nat)
  | checkAllBounds
  | markBasic (v : Nat)
  | assignRow (v i : Nat)
  | startFrom (vs : List Nat)
  | start
  | refactor
  | addEquation (e : LinearEquation α)
  | merge (source target : Nat)
  | computeValues
  | classifyAll
  | classify (v : Nat)
  | classifyAt (i : Nat)
  | setSettled (settled : Bool)
  | moveNonBasic (v : Nat) (x : α) (follow : Bool)
  | computePrices
  | usePricing (rule : PricingRule α)
  | computeMultipliers (costs : List α)
  | chooseEntering (rule : EnteringRule)
  | selectEntering (j : Nat)
  | selectLeaving (i : Nat)
  | setDistance (x : α)
  | setColumn (column : List α)
  | computeColumn
  | chooseLeaving
  | standardRatioTest
  | harrisRatioTest
  | computeRow
  | performPivot
  | performDegenerate
  | save
  | restore (s : State α)

/-- What an operation replies. -/
inductive Reply (α : Type) where
  | done
  | flag (b : Bool)
  /-- A variable was selected, or none was eligible; the rule with what it remembers. -/
  | selected (found : Bool) (rule : EnteringRule)
  | variable (v : Nat)
  | saved (s : State α)
  | failed (cause : Failure)

namespace Tableau

variable {α : Type} [Scalar α]

/-- The reply `done` to an operation that only changes the tableau. -/
def replyDone (r : Checked (Tableau α)) : Checked (Reply α × Tableau α) := do
  return (.done, ← r)

/-- The reply to an operation that may fail. -/
def replyAttempt {β : Type} (success : β → Reply α) (r : Attempt α β) :
    Checked (Reply α × Tableau α) := do
  match ← r with
  | (.ok b, t) => return (success b, t)
  | (.error cause, t) => return (.failed cause, t)

/-- Performs an operation. -/
def perform (t : Tableau α) : Operation α → Checked (Reply α × Tableau α)
  | .setSize m n => replyDone (t.setSize m n)
  | .setCoefficients xs => replyDone (t.setCoefficients xs)
  | .setCoefficient i j x => replyDone (t.setCoefficient i j x)
  | .setRightHandSide xs => replyDone (t.setRightHandSide xs)
  | .setRightHandSideAt i x => replyDone (t.setRightHandSideAt i x)
  | .setLower v x => replyDone (t.setLower v x)
  | .setUpper v x => replyDone (t.setUpper v x)
  | .tightenLower v x => replyDone (t.tightenLower v x)
  | .tightenUpper v x => replyDone (t.tightenUpper v x)
  | .checkBounds v => do
    let (valid, t) ← t.checkBounds v
    return (.flag valid, t)
  | .checkAllBounds => do
    let (valid, t) ← t.checkAllBounds
    return (.flag valid, t)
  | .markBasic v => replyDone (t.markBasic v)
  | .assignRow v i => replyDone (t.assignRow v i)
  | .startFrom vs => replyAttempt (fun _ => .done) (t.startFrom vs)
  | .start => replyAttempt (fun _ => .done) t.start
  | .refactor => replyAttempt (fun _ => .done) t.refactor
  | .addEquation e => replyAttempt .variable (t.addEquation e)
  | .merge source target => replyAttempt (fun _ => .done) (t.merge source target)
  | .computeValues => replyDone t.computeValues
  | .classifyAll => replyDone t.classifyAll
  | .classify v => replyDone (t.classify v)
  | .classifyAt i => replyDone (t.classifyAt i)
  | .setSettled settled => replyDone (.ok (t.setSettled settled))
  | .moveNonBasic v x follow => replyDone (t.moveNonBasic v x follow)
  | .computePrices => replyDone t.computePrices
  | .usePricing rule => replyDone (.ok (t.usePricing rule))
  | .computeMultipliers costs => replyDone (t.computeMultipliers costs)
  | .chooseEntering rule => do
    let (found, rule, t) ← t.chooseEntering rule
    return (.selected found rule, t)
  | .selectEntering j => replyDone (t.selectEntering j)
  | .selectLeaving i => replyDone (t.selectLeaving i)
  | .setDistance x => replyDone (t.setDistance x)
  | .setColumn column => replyDone (t.setColumn column)
  | .computeColumn => replyDone t.computeColumn
  | .chooseLeaving => replyDone t.chooseLeaving
  | .standardRatioTest => replyDone t.standardRatioTest
  | .harrisRatioTest => replyDone t.harrisRatioTest
  | .computeRow => replyDone t.computeRow
  | .performPivot => replyDone t.performPivot
  | .performDegenerate => replyDone t.performDegenerate
  | .save => do
    let (s, t) ← t.save
    return (.saved s, t)
  | .restore s => replyAttempt (fun _ => .done) (t.restore s)

/-- Performs operations one after the other. -/
def run (t : Tableau α) : List (Operation α) → Checked (Tableau α)
  | [] => return t
  | op :: ops => do (← t.perform op).2.run ops

/-- A run in two parts. -/
theorem run_append (t : Tableau α) (xs ys : List (Operation α)) :
    t.run (xs ++ ys) = (t.run xs >>= fun t => t.run ys) := by
  induction xs generalizing t with
  | nil => rfl
  | cons op ops ih =>
    simp only [List.cons_append, run, bind, Except.bind]
    cases t.perform op with
    | error e => rfl
    | ok r => exact ih r.2

end Tableau

end BoundedSimplex
