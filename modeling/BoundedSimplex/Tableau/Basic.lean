/-
  BoundedSimplex.Tableau.Basic — the tableau: a state, the inverse of its basis, prices, and the
  pivot under way.

  Operations that can break a contract return a `Checked` result.  Operations that can fail
  otherwise return an `Attempt`: a failure or a result, and the tableau either way.
-/
import BoundedSimplex.EnteringRule
import BoundedSimplex.Pricing
import BoundedSimplex.Settings
import BoundedSimplex.Statistics

namespace BoundedSimplex

/-! ## §1.  The types -/

/-- The selections made for the next pivot. -/
structure PivotPlan (α : Type) where
  /-- Position of the entering variable. -/
  entering : Option Nat
  leaving : Option Leaving
  /-- The entering variable moves down. -/
  enteringFalls : Bool
  /-- The leaving variable moves up. -/
  leavingRises : Bool
  /-- How far the entering variable moves. -/
  distance : α
  /-- By row, how fast the basic variable falls as the entering one rises. -/
  column : List α
  /-- The leaving variable expressed through the non-basic ones. -/
  row : Option (SolvedRow α)
deriving Repr

/-- Nothing selected. -/
def PivotPlan.none {α : Type} [Scalar α] : PivotPlan α :=
  { entering := .none
    leaving := .none
    enteringFalls := false
    leavingRises := false
    distance := 0
    column := []
    row := .none }

/-- A tableau. -/
structure Tableau (α : Type) [Scalar α] extends State α where
  settings : Settings α
  inverse : BasisInverse α
  pricing : Pricing α
  /-- Result of the last computation of multipliers, by row. -/
  multipliers : List α
  plan : PivotPlan α
  watchers : Watchers
  statistics : Option Statistics
  /-- A basis was set up. -/
  hasBasis : Bool
  journal : Journal α

/-- A failure or a result, and the tableau afterwards. -/
abbrev Attempt (α β : Type) [Scalar α] := Checked (Except Failure β × Tableau α)

namespace Tableau

variable {α : Type} [Scalar α]

/-! ## §2.  Making a tableau -/

/-- A tableau without equations, over the given representation of the empty basis. -/
def withInverse (settings : Settings α) (inverse : BasisInverse α) : Tableau α :=
  { State.blank 0 0 with
    settings, inverse
    pricing := .unpriced .infeasibility
    multipliers := []
    plan := .none
    watchers := .none
    statistics := .none
    hasBasis := false
    journal := .empty }

/-- A tableau without equations that will represent its basis by factors. -/
def create (settings : Settings α) : Tableau α :=
  withInverse settings (.product (.identity 0 settings.refreshThreshold))

/-- A tableau without equations that will represent its basis by the inverse. -/
def createExplicit (settings : Settings α) : Tableau α :=
  withInverse settings (.explicit (.identity 0 settings.refreshThreshold))

/-! ## §3.  Telling -/

/-- Adds a remark to the journal. -/
def remark (t : Tableau α) (r : Remark α) : Tableau α := { t with journal := t.journal.add r }

/-- Adds a remark under a condition. -/
def remarkIf (t : Tableau α) (condition : Bool) (r : Remark α) : Tableau α :=
  if condition then t.remark r else t

/-- Tells the watchers of a variable that it has a value. -/
def tellValue (t : Tableau α) (v : Nat) (x : α) : Tableau α :=
  { t with journal := t.journal.tell (t.watchers.of v) (.value v x) }

/-- Tells the watchers of a variable that it has a lower bound. -/
def tellLower (t : Tableau α) (v : Nat) (x : α) : Tableau α :=
  { t with journal := t.journal.tell (t.watchers.of v) (.lower v x) }

/-- Tells the watchers of a variable that it has an upper bound. -/
def tellUpper (t : Tableau α) (v : Nat) (x : α) : Tableau α :=
  { t with journal := t.journal.tell (t.watchers.of v) (.upper v x) }

/-- Tells the values of several variables. -/
def tellValues (t : Tableau α) (values : List (Nat × α)) : Tableau α :=
  values.foldl (fun t (v, x) => t.tellValue v x) t

/-- Tells the dimensions. -/
def tellSize (t : Tableau α) : Tableau α :=
  { t with
    journal :=
      t.journal.tell t.watchers.dimensions (.resize t.toState.rowCount t.toState.varCount) }

/-- Counts an event if there are statistics. -/
def count (t : Tableau α) (c : Counter) : Tableau α :=
  { t with statistics := t.statistics.map (·.increment c) }

/-- The journal starts over. -/
def clearJournal (t : Tableau α) : Tableau α := { t with journal := .empty }

/-- Installs statistics that start at zero. -/
def startCounting (t : Tableau α) : Tableau α := { t with statistics := some .zero }

/-- Registers a watcher for all variables. -/
def watchAll (t : Tableau α) (name : Watcher) : Tableau α :=
  { t with watchers := t.watchers.watchAll name }

/-- Registers a watcher for one variable. -/
def watchVariable (t : Tableau α) (name : Watcher) (v : Nat) : Tableau α :=
  { t with watchers := t.watchers.watchVariable name v }

/-- Takes back the registrations of a watcher for one variable. -/
def unwatchVariable (t : Tableau α) (name : Watcher) (v : Nat) : Tableau α :=
  { t with watchers := t.watchers.unwatchVariable name v }

/-- Registers a watcher for the dimensions. -/
def watchDimensions (t : Tableau α) (name : Watcher) : Tableau α :=
  { t with watchers := t.watchers.watchDimensions name }

/-! ## §4.  Conditions and small updates -/

/-- A basis was set up. -/
def requireBasis (t : Tableau α) : Checked Unit := Checked.require (t.hasBasis = true) .basisMissing

/-- No basis was set up yet. -/
def requireNoBasis (t : Tableau α) : Checked Unit :=
  Checked.require (t.hasBasis = false) .basisPresent

/-- The costs cannot be relied on any more. -/
def invalidatePrices (t : Tableau α) : Tableau α := { t with pricing := t.pricing.invalidate }

/-- Nothing is selected for the next pivot any more. -/
def clearPlan (t : Tableau α) : Tableau α := { t with plan := .none }

/-- The split, the equations and the standings are in order, or there is no basis yet. -/
def isConsistent (t : Tableau α) (tolerance : α) : Checked Bool := do
  if t.hasBasis then t.toState.isConsistent t.settings.boundTolerance tolerance else return true

/-- A tableau that claims to satisfy its equations does.  One without a basis passes, whatever it
    claims. -/
def requireConsistent (t : Tableau α) : Checked Unit := do
  if t.settled then
    let ok ← t.isConsistent 1e-6
    Checked.require (ok = true) .inconsistent
  else
    return ()

end Tableau

end BoundedSimplex
