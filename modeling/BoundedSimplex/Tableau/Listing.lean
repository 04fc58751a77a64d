/-
  BoundedSimplex.Tableau.Listing — a tableau as text.
-/
import BoundedSimplex.Tableau.Basic

namespace BoundedSimplex

/-- The name of a standing in a listing. -/
def Standing.name : Standing → String
  | belowLower => "BelowLower"
  | atLower => "AtLower"
  | between => "Between"
  | atUpper => "AtUpper"
  | aboveUpper => "AboveUpper"

namespace Tableau

variable {α : Type} [Scalar α] [Written α]

/-- An equation with its nonzero terms by increasing variable. -/
def equationLine (t : Tableau α) (i : Nat) : Checked String := do
  let terms := (← t.matrix.sparseRow i).sorted.map fun (j, x) => s!"{Written.shortest x} x{j}"
  let rhs ← Checked.getAt t.rightHandSide i
  return String.intercalate " + " terms ++ s!" = {Written.shortest rhs}\n"

/-- A variable with its value, its bounds, and what is special about it. -/
def variableLine (t : Tableau α) (v : Nat) : Checked String := do
  let x ← t.storedValue v
  let l ← t.bounds.lower v
  let u ← t.bounds.upper v
  let role ←
    if t.split.isBasic v then
      (do let standing ← t.standingOf v
          pure s!" basic, {standing.name}")
    else pure ""
  let merged := if t.merges.isMerged v then s!" merged into x{t.merges.resolve v}" else ""
  return s!"x{v} = {Written.shortest x} in [{Written.shortest l}, {Written.shortest u}]"
    ++ role ++ merged ++ "\n"

/-- The costs, as long as they can be relied on. -/
def costSection (t : Tableau α) : String :=
  if t.pricing.stale then ""
  else "=== Cost function ===\n"
    ++ String.intercalate " " (t.pricing.costs.map Written.shortest) ++ "\n"

/-- The assignment, the basis and the costs. -/
def basisSections (t : Tableau α) : Checked String := do
  let lines ← (List.range t.varCount).mapM t.variableLine
  let basis := "[" ++ String.intercalate ", " (t.split.basic.map SolvedRow.slotText) ++ "]\n"
  return "=== Assignment ===\n" ++ String.join lines ++ "=== Basis ===\n" ++ basis
    ++ t.costSection

/-- The equations, then the assignment, the basis and the costs. -/
def text (t : Tableau α) : Checked String := do
  let equations ← (List.range t.rowCount).mapM t.equationLine
  let rest ← if t.hasBasis then t.basisSections else pure "(no basis)\n"
  return s!"=== Tableau ({t.rowCount} x {t.varCount}) ===\n" ++ String.join equations ++ rest

/-- Puts the listing into the journal. -/
def list (t : Tableau α) : Checked (Tableau α) := return t.remark (.listing (← t.text))

end Tableau

end BoundedSimplex
