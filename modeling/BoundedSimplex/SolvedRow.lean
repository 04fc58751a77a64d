/-
  BoundedSimplex.SolvedRow — a basic variable expressed through the non-basic ones.
-/
import BoundedSimplex.Contract
import BoundedSimplex.Numeral

namespace BoundedSimplex

/-- The equation `x = scalar + c₁ x₁ + c₂ x₂ + …` of the basic variable of a row, with one entry per
    non-basic position. -/
structure SolvedRow (α : Type) where
  basicIndex : Nat
  /-- The variable on the left, if the row was given one. -/
  solvedFor : Option Nat
  scalar : α
  entries : List (Nat × α)
deriving Repr

namespace SolvedRow

variable {α : Type} [Scalar α]

/-- The coefficient at a non-basic position. -/
def coefficient (r : SolvedRow α) (j : Nat) : Checked α := return (← Checked.getAt r.entries j).2

/-- The entries whose coefficient reaches a magnitude. -/
def nonzeros (r : SolvedRow α) (tolerance : α) : List (Nat × α) :=
  r.entries.filter fun (_, c) => decide (tolerance ≤ Scalar.magnitude c)

/-- The right-hand side under an assignment. -/
def evaluate (r : SolvedRow α) (value : Nat → Checked α) : Checked α := do
  let products ← r.entries.mapM fun (v, c) => return c * (← value v)
  return r.scalar + Scalar.sum products

/-- An unassigned position is written as the largest index of a machine word. -/
def slotText : Option Nat → String
  | some v => toString v
  | none => toString (Checked.wordSize - 1)

/-- A term with its sign in front. -/
def termText [Written α] (v : Nat) (c : α) : String :=
  let sign := if c < 0 then "-" else "+"
  s!" {sign} {Written.shortest (Scalar.magnitude c)} x{v}"

/-- The equation without the terms that are zero. -/
def text [Written α] (r : SolvedRow α) : String :=
  let terms := r.entries.filter fun (_, c) => !(c == 0)
  s!"x{slotText r.solvedFor} = {Written.shortest r.scalar}"
    ++ String.join (terms.map fun (v, c) => termText v c)

end SolvedRow

end BoundedSimplex
