/-
  BoundedSimplex.Numeral — the two texts of a number.

  Messages and listings write a number with its shortest digits; tables write it in columns.
-/
import BoundedSimplex.Scalar
import BoundedSimplex.Numeral.FixedPoint

namespace BoundedSimplex

/-- Numbers that can be written down. -/
class Written (α : Type) where
  /-- The fewest digits that read back as the number. -/
  shortest : α → String
  /-- The number as a column of a table. -/
  column : α → String

/-- Tables have four decimals in columns of width ten. -/
def Numeral.tableLayout : Numeral.Layout := ⟨4, 10⟩

instance instWrittenFloat : Written Float where
  shortest x := String.ofList (Numeral.meaning x).shortestText
  column x := String.ofList ((Numeral.meaning x).tableText Numeral.tableLayout)

/-- Indices in brackets. -/
def Numeral.indexList (xs : List Nat) : String :=
  "[" ++ String.intercalate ", " (xs.map fun i => toString i) ++ "]"

/-! ## Samples: the shortest digits, the neighbours of a power of two, the smallest number -/

example : Numeral.positional 25 (-1) = "2.5".toList := by decide
example : Numeral.positional 1 (-9) = "0.000000001".toList := by decide
example : Numeral.positional 1 21 = "1000000000000000000000".toList := by decide
example : Numeral.positional 10 (-3) = "0.01".toList := by decide
example : (Numeral.Binary.mk false 1 (-1074) false).shortest = (5, -324) := by decide +kernel
example : (Numeral.Binary.mk false (Nat.pow 2 52) (-52) true).shortest = (1, 0) := by decide +kernel

/-! ## Samples: a half goes to the even neighbour -/

example : [1, 3, 5, 7].map (Numeral.roundHalfEven · 2) = [0, 2, 2, 4] := by decide

end BoundedSimplex
