/-
  BoundedSimplex.Scalar — the arithmetic that the tableau computes with.

  Everything above this module is written over an arbitrary type of numbers.  The class fixes the
  operations and nothing about their laws, so one text serves rounded arithmetic, where sums depend
  on their order, and exact arithmetic, where the laws of an ordered field are available.
-/
namespace BoundedSimplex

/-- Numbers with the operations, the comparisons and the infinity that the tableau needs. -/
class Scalar (α : Type) extends Add α, Sub α, Mul α, Div α, Neg α, Zero α, One α, LT α, LE α,
    BEq α, OfScientific α where
  /-- Strict comparison is decided by computation. -/
  decidableLT : DecidableLT α
  /-- Weak comparison is decided by computation. -/
  decidableLE : DecidableLE α
  /-- Above every number; an absent upper bound. -/
  infinity : α
  /-- Absolute value. -/
  magnitude : α → α
  /-- Neither infinite nor the result of an undefined operation. -/
  isFinite : α → Bool

instance Scalar.instDecidableLT {α : Type} [Scalar α] : DecidableLT α := Scalar.decidableLT

instance Scalar.instDecidableLE {α : Type} [Scalar α] : DecidableLE α := Scalar.decidableLE

namespace Scalar

variable {α : Type} [Scalar α]

/-! ## §1.  Constants -/

/-- Smaller magnitudes are not kept where a sum or an eta column is stored. -/
def negligible : α := 1e-10

/-- A pivot of smaller magnitude makes a basis numerically singular. -/
def singular : α := 1e-12

/-! ## §2.  Sums -/

/-- Left-to-right sum.  It starts from the negative zero, the one number that is neutral for
    rounded addition of either zero. -/
def sum (xs : List α) : α := xs.foldl (· + ·) (-0)

/-- Sum of the products at equal positions; the longer list is cut. -/
def dot (xs ys : List α) : α := sum (List.zipWith (· * ·) xs ys)

/-! ## §3.  Choices by comparison -/

/-- The larger of two numbers; an unordered one gives way to the other. -/
def larger (a b : α) : α := if a < b then b else if a == a then a else b

/-- The smaller of two numbers; an unordered one gives way to the other. -/
def smaller (a b : α) : α := if b < a then b else if a == a then a else b

/-! ## §4.  Vectors of numbers -/

/-- The zero vector. -/
def zeros (n : Nat) : List α := List.replicate n 0

/-- The vector with a one at position `i` and zeros elsewhere. -/
def unit (n i : Nat) : List α := (zeros n).set i 1

/-- Exactly `n` entries: the surplus is cut, the missing ones are zero. -/
def fit (n : Nat) (xs : List α) : List α := (List.range n).map fun i => xs.getD i 0

@[simp] theorem length_zeros (n : Nat) : (zeros n : List α).length = n := by simp [zeros]

@[simp] theorem length_unit (n i : Nat) : (unit n i : List α).length = n := by simp [unit]

@[simp] theorem length_fit (n : Nat) (xs : List α) : (fit n xs).length = n := by simp [fit]

end Scalar

/-! ## §5.  Rounded binary numbers -/

instance instScalarFloat : Scalar Float where
  zero := 0.0
  one := 1.0
  decidableLT := inferInstance
  decidableLE := inferInstance
  infinity := 1.0 / 0.0
  magnitude := Float.abs
  isFinite := Float.isFinite

end BoundedSimplex
