/-
  BoundedSimplex.Proofs.Zeros — what zeros do, in rounded and in exact arithmetic.

  Rounded arithmetic has two zeros.  They compare as equal, and neither of them changes a number
  that it is added to, so a store that leaves zeros out loses their sign and nothing else.  These
  two laws are all that the sparse forms of a matrix need; they hold of exact numbers, and of the
  binary numbers that the program computes with (`BoundedSimplex.Proofs.BinaryZeros`).

  Main results:
    * `Matches` — the same number, up to the sign of zero;
    * `instLawfulZeroExtended` — exact arithmetic obeys the laws.
-/
import BoundedSimplex.Proofs.Extended

namespace BoundedSimplex

open Extended

/-! ## §1.  The laws -/

/-- Zeros compare as equal, and adding one of them to another number leaves that number alone. -/
class LawfulZero (α : Type) [Scalar α] : Prop where
  zero_beq : ((0 : α) == 0) = true
  zero_add : ∀ z x : α, (z == 0) = true → (x == 0) = false → z + x = x

/-- The same number, up to the sign of zero. -/
def Matches {α : Type} [Scalar α] (x y : α) : Prop := x = y ∨ ((x == 0) = true ∧ (y == 0) = true)

namespace Matches

variable {α : Type} [Scalar α] {x y z : α}

/-- An entry matches itself. -/
theorem refl (x : α) : Matches x x := .inl rfl

/-- Matching can be chained. -/
theorem trans (h : Matches x y) (h' : Matches y z) : Matches x z := by
  rcases h with rfl | ⟨hx, hy⟩
  · exact h'
  · rcases h' with rfl | ⟨-, hz⟩
    · exact .inr ⟨hx, hy⟩
    · exact .inr ⟨hx, hz⟩

/-- Both are zero or neither is. -/
theorem isZero (h : Matches x y) : (x == 0) = (y == 0) := by
  rcases h with rfl | ⟨hx, hy⟩
  · rfl
  · rw [hx, hy]

/-- Numbers other than zero have no second form. -/
theorem eq_of_ne (h : Matches x y) (hy : (y == 0) = false) : x = y := by
  rcases h with h | ⟨-, hy'⟩
  · exact h
  · rw [hy] at hy'
    exact absurd hy' Bool.false_ne_true

/-- It does not matter for a sum which of the zeros it starts from. -/
theorem add_right [LawfulZero α] (h : Matches x y) (hz : (z == 0) = false) : x + z = y + z := by
  rcases h with rfl | ⟨hx, hy⟩
  · rfl
  · rw [LawfulZero.zero_add x z hx hz, LawfulZero.zero_add y z hy hz]

end Matches

/-! ## §2.  Exact numbers -/

instance instLawfulZeroExtended {K : Type} [Field K] [LinearOrder K] : LawfulZero (Extended K) where
  zero_beq := by
    show decide ((0 : K) = 0) = true
    exact decide_eq_true rfl
  zero_add z x hz _ := by
    rw [eq_of_same hz]
    cases x with
    | fin a => rw [zero_eq, fin_add, zero_add]
    | top => rfl
    | bot => rfl
    | undefined => rfl

namespace Extended

variable {K : Type} [Field K] [LinearOrder K]

/-- In exact arithmetic, numbers that match are equal. -/
theorem eq_of_matches {x y : Extended K} (h : Matches x y) : x = y := by
  rcases h with h | ⟨hx, hy⟩
  · exact h
  · rw [eq_of_same hx, eq_of_same hy]

/-- A number is zero for the tests only if it is zero. -/
theorem isZero_fin {x : K} : ((fin x : Extended K) == 0) = false ↔ x ≠ 0 := by
  rw [zero_eq, fin_beq, decide_eq_false_iff_not]

end Extended

end BoundedSimplex
