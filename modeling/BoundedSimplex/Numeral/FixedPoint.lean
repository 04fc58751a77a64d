/-
  BoundedSimplex.Numeral.FixedPoint — a fixed number of decimals of the exact value.

  The exact value is rounded once, half to even, and the text is padded on the left to a width.
-/
import BoundedSimplex.Numeral.Shortest

namespace BoundedSimplex.Numeral

/-! ## §1.  Rounding a quotient -/

/-- The nearest whole number to `n / d`; of two equally near ones the even one. -/
def roundHalfEven (n d : Nat) : Nat :=
  let q := n / d
  let r := n % d
  if 2 * r < d then q else if d < 2 * r then q + 1 else if q % 2 = 0 then q else q + 1

/-- Rounding moves by at most half a unit. -/
theorem roundHalfEven_near (n : Nat) {d : Nat} (pos : 0 < d) :
    2 * n ≤ 2 * (roundHalfEven n d * d) + d ∧ 2 * (roundHalfEven n d * d) ≤ 2 * n + d := by
  have split_n : n = n / d * d + n % d := by
    rw [Nat.mul_comm]
    exact (Nat.div_add_mod n d).symm
  unfold roundHalfEven
  dsimp only
  split
  · omega
  · split
    · have small : n % d < d := Nat.mod_lt n pos
      rw [Nat.add_mul]
      omega
    · split
      · omega
      · rw [Nat.add_mul]
        omega

/-! ## §2.  The text -/

/-- Layout of a number in a table. -/
structure Layout where
  places : Nat
  width : Nat

/-- Pads on the left with blanks. -/
def padLeft (width : Nat) (cs : List Char) : List Char :=
  List.replicate (width - cs.length) ' ' ++ cs

/-- Whole part, point, and exactly `places` decimals. -/
def Binary.decimals (b : Binary) (places : Nat) : List Char :=
  let unit := Nat.pow 10 places
  let n := roundHalfEven (b.significand * powNumerator 2 b.exponent * unit)
    (powDenominator 2 b.exponent)
  let fraction := digits (n % unit)
  pointed (digits (n / unit)) (List.replicate (places - fraction.length) '0' ++ fraction)

/-- The text of a number in a table; numbers without digits have no decimals. -/
def Meaning.tableText (layout : Layout) : Meaning → List Char
  | .finite b => padLeft layout.width (signed b.negative (b.decimals layout.places))
  | other => padLeft layout.width other.shortestText

end BoundedSimplex.Numeral
