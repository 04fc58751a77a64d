/-
  BoundedSimplex.Numeral.Binary — the exact value behind a rounded binary number.

  Every finite rounded number is a whole number times a power of two.  The texts of the modules
  beside this one are chosen by exact comparisons on that form.
-/
namespace BoundedSimplex.Numeral

/-! ## §1.  The three kinds of numbers -/

/-- The magnitude of a finite number is `significand * 2 ^ exponent`. -/
structure Binary where
  negative : Bool
  significand : Nat
  exponent : Int
  /-- The next smaller magnitude is half as far away as the next larger one. -/
  closeBelow : Bool
deriving DecidableEq, Repr

/-- What a rounded number stands for. -/
inductive Meaning where
  | undefined
  | infinite (negative : Bool)
  | finite (value : Binary)
deriving DecidableEq, Repr

/-! ## §2.  Reading the 64 bits of a double -/

/-- The fields of the interchange format: a sign bit, 11 bits of biased exponent, 52 bits of
    fraction.  The least exponent has no hidden bit and shares its scale with the next one. -/
def meaningOfBits (bits : Nat) : Meaning :=
  let hidden := Nat.pow 2 52
  let negative := bits / Nat.pow 2 63 % 2 == 1
  let biased : Nat := bits / hidden % Nat.pow 2 11
  let fraction : Nat := bits % hidden
  if biased = 2047 then
    if fraction = 0 then .infinite negative else .undefined
  else if biased = 0 then
    .finite ⟨negative, fraction, -1074, false⟩
  else
    .finite ⟨negative, hidden + fraction, (biased : Int) - 1075, fraction == 0 && biased != 1⟩

/-- What a double stands for. -/
def meaning (x : Float) : Meaning := meaningOfBits x.toBits.toNat

/-! ## §3.  Powers as ratios of whole numbers -/

/-- Numerator of `base ^ e`, which is one for a negative exponent. -/
def powNumerator (base : Nat) (e : Int) : Nat := Nat.pow base e.toNat

/-- Denominator of `base ^ e`, which is one unless the exponent is negative. -/
def powDenominator (base : Nat) (e : Int) : Nat := Nat.pow base (-e).toNat

end BoundedSimplex.Numeral
