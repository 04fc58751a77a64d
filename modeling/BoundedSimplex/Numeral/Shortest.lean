/-
  BoundedSimplex.Numeral.Shortest — the fewest decimal digits that read back as the same number.

  A double owns the interval of reals that round to it.  Grids of one, two, … seventeen significant
  digits are tried in turn; on the first grid with a point in the interval the nearer one of the
  value's two neighbours is taken, and the upper one if both are equally near.  The digits are
  written out in full, without an exponent and without a fraction that is zero.
-/
import BoundedSimplex.Numeral.Binary

namespace BoundedSimplex.Numeral

/-! ## §1.  The interval of a number, on a decimal grid -/

/-- A positive number in units of a grid `10 ^ scale`: the value and the two ends of its interval
    are `value`, `low` and `high` over the common denominator. -/
structure OnGrid where
  value : Nat
  low : Nat
  high : Nat
  denominator : Nat
  /-- An end of the interval belongs to it iff the significand is even. -/
  closed : Bool

/-- Quarters of the gap to the next number are whole, hence the exponent less two. -/
def Binary.onGrid (b : Binary) (scale : Int) : OnGrid :=
  let top := powNumerator 2 (b.exponent - 2) * powDenominator 10 scale
  { value := 4 * b.significand * top
    low := (4 * b.significand - if b.closeBelow then 1 else 2) * top
    high := (4 * b.significand + 2) * top
    denominator := powDenominator 2 (b.exponent - 2) * powNumerator 10 scale
    closed := b.significand % 2 == 0 }

/-- The grid point `d` lies in the interval. -/
def OnGrid.holds (g : OnGrid) (d : Nat) : Bool :=
  if g.closed then g.low ≤ d * g.denominator && d * g.denominator ≤ g.high
  else g.low < d * g.denominator && d * g.denominator < g.high

/-- The neighbour of the value that is in the interval, the nearer one of two, the upper one of two
    equally near. -/
def OnGrid.nearest? (g : OnGrid) : Option Nat :=
  let d := g.value / g.denominator
  let below := g.value - d * g.denominator
  match g.holds d, g.holds (d + 1) with
  | true, true => some (if 2 * below < g.denominator then d else d + 1)
  | true, false => some d
  | false, true => some (d + 1)
  | false, false => none

/-- What is found lies in the interval. -/
theorem OnGrid.holds_of_nearest? {g : OnGrid} {d : Nat} (h : g.nearest? = some d) :
    g.holds d = true := by
  unfold nearest? at h
  dsimp only at h
  split at h
  · split at h <;> (cases h; assumption)
  · cases h; assumption
  · cases h; assumption
  · cases h

/-- A grid point between the value and a point of the interval is one of the interval. -/
theorem OnGrid.holds_of_between {g : OnGrid} {d e : Nat} (h : g.holds d = true)
    (low_lt : g.low < g.value) (lt_high : g.value < g.high)
    (between : d * g.denominator ≤ e * g.denominator ∧ e * g.denominator ≤ g.value
      ∨ g.value ≤ e * g.denominator ∧ e * g.denominator ≤ d * g.denominator) :
    g.holds e = true := by
  unfold holds at h ⊢
  generalize d * g.denominator = a at h between
  generalize e * g.denominator = b at between ⊢
  cases closed : g.closed <;>
    simp only [closed, Bool.false_eq_true, if_true, if_false, Bool.and_eq_true,
      decide_eq_true_eq] at h ⊢ <;>
    omega

/-- Something is found if any grid point lies in the interval: then one of the value's
    two neighbours does.  So the first grid with a hit is the coarsest one with a
    point in the interval. -/
theorem OnGrid.nearest?_isSome {g : OnGrid} {d : Nat} (pos : 0 < g.denominator)
    (low_lt : g.low < g.value) (lt_high : g.value < g.high) (h : g.holds d = true) :
    g.nearest?.isSome = true := by
  have below : g.value / g.denominator * g.denominator ≤ g.value := Nat.div_mul_le_self _ _
  have above : g.value < (g.value / g.denominator + 1) * g.denominator := by
    rw [Nat.mul_comm]
    exact Nat.lt_mul_div_succ _ pos
  have neighbour : g.holds (g.value / g.denominator) = true
      ∨ g.holds (g.value / g.denominator + 1) = true := by
    rcases Nat.lt_or_ge (g.value / g.denominator) d with lt | ge
    · exact .inr (holds_of_between h low_lt lt_high
        (.inr ⟨Nat.le_of_lt above, Nat.mul_le_mul_right _ lt⟩))
    · exact .inl (holds_of_between h low_lt lt_high (.inl ⟨Nat.mul_le_mul_right _ ge, below⟩))
  unfold nearest?
  dsimp only
  rcases neighbour with left | right
  · rw [left]
    cases g.holds (g.value / g.denominator + 1) <;> rfl
  · rw [right]
    cases g.holds (g.value / g.denominator) <;> rfl

/-! ## §2.  Choosing the grid -/

/-- `10 ^ k` is at most the number. -/
def Binary.reaches (b : Binary) (k : Int) : Bool :=
  powNumerator 10 k * powDenominator 2 b.exponent
    ≤ b.significand * powNumerator 2 b.exponent * powDenominator 10 k

/-- The `k` with `10 ^ k ≤ b < 10 ^ (k + 1)`: an estimate from the binary
    logarithm, mended by one. -/
def Binary.decimalExponent (b : Binary) : Int :=
  let guess := (((Nat.log2 b.significand : Int) + b.exponent) * 30103).fdiv 100000
  if b.reaches (guess + 1) then guess + 1 else if b.reaches guess then guess else guess - 1

/-- Digits `d` and scale `p` of the shortest decimal `d * 10 ^ p`. -/
def Binary.shortest (b : Binary) : Nat × Int :=
  let k := b.decimalExponent
  let attempt (n : Nat) : Option (Nat × Int) :=
    let scale := k + 1 - n
    (b.onGrid scale).nearest?.map fun d => (d, scale)
  ((List.range' 1 17).findSome? attempt).getD (b.significand, b.exponent)

/-! ## §3.  Writing the digits in place -/

/-- Decimal digits of a natural number, the first one first. -/
def digits (n : Nat) : List Char := Nat.toDigits 10 n

/-- Drops the zeros that end a fraction. -/
def trimFraction (cs : List Char) : List Char := (cs.reverse.dropWhile (· == '0')).reverse

/-- A whole part and a fraction, the point only before a fraction that is not empty. -/
def pointed (whole fraction : List Char) : List Char :=
  if fraction.isEmpty then whole else whole ++ '.' :: fraction

/-- `d * 10 ^ p` written out. -/
def positional (d : Nat) (p : Int) : List Char :=
  let ds := digits d
  if 0 ≤ p then ds ++ List.replicate p.toNat '0'
  else
    let places := (-p).toNat
    if places < ds.length then
      pointed (ds.take (ds.length - places)) (trimFraction (ds.drop (ds.length - places)))
    else
      pointed ['0'] (trimFraction (List.replicate (places - ds.length) '0' ++ ds))

/-- The sign, then the magnitude. -/
def signed (negative : Bool) (cs : List Char) : List Char := if negative then '-' :: cs else cs

/-- The shortest text of a number: `NaN`, `inf`, `-inf`, or digits; zero keeps its sign. -/
def Meaning.shortestText : Meaning → List Char
  | .undefined => "NaN".toList
  | .infinite negative => signed negative "inf".toList
  | .finite b =>
    signed b.negative
      (if b.significand = 0 then ['0'] else positional b.shortest.1 b.shortest.2)

end BoundedSimplex.Numeral
