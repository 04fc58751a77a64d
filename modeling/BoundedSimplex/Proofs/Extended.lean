/-
  BoundedSimplex.Proofs.Extended — exact arithmetic as numbers of the tableau.

  The elements of an ordered field, two infinities for absent bounds, and one undefined result.  All
  operations that the tableau performs on elements of the field are the operations of the field;
  infinities arise from bounds only, and comparisons with the undefined result are false.

  Main results:
    * `isFinite_iff` — the finite numbers are the elements of the field;
    * `singular_pos` — the threshold below which a pivot counts as zero is positive;
    * `lt_infinity_iff`, `neg_infinity_lt_iff` — what a proper lower or upper bound can be;
    * `lower_add`, `lower_mul_of_pos`, … — proper bounds of linear forms.
-/
import BoundedSimplex.Scalar
import Mathlib.Algebra.Order.Field.Basic
import Mathlib.Tactic.Linarith
import Mathlib.Tactic.NormNum

namespace BoundedSimplex

/-- A number of an ordered field, an infinity, or no number at all. -/
inductive Extended (K : Type) where
  | fin (x : K)
  | top
  | bot
  | undefined
deriving DecidableEq, Repr

namespace Extended

variable {K : Type} [Field K] [LinearOrder K]

/-! ## §1.  Operations -/

/-- The infinity of the sign of a number; zero has none. -/
def signed (x : K) : Extended K := if x = 0 then undefined else if 0 < x then top else bot

/-- The negative. -/
def neg : Extended K → Extended K
  | fin x => fin (-x)
  | top => bot
  | bot => top
  | undefined => undefined

/-- The sum; infinities of opposite sign have none. -/
def add : Extended K → Extended K → Extended K
  | fin x, fin y => fin (x + y)
  | undefined, _ | _, undefined => undefined
  | top, bot | bot, top => undefined
  | top, _ | _, top => top
  | bot, _ | _, bot => bot

/-- The product; zero times an infinity has none. -/
def mul : Extended K → Extended K → Extended K
  | fin x, fin y => fin (x * y)
  | undefined, _ | _, undefined => undefined
  | fin x, top | top, fin x => signed x
  | fin x, bot | bot, fin x => signed (-x)
  | top, top | bot, bot => top
  | top, bot | bot, top => bot

/-- The quotient.  A number over zero is the infinity of its sign. -/
def div : Extended K → Extended K → Extended K
  | fin x, fin y => if y = 0 then signed x else fin (x / y)
  | fin _, top | fin _, bot => fin 0
  | top, fin y => if y < 0 then bot else top
  | bot, fin y => if y < 0 then top else bot
  | _, _ => undefined

/-- The absolute value. -/
def magnitude : Extended K → Extended K
  | fin x => fin |x|
  | top | bot => top
  | undefined => undefined

/-- Strictly below. -/
def lt : Extended K → Extended K → Bool
  | fin x, fin y => decide (x < y)
  | bot, fin _ | bot, top | fin _, top => true
  | _, _ => false

/-- Below or equal. -/
def le : Extended K → Extended K → Bool
  | fin x, fin y => decide (x ≤ y)
  | bot, fin _ | bot, top | bot, bot | fin _, top | top, top => true
  | _, _ => false

/-- Equal as numbers; the undefined result equals nothing. -/
def same : Extended K → Extended K → Bool
  | fin x, fin y => decide (x = y)
  | top, top | bot, bot => true
  | _, _ => false

/-- The decimal number `m * 10 ^ e`, or `m / 10 ^ e` if the exponent is negative. -/
def decimal (m : Nat) (negative : Bool) (e : Nat) : Extended K :=
  fin (if negative then (m : K) / (Nat.pow 10 e : Nat) else (m : K) * (Nat.pow 10 e : Nat))

instance instScalarExtended : Scalar (Extended K) where
  add := add
  sub x y := add x (neg y)
  mul := mul
  div := div
  neg := neg
  zero := fin 0
  one := fin 1
  lt x y := lt x y = true
  le x y := le x y = true
  beq := same
  ofScientific := decimal
  decidableLT x y := inferInstanceAs (Decidable (lt x y = true))
  decidableLE x y := inferInstanceAs (Decidable (le x y = true))
  infinity := top
  magnitude := magnitude
  isFinite
    | fin _ => true
    | _ => false

/-! ## §2.  The operations on elements of the field -/

section Elements

variable (x y : K)

@[simp] theorem zero_eq : (0 : Extended K) = fin 0 := rfl

@[simp] theorem one_eq : (1 : Extended K) = fin 1 := rfl

@[simp] theorem fin_add : (fin x + fin y : Extended K) = fin (x + y) := rfl

@[simp] theorem fin_sub : (fin x - fin y : Extended K) = fin (x - y) := by
  show fin (x + -y) = fin (x - y)
  rw [sub_eq_add_neg]

@[simp] theorem fin_mul : (fin x * fin y : Extended K) = fin (x * y) := rfl

@[simp] theorem fin_neg : (-fin x : Extended K) = fin (-x) := rfl

/-- Division by a number that is not zero. -/
theorem fin_div {y : K} (hy : y ≠ 0) : (fin x / fin y : Extended K) = fin (x / y) := by
  show (if y = 0 then signed x else fin (x / y)) = _
  rw [if_neg hy]

@[simp] theorem fin_beq : (fin x == fin y) = decide (x = y) := rfl

@[simp] theorem fin_lt_fin : (fin x : Extended K) < fin y ↔ x < y := by
  show decide (x < y) = true ↔ _
  exact decide_eq_true_iff

@[simp] theorem fin_le_fin : (fin x : Extended K) ≤ fin y ↔ x ≤ y := by
  show decide (x ≤ y) = true ↔ _
  exact decide_eq_true_iff

@[simp] theorem magnitude_fin : Scalar.magnitude (fin x) = fin |x| := rfl

@[simp] theorem isFinite_fin : Scalar.isFinite (fin x) = true := rfl

end Elements

/-- What compares as equal is equal. -/
theorem eq_of_same {x y : Extended K} (h : (x == y) = true) : x = y := by
  cases x <;> cases y <;>
    first
    | rfl
    | exact absurd h Bool.false_ne_true
    | exact congrArg fin (of_decide_eq_true h)

/-- The finite numbers are the elements of the field. -/
theorem isFinite_iff {x : Extended K} : Scalar.isFinite x = true ↔ ∃ a, x = fin a := by
  cases x with
  | fin a => exact ⟨fun _ => ⟨a, rfl⟩, fun _ => rfl⟩
  | top => exact ⟨fun h => absurd h Bool.false_ne_true, fun ⟨_, h⟩ => nomatch h⟩
  | bot => exact ⟨fun h => absurd h Bool.false_ne_true, fun ⟨_, h⟩ => nomatch h⟩
  | undefined => exact ⟨fun h => absurd h Bool.false_ne_true, fun ⟨_, h⟩ => nomatch h⟩

/-- The element of the field, zero if there is none. -/
def val : Extended K → K
  | fin x => x
  | _ => 0

omit [LinearOrder K] in
@[simp] theorem val_fin (x : K) : (fin x : Extended K).val = x := rfl

/-- A finite number is the element that it stands for. -/
theorem fin_val {x : Extended K} (h : Scalar.isFinite x = true) : fin x.val = x := by
  obtain ⟨a, rfl⟩ := isFinite_iff.mp h
  rfl

/-! ## §3.  Infinities -/

@[simp] theorem infinity_eq : (Scalar.infinity : Extended K) = top := rfl

@[simp] theorem neg_top : (-top : Extended K) = bot := rfl

/-- A lower bound that some number satisfies is absent or an element of the field. -/
theorem lt_infinity_iff {x : Extended K} : x < Scalar.infinity ↔ x = bot ∨ ∃ a, x = fin a := by
  cases x with
  | fin a => exact ⟨fun _ => .inr ⟨a, rfl⟩, fun _ => rfl⟩
  | bot => exact ⟨fun _ => .inl rfl, fun _ => rfl⟩
  | top => exact ⟨fun h => absurd h Bool.false_ne_true, by simp⟩
  | undefined => exact ⟨fun h => absurd h Bool.false_ne_true, by simp⟩

/-- An upper bound that some number satisfies is absent or an element of the field. -/
theorem neg_infinity_lt_iff {x : Extended K} :
    -Scalar.infinity < x ↔ x = top ∨ ∃ a, x = fin a := by
  cases x with
  | fin a => exact ⟨fun _ => .inr ⟨a, rfl⟩, fun _ => rfl⟩
  | top => exact ⟨fun _ => .inl rfl, fun _ => rfl⟩
  | bot => exact ⟨fun h => absurd h Bool.false_ne_true, by simp⟩
  | undefined => exact ⟨fun h => absurd h Bool.false_ne_true, by simp⟩

/-! ## §4.  Sums and multiples of proper bounds -/

section Proper

variable {l l' u u' : Extended K} {c : K}

/-- A sum of lower bounds can be met. -/
theorem lower_add (h : l < Scalar.infinity) (h' : l' < Scalar.infinity) :
    l + l' < Scalar.infinity := by
  obtain rfl | ⟨a, rfl⟩ := lt_infinity_iff.mp h
  · obtain rfl | ⟨b, rfl⟩ := lt_infinity_iff.mp h'
    · rfl
    · rfl
  · obtain rfl | ⟨b, rfl⟩ := lt_infinity_iff.mp h'
    · rfl
    · rfl

/-- A sum of upper bounds can be met. -/
theorem upper_add (h : -Scalar.infinity < u) (h' : -Scalar.infinity < u') :
    -Scalar.infinity < u + u' := by
  obtain rfl | ⟨a, rfl⟩ := neg_infinity_lt_iff.mp h
  · obtain rfl | ⟨b, rfl⟩ := neg_infinity_lt_iff.mp h'
    · rfl
    · rfl
  · obtain rfl | ⟨b, rfl⟩ := neg_infinity_lt_iff.mp h'
    · rfl
    · rfl

theorem signed_of_pos (hc : 0 < c) : signed c = top := by
  rw [signed, if_neg hc.ne', if_pos hc]

theorem signed_of_neg (hc : c < 0) : signed c = bot := by
  rw [signed, if_neg hc.ne, if_neg hc.not_gt]

/-- A positive coefficient takes an upper bound to one. -/
theorem upper_mul_of_pos (hc : 0 < c) (h : -Scalar.infinity < u) :
    -Scalar.infinity < fin c * u := by
  obtain rfl | ⟨a, rfl⟩ := neg_infinity_lt_iff.mp h
  · show _ < signed c
    rw [signed_of_pos hc]
    rfl
  · rfl

/-- A negative coefficient exchanges lower and upper bounds. -/
theorem lower_mul_of_neg (hc : c < 0) (h : -Scalar.infinity < u) : fin c * u < Scalar.infinity := by
  obtain rfl | ⟨a, rfl⟩ := neg_infinity_lt_iff.mp h
  · show signed c < _
    rw [signed_of_neg hc]
    rfl
  · rfl

variable [IsStrictOrderedRing K]

/-- A positive factor leaves a lower bound that can be met. -/
theorem lower_mul_of_pos (hc : 0 < c) (h : l < Scalar.infinity) : fin c * l < Scalar.infinity := by
  obtain rfl | ⟨a, rfl⟩ := lt_infinity_iff.mp h
  · show signed (-c) < _
    rw [signed_of_neg (neg_neg_of_pos hc)]
    rfl
  · rfl

/-- A negative factor makes an upper bound that can be met. -/
theorem upper_mul_of_neg (hc : c < 0) (h : l < Scalar.infinity) : -Scalar.infinity < fin c * l := by
  obtain rfl | ⟨a, rfl⟩ := lt_infinity_iff.mp h
  · show _ < signed (-c)
    rw [signed_of_pos (neg_pos_of_neg hc)]
    rfl
  · rfl

end Proper

/-! ## §5.  The threshold for pivots -/

/-- The tolerance for pivots is a positive number. -/
theorem singular_pos [IsStrictOrderedRing K] :
    ∃ ε : K, (Scalar.singular : Extended K) = fin ε ∧ 0 < ε := by
  refine ⟨_, rfl, ?_⟩
  show (0 : K) < ((1 : Nat) : K) / ((Nat.pow 10 12 : Nat) : K)
  norm_num

end Extended

end BoundedSimplex
