/-
  BoundedSimplex.Linear.SparseVector — vectors that store their nonzero entries only.

  Entries stand in the order in which they were first written.  Taking one out moves the last one
  into its place.  The order is visible in sums of rounded numbers; the vector that is meant is
  `toDense`.
-/
import BoundedSimplex.Contract
import BoundedSimplex.Numeral

namespace BoundedSimplex

/-- A vector of `length` numbers; those without an entry are zero. -/
structure SparseVector (α : Type) where
  length : Nat
  entries : List (Nat × α)
deriving BEq, Repr

namespace SparseVector

variable {α : Type}

/-! ## §1.  Storage of the entries -/

/-- Takes the entry at a place out and moves the last entry there. -/
def takeOut (xs : List (Nat × α)) (place : Nat) : List (Nat × α) :=
  match xs.getLast? with
  | some z => (xs.set place z).dropLast
  | none => []

/-- The place of the entry for index `i`. -/
def place? (xs : List (Nat × α)) (i : Nat) : Option Nat := xs.findIdx? (·.1 == i)

/-- The zero vector. -/
def zero (n : Nat) : SparseVector α := ⟨n, []⟩

/-- Nothing to index. -/
def isEmpty (v : SparseVector α) : Bool := v.length == 0

/-- Number of entries. -/
def size (v : SparseVector α) : Nat := v.entries.length

/-- A longer vector with the same entries. -/
def grow (v : SparseVector α) (extra : Nat) : SparseVector α :=
  { v with length := v.length + extra }

@[simp] theorem length_grow (v : SparseVector α) (k : Nat) : (v.grow k).length = v.length + k := rfl

/-- `grow` as long as the length fits into a machine word. -/
def grow? (v : SparseVector α) (extra : Nat) : Checked (SparseVector α) := do
  Checked.require (v.length + extra < Checked.wordSize) .sizeOverflow
  return v.grow extra

variable [Scalar α]

/-! ## §2.  Single entries -/

/-- The number at index `i`. -/
def coeff (v : SparseVector α) (i : Nat) : α := (v.entries.lookup i).getD 0

/-- The vector with the number at index `i` replaced.  A zero is not stored. -/
def write (v : SparseVector α) (i : Nat) (x : α) : SparseVector α :=
  match place? v.entries i with
  | some p =>
    if x == 0 then { v with entries := takeOut v.entries p }
    else { v with entries := v.entries.set p (i, x) }
  | none => if x == 0 then v else { v with entries := v.entries ++ [(i, x)] }

/-- `coeff` at an index of the vector. -/
def get (v : SparseVector α) (i : Nat) : Checked α := do
  Checked.require (i < v.length) (.outOfRange i v.length)
  return v.coeff i

/-- `write` at an index of the vector. -/
def set (v : SparseVector α) (i : Nat) (x : α) : Checked (SparseVector α) := do
  Checked.require (i < v.length) (.outOfRange i v.length)
  return v.write i x

/-! ## §3.  Dense vectors -/

/-- The entries of a dense vector, zeros of either sign left out. -/
def ofDense (xs : List α) : SparseVector α :=
  ⟨xs.length, (xs.zipIdx.filter fun p => !(p.1 == 0)).map fun p => (p.2, p.1)⟩

/-- The vector that is meant. -/
def toDense (v : SparseVector α) : List α :=
  v.entries.foldl (fun xs p => xs.set p.1 p.2) (Scalar.zeros v.length)

/-- `toDense`, if there is room for it and the entries are in range. -/
def toDense? (v : SparseVector α) : Checked (List α) := do
  Checked.requireRoom v.length
  v.entries.foldlM (fun xs p => Checked.setAt xs p.1 p.2) (Scalar.zeros v.length)

/-- Inner product, summed in the order of the entries. -/
def dot (v : SparseVector α) (xs : List α) : Checked α := do
  Checked.require (xs.length = v.length) (.sizeMismatch xs.length v.length)
  let products ← v.entries.mapM fun p => return p.2 * (← Checked.getAt xs p.1)
  return Scalar.sum products

/-- Adds a multiple of the vector to a dense one. -/
def addTo (v : SparseVector α) (factor : α) (xs : List α) : Checked (List α) := do
  Checked.require (xs.length = v.length) (.sizeMismatch xs.length v.length)
  v.entries.foldlM (fun ys p => Checked.modifyAt ys p.1 (· + factor * p.2)) xs

/-- The entries by increasing index. -/
def sorted (v : SparseVector α) : List (Nat × α) := v.entries.mergeSort fun p q => p.1 ≤ q.1

/-- The entries by increasing index, each as index and number. -/
def text [Written α] (v : SparseVector α) : String :=
  let items := v.sorted.map fun (i, x) => s!"{i}: {Written.shortest x}"
  "[" ++ String.intercalate ", " items ++ "]"

/-- Nothing is stored in a zero vector. -/
@[simp] theorem coeff_zero (n i : Nat) : (zero n : SparseVector α).coeff i = 0 := rfl

/-- The new places of a longer vector are empty. -/
@[simp] theorem coeff_grow (v : SparseVector α) (extra i : Nat) :
    (v.grow extra).coeff i = v.coeff i := rfl

@[simp] theorem length_write (v : SparseVector α) (i : Nat) (x : α) :
    (v.write i x).length = v.length := by
  unfold write; split <;> split <;> rfl

end SparseVector

end BoundedSimplex
