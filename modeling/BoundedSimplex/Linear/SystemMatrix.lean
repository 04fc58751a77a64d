/-
  BoundedSimplex.Linear.SystemMatrix — the matrix of the equations, in three forms.

  Solving with the basis reads dense columns, pricing reads sparse columns, printing reads sparse
  rows.  Every write goes to all three.  A zero keeps its sign in the dense form only.
-/
import BoundedSimplex.Linear.SparseVector

namespace BoundedSimplex

/-- A matrix of `rowCount` rows and `columnCount` columns. -/
structure SystemMatrix (α : Type) where
  rowCount : Nat
  columnCount : Nat
  /-- The entries, column after column: those of column `j` from position `j * rowCount` on. -/
  dense : List α
  columns : List (SparseVector α)
  rows : List (SparseVector α)
deriving BEq, Repr

namespace SystemMatrix

variable {α : Type} [Scalar α]

/-! ## §1.  Entries -/

/-- The zero matrix. -/
def zero (m n : Nat) : SystemMatrix α :=
  { rowCount := m
    columnCount := n
    dense := Scalar.zeros (m * n)
    columns := List.replicate n (.zero m)
    rows := List.replicate m (.zero n) }

/-- `zero`, if there is room for it. -/
def zero? (m n : Nat) : Checked (SystemMatrix α) := do
  Checked.requireRoom (max (m * n) (max m n))
  return zero m n

/-- Where the number in row `i` and column `j` stands in the dense form. -/
def place (a : SystemMatrix α) (i j : Nat) : Nat := j * a.rowCount + i

/-- The number in row `i` and column `j`. -/
def entry (a : SystemMatrix α) (i j : Nat) : α := a.dense.getD (a.place i j) 0

/-- The matrix with one number replaced. -/
def write (a : SystemMatrix α) (i j : Nat) (x : α) : SystemMatrix α :=
  { a with
    dense := a.dense.set (a.place i j) x
    columns := a.columns.modify j (·.write i x)
    rows := a.rows.modify i (·.write j x) }

/-- There is a row `i` and a column `j`. -/
def requirePlace (a : SystemMatrix α) (i j : Nat) : Checked Unit := do
  Checked.require (i < a.rowCount) (.outOfRange i a.rowCount)
  Checked.require (j < a.columnCount) (.outOfRange j a.columnCount)

/-- `entry` at a place of the matrix. -/
def get (a : SystemMatrix α) (i j : Nat) : Checked α := do
  a.requirePlace i j
  Checked.getAt a.dense (a.place i j)

/-- `write` at a place of the matrix. -/
def set (a : SystemMatrix α) (i j : Nat) (x : α) : Checked (SystemMatrix α) := do
  a.requirePlace i j
  let dense ← Checked.setAt a.dense (a.place i j) x
  let columns ← Checked.setAt a.columns j (← (← Checked.getAt a.columns j).set i x)
  let rows ← Checked.setAt a.rows i (← (← Checked.getAt a.rows i).set j x)
  return { a with dense, columns, rows }

/-- Writes row `i` from a list of its numbers. -/
def writeRow (a : SystemMatrix α) (i : Nat) (xs : List α) : Checked (SystemMatrix α) :=
  xs.zipIdx.foldlM (fun b p => b.set i p.2 p.1) a

/-- The matrix with the given rows, one after the other in `xs`. -/
def ofRowMajor (xs : List α) (m n : Nat) : Checked (SystemMatrix α) := do
  Checked.require (xs.length = m * n) (.sizeMismatch xs.length (m * n))
  let blank ← zero? m n
  (List.range m).foldlM (fun b i => b.writeRow i ((xs.drop (i * n)).take n)) blank

/-! ## §2.  Columns and rows -/

/-- Column `j`, dense. -/
def column (a : SystemMatrix α) (j : Nat) : Checked (List α) := do
  Checked.require (j < a.columnCount) (.outOfRange j a.columnCount)
  Checked.slice a.dense (j * a.rowCount) ((j + 1) * a.rowCount)

/-- Column `j`, sparse. -/
def sparseColumn (a : SystemMatrix α) (j : Nat) : Checked (SparseVector α) :=
  Checked.getAt a.columns j

/-- Row `i`, sparse. -/
def sparseRow (a : SystemMatrix α) (i : Nat) : Checked (SparseVector α) := Checked.getAt a.rows i

/-- Copies column `j` to its position in a dense form with one more row. -/
def copyColumn (a : SystemMatrix α) (dense : List α) (j : Nat) : Checked (List α) := do
  let column ← Checked.slice a.dense (j * a.rowCount) ((j + 1) * a.rowCount)
  Checked.overwrite dense (j * (a.rowCount + 1)) column

/-- One more row of zeros, at the end.  In the dense form every column moves, for all of them get
    longer. -/
def appendRow (a : SystemMatrix α) : Checked (SystemMatrix α) := do
  let dense ← (List.range a.columnCount).foldlM a.copyColumn
    (Scalar.zeros ((a.rowCount + 1) * a.columnCount))
  return { rowCount := a.rowCount + 1
           columnCount := a.columnCount
           dense
           columns := a.columns.map (·.grow 1)
           rows := a.rows ++ [.zero a.columnCount] }

/-- One more column of zeros, at the end. -/
def appendColumn (a : SystemMatrix α) : SystemMatrix α :=
  { rowCount := a.rowCount
    columnCount := a.columnCount + 1
    dense := a.dense ++ Scalar.zeros a.rowCount
    columns := a.columns ++ [.zero a.rowCount]
    rows := a.rows.map (·.grow 1) }

/-- Adds to the number in row `i` and column `j`. -/
def addEntry (a : SystemMatrix α) (i j : Nat) (x : α) : Checked (SystemMatrix α) := do
  let old ← a.get i j
  a.set i j (old + x)

/-! ## §3.  Folding one column into another -/

/-- A sum that is negligible is an exact zero. -/
def settle (x : α) : α := if Scalar.magnitude x < Scalar.negligible then 0 else x

/-- Moves one entry of column `source` over to column `target`. -/
def moveEntry (source target : Nat) (a : SystemMatrix α) (entry : Nat × α) :
    Checked (SystemMatrix α) := do
  let old ← a.get entry.1 target
  let a ← a.set entry.1 target (settle (old + entry.2))
  a.set entry.1 source 0

/-- Adds column `source` to column `target` and clears it.  Nothing is left of it then, not in the
    dense form either. -/
def mergeColumns (a : SystemMatrix α) (source target : Nat) : Checked (SystemMatrix α) := do
  Checked.require (source ≠ target) (.sameVariable source)
  let folded ← a.sparseColumn source
  let a ← folded.entries.foldlM (moveEntry source target) a
  let cleared ← a.column source
  Checked.require (cleared.all (· == 0) = true) (.notCleared source)
  return a

/-! ## §4.  The matrix as a whole -/

/-- The product with a vector, row by row. -/
def multiply (a : SystemMatrix α) (xs : List α) : Checked (List α) := do
  Checked.require (xs.length = a.columnCount) (.sizeMismatch xs.length a.columnCount)
  a.rows.mapM (·.dot xs)

/-- Number of stored entries. -/
def size (a : SystemMatrix α) : Nat := a.columns.foldl (fun n c => n + c.size) 0

/-- A line of columns per row. -/
def text [Written α] (a : SystemMatrix α) : String :=
  let line (i : Nat) : String :=
    String.intercalate " " ((List.range a.columnCount).map fun j => Written.column (a.entry i j))
      ++ "\n"
  String.join ((List.range a.rowCount).map line)

@[simp] theorem rowCount_write (a : SystemMatrix α) (i j : Nat) (x : α) :
    (a.write i j x).rowCount = a.rowCount := rfl

@[simp] theorem columnCount_write (a : SystemMatrix α) (i j : Nat) (x : α) :
    (a.write i j x).columnCount = a.columnCount := rfl

end SystemMatrix

end BoundedSimplex
