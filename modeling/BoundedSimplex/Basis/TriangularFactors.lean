/-
  BoundedSimplex.Basis.TriangularFactors — a basis as a product of triangular matrices.

  Elimination with row exchanges writes the basis `B` as `P B = L U`: a permutation `P`, a lower
  triangular `L` with ones on the diagonal, an upper triangular `U`.  Both triangles share the
  places of one square; systems with `B`, on either side, are solved by substitution.
-/
import BoundedSimplex.Contract
import BoundedSimplex.Failure
import BoundedSimplex.Scalar

namespace BoundedSimplex

/-- `L` below the diagonal, `U` on and above it, by rows.  Row `i` of `P B` is row
    `order[i]` of `B`. -/
structure TriangularFactors (α : Type) where
  packed : List (List α)
  order : List Nat
deriving Repr

namespace TriangularFactors

variable {α : Type} [Scalar α]

/-! ## §1.  Squares of numbers -/

/-- The number in row `i` and column `j`, which has to exist. -/
def at2? (rows : List (List α)) (i j : Nat) : Checked α := do
  Checked.getAt (← Checked.getAt rows i) j

/-- The columns of a square of `m` rows, or the rows of one given by columns. -/
def flip? (m : Nat) (rows : List (List α)) : Checked (List (List α)) :=
  (List.range m).mapM fun j => rows.mapM fun row => Checked.getAt row j

/-- Exchanges the entries at two positions, which have to exist. -/
def exchange? {β : Type} (xs : List β) (i j : Nat) : Checked (List β) := do
  let x ← Checked.getAt xs i
  let y ← Checked.getAt xs j
  Checked.setAt (← Checked.setAt xs i y) j x

/-! ## §2.  Elimination -/

/-- The later one of two candidates for the pivot row unless the earlier one is larger. -/
def betterPivot (best candidate : Nat × α) : Nat × α :=
  if best.2 > candidate.2 then best else candidate

/-- The row at or below `k` with the largest entry in column `k`, and the
    magnitude of that entry. -/
def choosePivot? (rows : List (List α)) (k : Nat) : Checked (Nat × α) := do
  let weigh (i : Nat) : Checked (Nat × α) := return (i, Scalar.magnitude (← at2? rows i k))
  let below := List.range' (k + 1) (rows.length - (k + 1))
  below.foldlM (fun best i => return betterPivot best (← weigh i)) (← weigh k)

/-- Subtracts the multiple of the pivot row that clears place `k`, and keeps the factor there. -/
def reduceRow? (k : Nat) (pivotRow row : List α) : Checked (List α) := do
  let factor := (← Checked.getAt row k) / (← Checked.getAt pivotRow k)
  row.zipIdx.mapM fun (x, j) =>
    if j < k then return x
    else if j = k then return factor
    else if factor == 0 then return x
    else return x - factor * (← Checked.getAt pivotRow j)

/-- Clears column `k` below the diagonal. -/
def clearColumn? (k : Nat) (rows : List (List α)) : Checked (List (List α)) := do
  let pivotRow ← Checked.getAt rows k
  rows.zipIdx.mapM fun (row, i) => if i ≤ k then return row else reduceRow? k pivotRow row

/-- A pivot of this size can be divided by. -/
def isUsable (size : α) : Bool := size == size && !decide (size < Scalar.singular)

/-- A step of the elimination: bring the best pivot up, then clear the column below it. -/
def eliminate? (f : TriangularFactors α) (k : Nat) :
    Checked (Except FactorizationFailure (TriangularFactors α)) := do
  let (row, size) ← choosePivot? f.packed k
  if isUsable size then
    let packed ← clearColumn? k (← exchange? f.packed k row)
    let order ← exchange? f.order k row
    return .ok ⟨packed, order⟩
  else
    return .error (.singularBasis k)

/-- The next step, unless an earlier one found no pivot. -/
def eliminateNext (before : Except FactorizationFailure (TriangularFactors α)) (k : Nat) :
    Checked (Except FactorizationFailure (TriangularFactors α)) :=
  match before with
  | .ok f => f.eliminate? k
  | .error cause => return .error cause

/-- The factors of a square, given by rows. -/
def ofRows? (rows : List (List α)) :
    Checked (Except FactorizationFailure (TriangularFactors α)) :=
  (List.range rows.length).foldlM eliminateNext (.ok ⟨rows, List.range rows.length⟩)

/-- The factors of the basis with the given columns, which all need as many entries as there are
    columns. -/
def ofColumns? (columns : List (List α)) :
    Checked (Except FactorizationFailure (TriangularFactors α)) :=
  match columns.find? fun column => column.length != columns.length with
  | some column => return .error (.dimensionMismatch columns.length column.length)
  | none => do ofRows? (← flip? columns.length columns)

/-- The factors of the identity. -/
def identity (m : Nat) : TriangularFactors α :=
  ⟨(List.range m).map (Scalar.unit m), List.range m⟩

/-! ## §3.  Substitution -/

/-- The sum of the unknowns found so far times their coefficients, which stand in a row
    from a position on. -/
def known? (row : List α) (start : Nat) (xs : List α) : Checked α := do
  let products ← xs.zipIdx.mapM fun (x, l) => return (← Checked.getAt row (start + l)) * x
  return Scalar.sum products

/-- What is left of `y` for the unknown itself, divided by its coefficient unless that is one. -/
def unknown? (unitDiagonal : Bool) (row : List α) (diagonal start : Nat) (y : α) (xs : List α) :
    Checked α := do
  let rest := y - (← known? row start xs)
  if unitDiagonal then return rest else return rest / (← Checked.getAt row diagonal)

/-- Solves a lower triangular system from the first unknown on. -/
def substituteDown? (unitDiagonal : Bool) (rows : List (List α)) (ys : List α) :
    Checked (List α) := do
  let next (xs : List α) (equation : List α × α) : Checked (List α) := do
    return xs ++ [← unknown? unitDiagonal equation.1 xs.length 0 equation.2 xs]
  (← Checked.zip? rows ys).foldlM next []

/-- Solves an upper triangular system from the last unknown on. -/
def substituteUp? (unitDiagonal : Bool) (rows : List (List α)) (ys : List α) :
    Checked (List α) := do
  let next (equation : (List α × α) × Nat) (xs : List α) : Checked (List α) := do
    let ((row, y), i) := equation
    return (← unknown? unitDiagonal row i (i + 1) y xs) :: xs
  (← Checked.zip? rows ys).zipIdx.foldrM next []

/-- Number of rows. -/
def size (f : TriangularFactors α) : Nat := f.packed.length

/-- Puts entry `i` of `ys` to position `order[i]`. -/
def scatter? (order : List Nat) (ys : List α) : Checked (List α) := do
  (← Checked.zip? order ys).foldlM (fun xs (i, y) => Checked.setAt xs i y)
    (Scalar.zeros order.length)

/-- Solves `B x = y`. -/
def solveColumn? (f : TriangularFactors α) (y : List α) : Checked (List α) := do
  let permuted ← f.order.mapM (Checked.getAt y)
  substituteUp? false f.packed (← substituteDown? true f.packed permuted)

/-- Solves `x B = y`. -/
def solveRow? (f : TriangularFactors α) (y : List α) : Checked (List α) := do
  let columns ← flip? f.size f.packed
  scatter? f.order (← substituteUp? true columns (← substituteDown? false columns y))

/-! ## §4.  What the steps find

The same computations without the question whether every position exists.  On squares, where every
position does, they are what the definitions above find. -/

/-- What `at2?` finds in a square. -/
def at2 (rows : List (List α)) (i j : Nat) : α := (rows.getD i []).getD j 0

/-- What `flip?` finds for a square. -/
def flip (m : Nat) (rows : List (List α)) : List (List α) :=
  (List.range m).map fun j => rows.map fun row => row.getD j 0

/-- What `exchange?` finds for two positions that exist. -/
def exchange {β : Type} (xs : List β) (i j : Nat) : List β :=
  match xs[i]?, xs[j]? with
  | some x, some y => (xs.set i y).set j x
  | _, _ => xs

/-- What `choosePivot?` finds in a square. -/
def choosePivot (rows : List (List α)) (k : Nat) : Nat × α :=
  let weigh (i : Nat) : Nat × α := (i, Scalar.magnitude (at2 rows i k))
  (List.range' (k + 1) (rows.length - (k + 1))).foldl (fun best i => betterPivot best (weigh i))
    (weigh k)

/-- What `reduceRow?` finds for rows of one length. -/
def reduceRow (k : Nat) (pivotRow row : List α) : List α :=
  let factor := row.getD k 0 / pivotRow.getD k 0
  row.mapIdx fun j x =>
    if j < k then x
    else if j = k then factor
    else if factor == 0 then x
    else x - factor * pivotRow.getD j 0

/-- What `clearColumn?` finds for a square. -/
def clearColumn (k : Nat) (rows : List (List α)) : List (List α) :=
  rows.mapIdx fun i row => if i ≤ k then row else reduceRow k (rows.getD k []) row

/-- What `eliminate?` finds for a square. -/
def eliminate (f : TriangularFactors α) (k : Nat) :
    Except FactorizationFailure (TriangularFactors α) :=
  let (row, size) := choosePivot f.packed k
  if isUsable size then
    .ok ⟨clearColumn k (exchange f.packed k row), exchange f.order k row⟩
  else
    .error (.singularBasis k)

/-- What `ofRows?` finds for a square. -/
def ofRows (rows : List (List α)) : Except FactorizationFailure (TriangularFactors α) :=
  (List.range rows.length).foldlM eliminate ⟨rows, List.range rows.length⟩

/-- What `ofColumns?` finds. -/
def ofColumns (columns : List (List α)) : Except FactorizationFailure (TriangularFactors α) :=
  match columns.find? fun column => column.length != columns.length with
  | some column => .error (.dimensionMismatch columns.length column.length)
  | none => ofRows (flip columns.length columns)

/-- The unknown of a row from what is left for it. -/
def settle (unitDiagonal : Bool) (diagonal rest : α) : α :=
  if unitDiagonal then rest else rest / diagonal

/-- What `substituteDown?` finds for a square. -/
def substituteDown (unitDiagonal : Bool) (rows : List (List α)) (ys : List α) : List α :=
  (rows.zip ys).foldl
    (fun xs (row, y) =>
      xs ++ [settle unitDiagonal (row.getD xs.length 0) (y - Scalar.dot row xs)])
    []

/-- What `substituteUp?` finds for a square. -/
def substituteUp (unitDiagonal : Bool) (rows : List (List α)) (ys : List α) : List α :=
  (rows.zip ys).zipIdx.foldr
    (fun ((row, y), i) xs =>
      settle unitDiagonal (row.getD i 0) (y - Scalar.dot (row.drop (i + 1)) xs) :: xs)
    []

/-- What `scatter?` finds for an order of positions that exist. -/
def scatter (order : List Nat) (ys : List α) : List α :=
  (order.zip ys).foldl (fun xs (i, y) => xs.set i y) (Scalar.zeros order.length)

/-- What `solveColumn?` finds for a square. -/
def solveColumn (f : TriangularFactors α) (y : List α) : List α :=
  substituteUp false f.packed (substituteDown true f.packed (f.order.map fun i => y.getD i 0))

/-- What `solveRow?` finds for a square. -/
def solveRow (f : TriangularFactors α) (y : List α) : List α :=
  let columns := flip f.size f.packed
  scatter f.order (substituteUp true columns (substituteDown false columns y))

end TriangularFactors

end BoundedSimplex
