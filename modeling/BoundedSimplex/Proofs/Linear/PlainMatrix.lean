/-
  BoundedSimplex.Proofs.Linear.PlainMatrix — a matrix and the plain table it stands for.

  A plain matrix is a number of rows, a number of columns and a function.  The edits of a matrix
  have an obvious meaning there.  Whatever is done to the three stores of a `SystemMatrix`, every
  way of reading them shows the plain matrix that the same edits lead to, up to the sign of zero;
  and in exact arithmetic the product with a vector is the product of the plain matrix.

  Main results:
    * `Stores.perform` — one edit keeps the three stores in step with the plain matrix;
    * `Stores.shows` — what the stores show;
    * `refines_plain` — both, for every origin and every sequence of edits.
-/
import BoundedSimplex.Proofs.BinaryZeros
import BoundedSimplex.Proofs.Checked
import BoundedSimplex.Proofs.Linear.SystemMatrix
import Mathlib.Algebra.BigOperators.Intervals
import Mathlib.Data.Finset.Prod
import Mathlib.Data.Rat.Lemmas

namespace BoundedSimplex

open Extended

variable {α : Type} [Scalar α]

/-! ## §1.  Plain matrices -/

/-- A table of numbers; only the places inside of it count. -/
structure PlainMatrix (α : Type) where
  rows : Nat
  cols : Nat
  entry : Nat → Nat → α

/-- How a matrix comes into being. -/
inductive MatrixOrigin (α : Type) where
  | zeros (m n : Nat)
  | rowMajor (xs : List α) (m n : Nat)

/-- What can be done to a matrix. -/
inductive MatrixEdit (α : Type) where
  | set (i j : Nat) (x : α)
  | appendRow
  | appendColumn
  | mergeColumns (source target : Nat)

namespace MatrixOrigin

/-- The plain matrix at the beginning. -/
def plain : MatrixOrigin α → PlainMatrix α
  | zeros m n => ⟨m, n, fun _ _ => 0⟩
  | rowMajor xs m n => ⟨m, n, fun i j => xs.getD (i * n + j) 0⟩

/-- The matrix at the beginning. -/
def build : MatrixOrigin α → Checked (SystemMatrix α)
  | zeros m n => SystemMatrix.zero? m n
  | rowMajor xs m n => SystemMatrix.ofRowMajor xs m n

/-- There are as many numbers as places, and there is room for them. -/
def Proper : MatrixOrigin α → Prop
  | zeros m n => max (m * n) (max m n) < Checked.addressSpace
  | rowMajor xs m n => xs.length = m * n ∧ max (m * n) (max m n) < Checked.addressSpace

/-- The numbers are finite. -/
def Finite : MatrixOrigin α → Prop
  | zeros _ _ => True
  | rowMajor xs _ _ => ∀ x ∈ xs, Scalar.isFinite x = true

instance decidableProper : (o : MatrixOrigin α) → Decidable o.Proper
  | zeros m n => inferInstanceAs (Decidable (max (m * n) (max m n) < Checked.addressSpace))
  | rowMajor xs m n => inferInstanceAs
      (Decidable (xs.length = m * n ∧ max (m * n) (max m n) < Checked.addressSpace))

instance decidableFinite : (o : MatrixOrigin α) → Decidable o.Finite
  | zeros _ _ => inferInstanceAs (Decidable True)
  | rowMajor xs _ _ => inferInstanceAs (Decidable (∀ x ∈ xs, Scalar.isFinite x = true))

end MatrixOrigin

namespace MatrixEdit

/-- The edit of the stores. -/
def perform (a : SystemMatrix α) : MatrixEdit α → Checked (SystemMatrix α)
  | set i j x => a.set i j x
  | appendRow => a.appendRow
  | appendColumn => return a.appendColumn
  | mergeColumns source target => a.mergeColumns source target

/-- The number that it writes is finite. -/
def Finite : MatrixEdit α → Prop
  | set _ _ x => Scalar.isFinite x = true
  | _ => True

instance decidableFinite : (e : MatrixEdit α) → Decidable e.Finite
  | set _ _ x => inferInstanceAs (Decidable (Scalar.isFinite x = true))
  | appendRow | appendColumn | mergeColumns _ _ => inferInstanceAs (Decidable True)

end MatrixEdit

namespace PlainMatrix

/-- The edit of the plain matrix.  Where column `source` is not zero, its number is added to the one
    in column `target`; a negligible sum is an exact zero. -/
def edit (M : PlainMatrix α) : MatrixEdit α → PlainMatrix α
  | .set i j x => { M with entry := fun k l => if k = i ∧ l = j then x else M.entry k l }
  | .appendRow => ⟨M.rows + 1, M.cols, fun i j => if i = M.rows then 0 else M.entry i j⟩
  | .appendColumn => ⟨M.rows, M.cols + 1, fun i j => if j = M.cols then 0 else M.entry i j⟩
  | .mergeColumns source target => { M with entry := SystemMatrix.merged M.entry source target }

/-- The edit speaks about places of the matrix and about two different columns. -/
def Admits (M : PlainMatrix α) : MatrixEdit α → Prop
  | .set i j _ => i < M.rows ∧ j < M.cols
  | .mergeColumns source target => source < M.cols ∧ target < M.cols ∧ source ≠ target
  | _ => True

/-- Every edit of a sequence is admitted when it is its turn. -/
def AdmitsAll (M : PlainMatrix α) : List (MatrixEdit α) → Prop
  | [] => True
  | e :: es => M.Admits e ∧ (M.edit e).AdmitsAll es

instance decidableAdmits (M : PlainMatrix α) : (e : MatrixEdit α) → Decidable (M.Admits e)
  | .set i j _ => inferInstanceAs (Decidable (i < M.rows ∧ j < M.cols))
  | .mergeColumns source target => inferInstanceAs
      (Decidable (source < M.cols ∧ target < M.cols ∧ source ≠ target))
  | .appendRow | .appendColumn => inferInstanceAs (Decidable True)

instance decidableAdmitsAll : (M : PlainMatrix α) → (es : List (MatrixEdit α)) →
    Decidable (M.AdmitsAll es)
  | _, [] => inferInstanceAs (Decidable True)
  | M, e :: es =>
    have := decidableAdmitsAll (M.edit e) es
    inferInstanceAs (Decidable (M.Admits e ∧ (M.edit e).AdmitsAll es))

/-- The number of places with a number other than zero. -/
def nonzeroCount (M : PlainMatrix α) : Nat :=
  ((Finset.range M.rows ×ˢ Finset.range M.cols).filter fun p => (M.entry p.1 p.2 == 0) = false).card

/-- The numbers inside of the matrix are finite. -/
def Finite (M : PlainMatrix α) : Prop :=
  ∀ i < M.rows, ∀ j < M.cols, Scalar.isFinite (M.entry i j) = true

end PlainMatrix

/-! ## §2.  What is shown -/

/-- The vector shows the values of `f` below `n`, and its entries are proper: no zero, no index
    twice and none out of range. -/
structure SparseVector.Shows (v : SparseVector α) (n : Nat) (f : Nat → α) : Prop where
  length : v.length = n
  get : ∀ k < n, ∃ x, v.get k = .ok x ∧ Matches x (f k)
  nonzero : ∀ p ∈ v.entries, (p.2 == 0) = false
  distinct : (v.entries.map Prod.fst).Nodup
  inRange : ∀ p ∈ v.entries, p.1 < n

/-- Every way of reading the matrix shows the same plain matrix; the dense form shows it column
    after column, with a stride of the number of rows. -/
structure SystemMatrix.Shows (a : SystemMatrix α) (M : PlainMatrix α) : Prop where
  rowCount : a.rowCount = M.rows
  columnCount : a.columnCount = M.cols
  dense : ColumnMajor M.rows M.cols (fun i j x => Matches x (M.entry i j)) a.dense
  get : ∀ i < M.rows, ∀ j < M.cols, ∃ x, a.get i j = .ok x ∧ Matches x (M.entry i j)
  column : ∀ j < M.cols, ∃ xs, a.column j = .ok xs ∧ xs.length = M.rows
    ∧ ∀ i < M.rows, ∃ x, xs[i]? = some x ∧ Matches x (M.entry i j)
  sparseColumn : ∀ j < M.cols, ∃ v, a.sparseColumn j = .ok v ∧ v.Shows M.rows fun i => M.entry i j
  sparseRow : ∀ i < M.rows, ∃ v, a.sparseRow i = .ok v ∧ v.Shows M.cols fun j => M.entry i j
  size : a.size = M.nonzeroCount

/-- A vector that stores a function shows it: each of its observations is one of the function. -/
theorem SparseVector.Stores.shows [LawfulZero α] {v : SparseVector α} {n : Nat} {f : Nat → α}
    (h : v.Stores n f) : v.Shows n f where
  length := h.length
  get k hk := by
    refine ⟨v.coeff k, ?_, h.coeff hk⟩
    rw [SparseVector.get, Checked.require, if_pos (h.length ▸ hk)]
    rfl
  nonzero p hp := by
    obtain ⟨-, hne, hx⟩ := h.mem_iff.mp hp
    rw [hx, hne]
  distinct := h.distinct
  inRange p hp := (h.mem_iff.mp hp).1

namespace SystemMatrix.Stores

variable {a : SystemMatrix α} {M : PlainMatrix α}

/-- The entries of all columns are counted column by column. -/
theorem size_eq {m n : Nat} {A : Nat → Nat → α} (h : a.Stores m n A) :
    a.size = ∑ j ∈ Finset.range n, (List.range m).countP fun i => !(A i j == 0) := by
  have hmap : a.columns.map SparseVector.size
      = (List.range n).map fun j => (List.range m).countP fun i => !(A i j == 0) := by
    refine eq_map_range_of_getElem? (by rw [List.length_map, h.columns.length]) fun j hj => ?_
    obtain ⟨v, hv, hs⟩ := h.columns.each j hj
    rw [List.getElem?_map, hv, Option.map_some, hs.size_eq]
  rw [SystemMatrix.size, ← List.foldl_map, ← List.sum_eq_foldl, hmap]
  exact sum_map_range n _

/-- The same of a matrix, in each of its views. -/
theorem shows [LawfulZero α] (h : a.Stores M.rows M.cols M.entry) : a.Shows M where
  rowCount := h.rowCount
  columnCount := h.columnCount
  dense := h.dense
  get i hi j hj := h.get_eq hi hj
  column j hj := by
    obtain ⟨column, hcolumn, hlisted⟩ := h.column_eq hj
    exact ⟨column, hcolumn, hlisted.length, hlisted.each⟩
  sparseColumn j hj := by
    obtain ⟨v, hv, hs⟩ := h.columns.each j hj
    exact ⟨v, Checked.getAt_eq_ok.mpr hv, hs.shows⟩
  sparseRow i hi := by
    obtain ⟨v, hv, hs⟩ := h.rows.each i hi
    exact ⟨v, Checked.getAt_eq_ok.mpr hv, hs.shows⟩
  size := by
    -- the stores count column by column, the plain matrix counts its cells
    rw [h.size_eq, PlainMatrix.nonzeroCount, Finset.card_filter, Finset.sum_product_right]
    apply Finset.sum_congr rfl
    intro j _
    rw [← Finset.card_filter, ← List.toFinset_range, List.nodup_range.card_eq_countP]
    congr 1
    funext i
    simp

/-! ## §3.  Edits -/

/-- The matrix at the beginning stores the plain matrix at the beginning. -/
theorem build [LawfulZero α] {o : MatrixOrigin α} (ho : o.Proper) :
    ∃ a, o.build = .ok a ∧ a.Stores o.plain.rows o.plain.cols o.plain.entry := by
  cases o with
  | zeros m n =>
    refine ⟨_, ?_, Stores.zero m n⟩
    show SystemMatrix.zero? m n = _
    have hroom : max (m * n) (max m n) < Checked.addressSpace := ho
    rw [SystemMatrix.zero?, Checked.requireRoom, Checked.require, if_pos hroom]
    rfl
  | rowMajor xs m n => exact Stores.ofRowMajor ho.1 ho.2

/-- **One edit keeps the stores in step with the plain matrix.** -/
theorem perform [LawfulZero α] (h : a.Stores M.rows M.cols M.entry) {e : MatrixEdit α}
    (he : M.Admits e) :
    ∃ b, e.perform a = .ok b
      ∧ b.Stores (M.edit e).rows (M.edit e).cols (M.edit e).entry := by
  cases e with
  | set i j x => exact h.set_eq he.1 he.2 x
  | appendRow => exact h.appendRow
  | appendColumn => exact ⟨_, rfl, h.appendColumn⟩
  | mergeColumns source target => exact h.mergeColumns he.1 he.2.1 he.2.2

/-- A sequence of edits does. -/
theorem performAll [LawfulZero α] {es : List (MatrixEdit α)} (h : a.Stores M.rows M.cols M.entry)
    (hes : M.AdmitsAll es) :
    ∃ b, es.foldlM MatrixEdit.perform a = .ok b
      ∧ b.Stores (es.foldl PlainMatrix.edit M).rows (es.foldl PlainMatrix.edit M).cols
          (es.foldl PlainMatrix.edit M).entry := by
  -- on the edits, for any matrix that the stores are in step with
  induction es generalizing a M with
  | nil => exact ⟨a, rfl, h⟩
  | cons e es ih =>
    obtain ⟨b, hb, hbs⟩ := h.perform hes.1
    rw [List.foldlM_cons, hb]
    exact ih hbs hes.2

end SystemMatrix.Stores

/-! ## §4.  Exact products -/

section Exact

variable {K : Type} [Field K] [LinearOrder K]

namespace PlainMatrix.Finite

variable {M : PlainMatrix (Extended K)}

/-- Setting small results to zero keeps numbers finite. -/
theorem settle {x : Extended K} (hx : Scalar.isFinite x = true) :
    Scalar.isFinite (SystemMatrix.settle x) = true := by
  unfold SystemMatrix.settle
  split
  · rfl
  · exact hx

/-- Matrices built from finite numbers are finite. -/
theorem origin {o : MatrixOrigin (Extended K)} (ho : o.Proper) (hf : o.Finite) :
    o.plain.Finite := by
  cases o with
  | zeros m n => exact fun _ _ _ _ => rfl
  | rowMajor xs m n =>
    intro i hi j hj
    -- the place of a cell in the list of all rows
    have hlt : i * n + j < m * n := by
      have : (i + 1) * n ≤ m * n := Nat.mul_le_mul_right n hi
      rw [Nat.succ_mul] at this
      have : j < n := hj
      omega
    show Scalar.isFinite (xs.getD (i * n + j) 0) = true
    rw [(⟨ho.1, hf⟩ : Numbers (m * n) xs).getD hlt]
    rfl

/-- Edits with finite numbers lead from finite numbers to finite numbers. -/
theorem edit (h : M.Finite) {e : MatrixEdit (Extended K)} (he : M.Admits e) (hf : e.Finite) :
    (M.edit e).Finite := by
  cases e with
  | set k l x =>
    intro i hi j hj
    show Scalar.isFinite (if i = k ∧ j = l then x else M.entry i j) = true
    split
    · exact hf
    · exact h i hi j hj
  | appendRow =>
    intro i hi j hj
    show Scalar.isFinite (if i = M.rows then 0 else M.entry i j) = true
    split
    · rfl
    · next hne => exact h i (by have : i < M.rows + 1 := hi; omega) j hj
  | appendColumn =>
    intro i hi j hj
    show Scalar.isFinite (if j = M.cols then 0 else M.entry i j) = true
    split
    · rfl
    · next hne => exact h i hi j (by have : j < M.cols + 1 := hj; omega)
  | mergeColumns source target =>
    intro i hi j hj
    -- A merge adds two finite entries or keeps one.
    obtain ⟨x, hx⟩ := isFinite_iff.mp (h i hi source he.1)
    obtain ⟨y, hy⟩ := isFinite_iff.mp (h i hi target he.2.1)
    show Scalar.isFinite (SystemMatrix.merged M.entry source target i j) = true
    unfold SystemMatrix.merged
    split
    · rfl
    · split
      · split
        · rw [hy]
          rfl
        · rw [hx, hy]
          exact settle rfl
      · exact h i hi j hj

/-- Edits with finite numbers keep all entries finite. -/
theorem editAll (h : M.Finite) {es : List (MatrixEdit (Extended K))} (hes : M.AdmitsAll es)
    (hf : ∀ e ∈ es, e.Finite) : (es.foldl PlainMatrix.edit M).Finite := by
  induction es generalizing M with
  | nil => exact h
  | cons e es ih =>
    exact ih (h.edit hes.1 (hf e List.mem_cons_self)) hes.2
      fun d hd => hf d (List.mem_cons_of_mem _ hd)

end PlainMatrix.Finite

/-- The product of a plain matrix with a vector. -/
def PlainMatrix.times (M : PlainMatrix (Extended K)) (xs : List (Extended K)) : List (Extended K) :=
  (List.range M.rows).map fun i =>
    fin (∑ j ∈ Finset.range M.cols, (M.entry i j).val * coord xs j)

/-- **The product is computed from the sparse rows.** -/
theorem SystemMatrix.Stores.multiply_eq {a : SystemMatrix (Extended K)}
    {M : PlainMatrix (Extended K)} (h : a.Stores M.rows M.cols M.entry) (hM : M.Finite)
    {xs : List (Extended K)} (hx : Numbers M.cols xs) : a.multiply xs = .ok (M.times xs) := by
  have hlen : xs.length = a.columnCount := hx.length.trans h.columnCount.symm
  -- The row views in the order of the rows; each of them is one product.
  have hrows : a.rows = (List.range M.rows).map fun i => a.rows.getD i (.zero M.cols) := by
    refine eq_map_range_of_getElem? h.rows.length fun i hi => ?_
    obtain ⟨v, hv, -⟩ := h.rows.each i hi
    rw [List.getD_eq_getElem?_getD, hv, Option.getD_some]
  unfold SystemMatrix.multiply
  rw [Checked.require, if_pos hlen]
  show a.rows.mapM (·.dot xs) = _
  rw [hrows, List.mapM_map]
  refine Checked.mapM_eq_ok fun i hi => ?_
  have hi : i < M.rows := List.mem_range.mp hi
  obtain ⟨v, hv, hs⟩ := h.rows.each i hi
  have hrep : v.Represents M.cols fun j => (M.entry i j).val :=
    SparseVector.represents_iff.mpr (hs.congr fun j hj => .inl (fin_val (hM i hi j hj)).symm)
  show (a.rows.getD i (.zero M.cols)).dot xs = _
  rw [List.getD_eq_getElem?_getD, hv, Option.getD_some]
  exact hrep.dot_eq hx

end Exact

/-! ## §5.  Refinement -/

/-- **A matrix refines the plain one.**  Every origin and every admitted sequence of edits lead to a
    matrix that shows the plain matrix; in exact arithmetic it multiplies like it. -/
theorem refines_plain :
    (∀ {α : Type} [Scalar α] [LawfulZero α] (o : MatrixOrigin α) (es : List (MatrixEdit α)),
      o.Proper → o.plain.AdmitsAll es →
        ∃ b, (o.build >>= es.foldlM MatrixEdit.perform) = .ok b
          ∧ b.Shows (es.foldl PlainMatrix.edit o.plain))
    ∧ ∀ {K : Type} [Field K] [LinearOrder K] (o : MatrixOrigin (Extended K))
      (es : List (MatrixEdit (Extended K))), o.Proper → o.plain.AdmitsAll es →
      o.Finite → (∀ e ∈ es, e.Finite) →
        ∃ b, (o.build >>= es.foldlM MatrixEdit.perform) = .ok b
          ∧ ∀ xs, Numbers (es.foldl PlainMatrix.edit o.plain).cols xs →
            b.multiply xs = .ok ((es.foldl PlainMatrix.edit o.plain).times xs) := by
  constructor
  · intro α _ _ o es ho hes
    obtain ⟨a, ha, has⟩ := SystemMatrix.Stores.build ho
    obtain ⟨b, hb, hbs⟩ := has.performAll hes
    exact ⟨b, Checked.bind_eq_ok.mpr ⟨a, ha, hb⟩, hbs.shows⟩
  · intro K _ _ o es ho hes hfo hfe
    obtain ⟨a, ha, has⟩ := SystemMatrix.Stores.build ho
    obtain ⟨b, hb, hbs⟩ := has.performAll hes
    have hfin := (PlainMatrix.Finite.origin ho hfo).editAll hes hfe
    exact ⟨b, Checked.bind_eq_ok.mpr ⟨a, ha, hb⟩, fun xs hx => hbs.multiply_eq hfin hx⟩

/-- The columns `(1, 2)` and `(0, 3)` are folded, a row and a column are added, and the new corner
    is written; and a rounded matrix is folded into a column of zeros. -/
theorem refines_plain_after_merge :
    (∃ b : SystemMatrix (Extended ℚ),
      ((MatrixOrigin.rowMajor [fin 1, fin 0, fin 2, fin 3] 2 2).build >>=
        [MatrixEdit.mergeColumns 0 1, .appendRow, .appendColumn, .set 2 2 (fin 7)].foldlM
          MatrixEdit.perform) = .ok b
      ∧ b.multiply [fin 1, fin 1, fin 1] = .ok [fin 1, fin 5, fin 7])
    ∧ ∃ b : SystemMatrix Float,
      ((MatrixOrigin.zeros 1 2).build >>=
        [MatrixEdit.set 0 0 1.5, .mergeColumns 0 1].foldlM MatrixEdit.perform) = .ok b
      ∧ b.Shows ([MatrixEdit.set 0 0 1.5, .mergeColumns 0 1].foldl PlainMatrix.edit
          (MatrixOrigin.zeros 1 2).plain) := by
  constructor
  · obtain ⟨b, hb, hmul⟩ := refines_plain.2
      (MatrixOrigin.rowMajor [fin (1 : ℚ), fin 0, fin 2, fin 3] 2 2)
      [.mergeColumns 0 1, .appendRow, .appendColumn, .set 2 2 (fin 7)]
      (by decide) (by decide) (by decide) (by decide)
    refine ⟨b, hb, ?_⟩
    rw [hmul _ ⟨rfl, by decide⟩]
    decide +kernel
  · exact refines_plain.1 _ _ (by decide) (by decide)

end BoundedSimplex
