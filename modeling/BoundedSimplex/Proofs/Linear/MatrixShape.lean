/-
  BoundedSimplex.Proofs.Linear.MatrixShape — the sizes of the three forms of a matrix.

  Whatever the numbers are, the dense form of `m` rows and `n` columns is a list of `n * m`
  numbers, and the sparse forms have `n` columns of length `m` and `m` rows of length `n`, without
  entries beyond their ends.  Nothing that is done to a matrix loses that, and in that shape every
  access finds its place.

  Main results:
    * `Shaped` and what keeps it: single writes, new rows and columns, folding columns;
    * `of_set`, `Shaped.set_eq_write`, `Shaped.get_eq_entry` — the checked accesses
      and the plain ones;
    * `copyColumns` — a new row copies every column of the dense form to its new positions.
-/
import BoundedSimplex.Linear.SystemMatrix
import BoundedSimplex.Proofs.Linear.ColumnMajor
import BoundedSimplex.Proofs.Linear.SparseStorage

namespace BoundedSimplex

variable {α : Type} [Scalar α]

/-! ## §1.  Vectors -/

/-- A vector of `n` numbers without entries beyond its end. -/
structure SparseVector.Shaped (n : Nat) (v : SparseVector α) : Prop where
  length : v.length = n
  inRange : v.InRange

namespace SparseVector.Shaped

variable {n : Nat} {v : SparseVector α}

omit [Scalar α] in
/-- A new vector has its length and no entries. -/
theorem zero (n : Nat) : (SparseVector.zero n : SparseVector α).Shaped n :=
  ⟨rfl, fun _ hp => absurd hp List.not_mem_nil⟩

/-- Writing below the length keeps the shape. -/
theorem write (h : v.Shaped n) {i : Nat} (hi : i < n) (x : α) : (v.write i x).Shaped n := by
  refine ⟨(length_write v i x).trans h.length, fun p hp => ?_⟩
  rw [length_write]
  rcases mem_write hp with hp | rfl
  · exact h.inRange p hp
  · exact h.length.symm ▸ hi

omit [Scalar α] in
/-- Growing adds to the length. -/
theorem grow (h : v.Shaped n) (extra : Nat) : (v.grow extra).Shaped (n + extra) :=
  ⟨congrArg (· + extra) h.length, fun p hp => Nat.lt_add_right extra (h.inRange p hp)⟩

/-- Below the length the checked write is the plain one. -/
theorem set_eq_write (h : v.Shaped n) {i : Nat} (hi : i < n) (x : α) :
    v.set i x = .ok (v.write i x) := by
  unfold SparseVector.set
  rw [Checked.require_of (h.length.symm ▸ hi)]
  rfl

end SparseVector.Shaped

namespace SystemMatrix

/-! ## §2.  Matrices -/

/-- The three forms are those of a matrix of `m` rows and `n` columns. -/
structure Shaped (m n : Nat) (a : SystemMatrix α) : Prop where
  rowCount : a.rowCount = m
  columnCount : a.columnCount = n
  dense : a.dense.length = n * m
  columns : Listed n (fun _ v => v.Shaped m) a.columns
  rows : Listed m (fun _ v => v.Shaped n) a.rows

/-- A new matrix has its shape in all three views. -/
theorem shaped_zero (m n : Nat) : (zero m n : SystemMatrix α).Shaped m n where
  rowCount := rfl
  columnCount := rfl
  dense := (Scalar.length_zeros _).trans (Nat.mul_comm m n)
  columns := .replicate n fun _ _ => .zero m
  rows := .replicate m fun _ _ => .zero n

variable {m n : Nat} {a b : SystemMatrix α}

omit [Scalar α] in
/-- Places are inside of the matrix. -/
theorem requirePlace_eq_ok {i j : Nat} {u : Unit} :
    a.requirePlace i j = .ok u ↔ i < a.rowCount ∧ j < a.columnCount := by
  constructor
  · intro h
    obtain ⟨_, hi, hj⟩ := Checked.bind_eq_ok.mp h
    exact ⟨Checked.require_eq_ok.mp hi, Checked.require_eq_ok.mp hj⟩
  · rintro ⟨hi, hj⟩
    exact Checked.bind_eq_ok.mpr ⟨(), Checked.require_eq_ok.mpr hi, Checked.require_eq_ok.mpr hj⟩

omit [Scalar α] in
/-- A dense column that is there belongs to the matrix. -/
theorem lt_of_column {j : Nat} {column : List α} (h : a.column j = .ok column) :
    j < a.columnCount :=
  Checked.require_eq_ok.mp (Checked.bind_eq_ok.mp h).choose_spec.1

/-- A write that goes through is the plain write, at a place of the matrix. -/
theorem of_set {i j : Nat} {x : α} (hb : a.set i j x = .ok b) :
    (i < a.rowCount ∧ j < a.columnCount) ∧ b = a.write i j x := by
  obtain ⟨_, hplace, hb⟩ := Checked.bind_eq_ok.mp hb
  obtain ⟨dense, hdense, hb⟩ := Checked.bind_eq_ok.mp hb
  obtain ⟨column, hcolumn, hb⟩ := Checked.bind_eq_ok.mp hb
  obtain ⟨column', hcolumn', hb⟩ := Checked.bind_eq_ok.mp hb
  obtain ⟨columns, hcolumns, hb⟩ := Checked.bind_eq_ok.mp hb
  obtain ⟨row, hrow, hb⟩ := Checked.bind_eq_ok.mp hb
  obtain ⟨row', hrow', hb⟩ := Checked.bind_eq_ok.mp hb
  obtain ⟨rows, hrows, hb⟩ := Checked.bind_eq_ok.mp hb
  obtain ⟨_, -, hcolumn'⟩ := Checked.bind_eq_ok.mp hcolumn'
  obtain ⟨_, -, hrow'⟩ := Checked.bind_eq_ok.mp hrow'
  cases hcolumn'
  cases hrow'
  obtain ⟨-, rfl⟩ := Checked.setAt_eq_ok.mp hdense
  obtain ⟨-, rfl⟩ := Checked.setAt_eq_ok.mp hcolumns
  obtain ⟨-, rfl⟩ := Checked.setAt_eq_ok.mp hrows
  cases hb
  -- Every check was passed, so the modified views are the plainly written ones.
  refine ⟨requirePlace_eq_ok.mp hplace, ?_⟩
  rw [write, modify_of_getElem? (Checked.getAt_eq_ok.mp hcolumn),
    modify_of_getElem? (Checked.getAt_eq_ok.mp hrow)]

namespace Shaped

omit [Scalar α] in
/-- Places inside the shape are positions of the store. -/
theorem place_lt (h : a.Shaped m n) {i j : Nat} (hi : i < m) (hj : j < n) :
    a.place i j < a.dense.length := by
  rw [place, h.rowCount, h.dense]
  exact BoundedSimplex.place_lt hi hj

/-- Writing keeps the shape. -/
theorem write (h : a.Shaped m n) {i j : Nat} (hi : i < m) (hj : j < n) (x : α) :
    (a.write i j x).Shaped m n where
  rowCount := h.rowCount
  columnCount := h.columnCount
  dense := List.length_set.trans h.dense
  columns := h.columns.modify j _ (fun _ hv => hv.write hi x) fun _ _ _ _ hv => hv
  rows := h.rows.modify i _ (fun _ hv => hv.write hj x) fun _ _ _ _ hv => hv

/-- **A write at a place of the matrix** finds this place in all three forms. -/
theorem set_eq_write (h : a.Shaped m n) {i j : Nat} (hi : i < m) (hj : j < n) (x : α) :
    a.set i j x = .ok (a.write i j x) := by
  -- The column and the row are there, and their writes are inside their lengths.
  obtain ⟨column, hcolumn, hshaped⟩ := h.columns.each j hj
  obtain ⟨row, hrow, hshaped'⟩ := h.rows.each i hi
  have hplace : a.requirePlace i j = .ok () :=
    requirePlace_eq_ok.mpr ⟨h.rowCount.symm ▸ hi, h.columnCount.symm ▸ hj⟩
  have hj' : j < a.columns.length := h.columns.length.symm ▸ hj
  have hi' : i < a.rows.length := h.rows.length.symm ▸ hi
  unfold set
  rw [hplace, Checked.ok_bind, Checked.setAt_eq_ok.mpr ⟨h.place_lt hi hj, rfl⟩, Checked.ok_bind,
    Checked.getAt_eq_ok.mpr hcolumn, Checked.ok_bind, hshaped.set_eq_write hi, Checked.ok_bind,
    Checked.setAt_eq_ok.mpr ⟨hj', rfl⟩, Checked.ok_bind, Checked.getAt_eq_ok.mpr hrow,
    Checked.ok_bind, hshaped'.set_eq_write hj, Checked.ok_bind,
    Checked.setAt_eq_ok.mpr ⟨hi', rfl⟩, SystemMatrix.write, modify_of_getElem? hcolumn,
    modify_of_getElem? hrow]
  rfl

/-- Inside the shape the checked read is the plain one. -/
theorem get_eq_entry (h : a.Shaped m n) {i j : Nat} (hi : i < m) (hj : j < n) :
    a.get i j = .ok (a.entry i j) := by
  have hplace : a.requirePlace i j = .ok () :=
    requirePlace_eq_ok.mpr ⟨h.rowCount.symm ▸ hi, h.columnCount.symm ▸ hj⟩
  unfold get
  rw [hplace, Checked.ok_bind]
  exact Checked.getAt_eq_getD (h.place_lt hi hj) 0

/-- A write that succeeds keeps the shape. -/
theorem set (h : a.Shaped m n) {i j : Nat} {x : α} (hb : a.set i j x = .ok b) : b.Shaped m n := by
  obtain ⟨⟨hi, hj⟩, rfl⟩ := of_set hb
  exact h.write (h.rowCount ▸ hi) (h.columnCount ▸ hj) x

/-- So does an addition to an entry. -/
theorem addEntry (h : a.Shaped m n) {i j : Nat} {x : α} (hb : a.addEntry i j x = .ok b) :
    b.Shaped m n := by
  obtain ⟨_, _, hb⟩ := Checked.bind_eq_ok.mp hb
  exact h.set hb

/-- A matrix filled row by row has the announced shape. -/
theorem ofRowMajor {xs : List α} (hb : ofRowMajor xs m n = .ok b) : b.Shaped m n := by
  obtain ⟨_, _, hb⟩ := Checked.bind_eq_ok.mp hb
  obtain ⟨_, hblank, hb⟩ := Checked.bind_eq_ok.mp hb
  obtain ⟨_, _, hblank⟩ := Checked.bind_eq_ok.mp hblank
  cases hblank
  refine Checked.foldlM_inv (P := SystemMatrix.Shaped m n) (fun i _ c d hc hd => ?_)
    (shaped_zero m n) hb
  exact Checked.foldlM_inv (P := SystemMatrix.Shaped m n) (fun p _ e f he hf => he.set hf) hc hd

omit [Scalar α] in
/-- A dense column is there, with a number per row. -/
theorem exists_column (h : a.Shaped m n) {j : Nat} (hj : j < n) :
    ∃ column, a.column j = .ok column ∧ column.length = m := by
  have htable : ColumnMajor m n (fun _ _ _ => True) a.dense :=
    .of_length h.dense fun _ _ _ _ _ _ => trivial
  obtain ⟨column, hcolumn, hlisted⟩ := htable.slice hj
  rw [← h.rowCount] at hcolumn
  exact ⟨column, Checked.bind_eq_ok.mpr ⟨(), Checked.require_of (h.columnCount.symm ▸ hj), hcolumn⟩,
    hlisted.length⟩

omit [Scalar α] in
/-- A column that is read has one number per row. -/
theorem length_column (h : a.Shaped m n) {j : Nat} {column : List α}
    (hcolumn : a.column j = .ok column) : column.length = m := by
  obtain ⟨column', hcolumn', hlen⟩ := h.exists_column (h.columnCount ▸ lt_of_column hcolumn)
  cases hcolumn.symm.trans hcolumn'
  exact hlen

omit [Scalar α] in
/-- The sparse view of a column is there. -/
theorem exists_sparseColumn (h : a.Shaped m n) {j : Nat} (hj : j < n) :
    ∃ v, a.sparseColumn j = .ok v ∧ v.Shaped m := by
  obtain ⟨v, hv, hshaped⟩ := h.columns.each j hj
  exact ⟨v, Checked.getAt_eq_ok.mpr hv, hshaped⟩

/-- The product with a vector of the right size exists, with a number per row. -/
theorem multiply (h : a.Shaped m n) {xs : List α} (hx : xs.length = n) :
    ∃ ys, a.multiply xs = .ok ys := by
  have hdot : ∀ r ∈ a.rows, ∃ y, r.dot xs = .ok y := by
    intro r hr
    obtain ⟨i, hi⟩ := List.mem_iff_getElem?.mp hr
    have hrow := h.rows.of_getElem? hi
    exact ⟨_, hrow.inRange.dot_eq (hx.trans hrow.length.symm)⟩
  obtain ⟨ys, hys⟩ := Checked.exists_mapM hdot
  rw [SystemMatrix.multiply, Checked.require_of (hx.trans h.columnCount.symm)]
  exact ⟨ys, hys⟩

end Shaped

/-! ## §3.  Growing -/

/-- **Copying the columns one by one** to a table with one more row.  Those that were not copied
    yet, and the new row, hold zeros. -/
theorem copyColumns {p : Nat → Nat → α → Prop} (hm : a.rowCount = m)
    (h : ColumnMajor m n p a.dense) {k : Nat} (hk : k ≤ n) :
    ∃ dense, (List.range k).foldlM a.copyColumn (Scalar.zeros ((m + 1) * n)) = .ok dense
      ∧ ColumnMajor (m + 1) n (fun i j x => if j < k ∧ i < m then p i j x else x = 0) dense := by
  induction k with
  | zero =>
    refine ⟨_, rfl, ?_⟩
    rw [Scalar.zeros, Nat.mul_comm]
    exact .replicate fun i _ j _ => by simp
  | succ k ih =>
    obtain ⟨dense, hdense, htable⟩ := ih (by omega)
    obtain ⟨column, hcolumn, hlisted⟩ := h.slice (show k < n from hk)
    -- the next column goes to the first `m` of its `m + 1` places
    obtain ⟨next, hnext, htable'⟩ := htable.overwrite
      (q := fun i j x => if j < k + 1 ∧ i < m then p i j x else x = 0) (show k < n from hk)
      (by rw [hlisted.length]; omega)
      (fun i x hx => by
        have hi : i < m := hlisted.length ▸ (List.getElem?_eq_some_iff.mp hx).1
        rw [if_pos ⟨by omega, hi⟩]
        exact hlisted.of_getElem? hx)
      (fun i hi j hj hout x hx => by
        rw [hlisted.length] at hout
        by_cases hold : j < k ∧ i < m
        · rw [if_pos hold] at hx
          rwa [if_pos ⟨by omega, hold.2⟩]
        · rw [if_neg hold] at hx
          rwa [if_neg (by omega)])
    refine ⟨next, ?_, htable'⟩
    rw [List.range_succ, List.foldlM_append, hdense, Checked.ok_bind, List.foldlM_cons,
      copyColumn, hm, hcolumn, Checked.ok_bind, hnext]
    rfl

/-- **A new row.**  In the dense form the columns move and keep their numbers, and
    zeros follow them. -/
theorem exists_appendRow {p : Nat → Nat → α → Prop} (hm : a.rowCount = m) (hn : a.columnCount = n)
    (h : ColumnMajor m n p a.dense) :
    ∃ dense, a.appendRow = .ok ⟨m + 1, n, dense, a.columns.map (·.grow 1), a.rows ++ [.zero n]⟩
      ∧ ColumnMajor (m + 1) n (fun i j x => if i < m then p i j x else x = 0) dense := by
  obtain ⟨dense, hdense, htable⟩ := copyColumns hm h (Nat.le_refl n)
  refine ⟨dense, ?_, htable.imp fun i _ j hj x hx => by simpa [hj] using hx⟩
  unfold appendRow
  rw [hm, hn, hdense]
  rfl

/-- A new row leaves the number of columns alone. -/
theorem columnCount_of_appendRow (hb : a.appendRow = .ok b) : b.columnCount = a.columnCount := by
  obtain ⟨dense, -, hb⟩ := Checked.bind_eq_ok.mp hb
  cases hb
  rfl

namespace Shaped

/-- A row can be appended to a shaped matrix: the new store has room for each old column. -/
theorem exists_appendRow (h : a.Shaped m n) : ∃ b, a.appendRow = .ok b ∧ b.Shaped (m + 1) n := by
  obtain ⟨dense, hrow, htable⟩ := SystemMatrix.exists_appendRow (p := fun _ _ _ => True) h.rowCount
    h.columnCount (.of_length h.dense fun _ _ _ _ _ _ => trivial)
  exact ⟨_, hrow, rfl, rfl, htable.length, h.columns.map _ fun _ _ _ hv => hv.grow 1,
    h.rows.concat (.zero n)⟩

/-- Appending a row adds one to the number of rows. -/
theorem appendRow (h : a.Shaped m n) (hb : a.appendRow = .ok b) : b.Shaped (m + 1) n := by
  obtain ⟨b', hb', hshaped⟩ := h.exists_appendRow
  cases hb.symm.trans hb'
  exact hshaped

/-- Appending a column adds one to the number of columns. -/
theorem appendColumn (h : a.Shaped m n) : a.appendColumn.Shaped m (n + 1) where
  rowCount := h.rowCount
  columnCount := congrArg (· + 1) h.columnCount
  dense := by
    rw [SystemMatrix.appendColumn, List.length_append, Scalar.length_zeros, h.dense, h.rowCount,
      Nat.succ_mul]
  columns := h.columns.concat (h.rowCount.symm ▸ .zero _)
  rows := h.rows.map _ fun _ _ _ hv => hv.grow 1

/-- Merging columns leaves the shape alone. -/
theorem mergeColumns (h : a.Shaped m n) {source target : Nat}
    (hb : a.mergeColumns source target = .ok b) : b.Shaped m n := by
  obtain ⟨_, _, hb⟩ := Checked.bind_eq_ok.mp hb
  obtain ⟨folded, _, hb⟩ := Checked.bind_eq_ok.mp hb
  obtain ⟨c, hc, hb⟩ := Checked.bind_eq_ok.mp hb
  obtain ⟨cleared, _, hb⟩ := Checked.bind_eq_ok.mp hb
  obtain ⟨_, _, hb⟩ := Checked.bind_eq_ok.mp hb
  cases hb
  refine Checked.foldlM_inv (P := SystemMatrix.Shaped m n) (fun entry _ c d hc hd => ?_) h hc
  obtain ⟨_, _, hd⟩ := Checked.bind_eq_ok.mp hd
  obtain ⟨_, hmoved, hd⟩ := Checked.bind_eq_ok.mp hd
  exact (hc.set hmoved).set hd

end Shaped

end SystemMatrix

end BoundedSimplex
