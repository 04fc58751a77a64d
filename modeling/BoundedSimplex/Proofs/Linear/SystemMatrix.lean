/-
  BoundedSimplex.Proofs.Linear.SystemMatrix — matrices in exact arithmetic.

  A matrix of finite numbers stands for one function of a row and a column with values in the field.
  Writes, new rows, new columns and the folding of one column into another follow that function.

  Main results:
    * `represents_iff` — storing finite numbers is storing the function of the field;
    * `Represents.write` — a write updates the stored function in all three forms;
    * `Represents.appendRow`, `Represents.appendColumn` — growing adds zeros;
    * `Represents.mergeColumns` — folding one column into another.
-/
import BoundedSimplex.Proofs.Linear.MatrixStorage
import BoundedSimplex.Proofs.Linear.SparseVector

namespace BoundedSimplex

open Extended

variable {K : Type} [Field K] [LinearOrder K]

namespace SystemMatrix

/-! ## §1.  The function that is stored -/

/-- The matrix has `m` rows and `n` columns and stores `A` in all of its forms. -/
structure Represents (a : SystemMatrix (Extended K)) (m n : Nat) (A : Nat → Nat → K) : Prop where
  rowCount : a.rowCount = m
  columnCount : a.columnCount = n
  dense : ColumnMajor m n (fun i j x => x = fin (A i j)) a.dense
  columns : Listed n (fun j v => v.Represents m fun i => A i j) a.columns
  rows : Listed m (fun i v => v.Represents n fun j => A i j) a.rows

/-- The number in row `i` and column `j`, as an element of the field.  There is nothing
    outside of the matrix. -/
def coeff (a : SystemMatrix (Extended K)) (i j : Nat) : K :=
  if i < a.rowCount then coord a.dense (a.place i j) else 0

/-- The three forms agree. -/
def WellFormed (a : SystemMatrix (Extended K)) : Prop :=
  a.Represents a.rowCount a.columnCount a.coeff

variable {a : SystemMatrix (Extended K)} {m n : Nat} {A : Nat → Nat → K}

/-- Storing finite numbers is storing the function of the field. -/
theorem represents_iff : a.Represents m n A ↔ a.Stores m n fun i j => fin (A i j) := by
  constructor
  · intro h
    refine ⟨h.rowCount, h.columnCount, h.dense.imp fun i _ j _ x hx => .inl hx,
      h.columns.imp fun j _ v hv => SparseVector.represents_iff.mp hv,
      h.rows.imp fun i _ v hv => SparseVector.represents_iff.mp hv⟩
  · intro h
    exact ⟨h.rowCount, h.columnCount, h.dense.imp fun i _ j _ x hx => eq_of_matches hx,
      h.columns.imp fun j _ v hv => SparseVector.represents_iff.mpr hv,
      h.rows.imp fun i _ v hv => SparseVector.represents_iff.mpr hv⟩

namespace Represents

/-- Only the entries within the shape count. -/
theorem congr {A' : Nat → Nat → K} (h : a.Represents m n A)
    (hA : ∀ i < m, ∀ j < n, A i j = A' i j) : a.Represents m n A' where
  rowCount := h.rowCount
  columnCount := h.columnCount
  dense := h.dense.imp fun i hi j hj _ hx => by rw [hx, hA i hi j hj]
  columns := h.columns.imp fun j hj _ hv => hv.congr fun i hi => hA i hi j hj
  rows := h.rows.imp fun i hi _ hv => hv.congr fun j hj => hA i hi j hj

/-- What a matrix represents has its shape. -/
theorem shaped (h : a.Represents m n A) : a.Shaped m n := (represents_iff.mp h).shaped

/-- An entry, as a number, is that of the represented matrix. -/
theorem coeff_eq (h : a.Represents m n A) {i j : Nat} (hi : i < m) (hj : j < n) :
    a.coeff i j = A i j := by
  obtain ⟨x, hx, hA⟩ := h.dense.each i hi j hj
  subst hA
  rw [coeff, if_pos (h.rowCount.symm ▸ hi), place, h.rowCount]
  exact coord_of_getElem? hx

/-- A matrix that represents one is well-formed. -/
theorem wellFormed (h : a.Represents m n A) : a.WellFormed := by
  have := h.congr fun i hi j hj => (h.coeff_eq hi hj).symm
  rwa [WellFormed, h.rowCount, h.columnCount]

/-! ## §2.  Writing -/

/-- A new matrix represents zero. -/
theorem zero (m n : Nat) : (SystemMatrix.zero m n : SystemMatrix (Extended K)).Represents m n 0 :=
  represents_iff.mpr (Stores.zero m n)

/-- **A write reaches all forms.** -/
theorem write (h : a.Represents m n A) {i j : Nat} (hi : i < m) (hj : j < n) (x : K) :
    (a.write i j (fin x)).Represents m n fun k l => if k = i ∧ l = j then x else A k l := by
  apply represents_iff.mpr
  refine ((represents_iff.mp h).write hi hj (fin x)).congr_eq fun k _ l _ => ?_
  exact (apply_ite fin (k = i ∧ l = j) x (A k l)).symm

/-- An entry, as it is stored, is that of the represented matrix. -/
theorem entry_eq (h : a.Represents m n A) {i j : Nat} (hi : i < m) (hj : j < n) :
    a.entry i j = fin (A i j) :=
  eq_of_matches ((represents_iff.mp h).matches_entry hi hj)

/-- Reading inside the shape succeeds. -/
theorem get_eq (h : a.Represents m n A) {i j : Nat} (hi : i < m) (hj : j < n) :
    a.get i j = .ok (fin (A i j)) := by
  rw [h.shaped.get_eq_entry hi hj, h.entry_eq hi hj]

/-- Writing inside the shape changes one entry of the represented matrix. -/
theorem set_eq (h : a.Represents m n A) {i j : Nat} (hi : i < m) (hj : j < n) (x : K) :
    ∃ b, a.set i j (fin x) = .ok b
      ∧ b.Represents m n fun k l => if k = i ∧ l = j then x else A k l :=
  ⟨_, h.shaped.set_eq_write hi hj _, h.write hi hj x⟩

/-- Whatever a write at a place needs, it was there if the write went through. -/
theorem of_set (h : a.Represents m n A) {i j : Nat} {x : K} {b : SystemMatrix (Extended K)}
    (hb : a.set i j (fin x) = .ok b) :
    i < m ∧ j < n ∧ b.Represents m n fun k l => if k = i ∧ l = j then x else A k l := by
  obtain ⟨⟨hi, hj⟩, rfl⟩ := SystemMatrix.of_set hb
  rw [h.rowCount] at hi
  rw [h.columnCount] at hj
  exact ⟨hi, hj, h.write hi hj x⟩

/-- Adding to an entry succeeds only inside the shape, and adds up exactly. -/
theorem of_addEntry (h : a.Represents m n A) {i j : Nat} {x : K} {b : SystemMatrix (Extended K)}
    (hb : a.addEntry i j (fin x) = .ok b) :
    i < m ∧ j < n ∧ b.Represents m n fun k l => if k = i ∧ l = j then A k l + x else A k l := by
  obtain ⟨old, hold, hset⟩ := Checked.bind_eq_ok.mp hb
  obtain ⟨hi, hj⟩ := (SystemMatrix.of_set hset).1
  rw [h.rowCount] at hi
  rw [h.columnCount] at hj
  cases (h.get_eq hi hj).symm.trans hold
  rw [fin_add] at hset
  refine ⟨hi, hj, (h.of_set hset).2.2.congr fun k _ l _ => ?_⟩
  by_cases hkl : k = i ∧ l = j
  · rw [if_pos hkl, if_pos hkl, hkl.1, hkl.2]
  · rw [if_neg hkl, if_neg hkl]

/-- A matrix that is written down row after row. -/
theorem of_ofRowMajor {xs : List (Extended K)} (hx : ∀ x ∈ xs, Scalar.isFinite x = true)
    (h : ofRowMajor xs m n = .ok a) : ∃ A, a.Represents m n A := by
  obtain ⟨_, hlen, hblank⟩ := Checked.bind_eq_ok.mp h
  obtain ⟨_, hroom, -⟩ := Checked.bind_eq_ok.mp hblank
  obtain ⟨_, hroom, -⟩ := Checked.bind_eq_ok.mp hroom
  rw [Checked.require_eq_ok] at hlen
  rw [Checked.requireRoom_eq_ok] at hroom
  obtain ⟨b, hb, hbs⟩ := Stores.ofRowMajor hlen hroom
  rw [hb] at h
  cases h
  have hn : Numbers (m * n) xs := ⟨hlen, hx⟩
  -- Filling row by row is a statement about stores; that all numbers are finite comes last.
  refine ⟨fun i j => coord xs (i * n + j), represents_iff.mpr (hbs.congr_eq fun i hi j hj => ?_)⟩
  apply hn.getD
  have : (i + 1) * n ≤ m * n := Nat.mul_le_mul_right n hi
  rw [Nat.succ_mul] at this
  omega

/-! ## §3.  Growing -/

/-- A new row holds zeros. -/
theorem appendRow (h : a.Represents m n A) (hA : ∀ j < n, A m j = 0) :
    ∃ b, a.appendRow = .ok b ∧ b.Represents (m + 1) n A := by
  obtain ⟨b, hb, hbs⟩ := (represents_iff.mp h).appendRow
  refine ⟨b, hb, represents_iff.mpr (hbs.congr_eq fun i _ j hj => ?_)⟩
  by_cases hi : i = m
  · rw [if_pos hi, hi, hA j hj, zero_eq]
  · rw [if_neg hi]

/-- A new column holds zeros. -/
theorem appendColumn (h : a.Represents m n A) (hA : ∀ i < m, A i n = 0) :
    a.appendColumn.Represents m (n + 1) A := by
  apply represents_iff.mpr
  refine (represents_iff.mp h).appendColumn.congr_eq fun i hi j _ => ?_
  by_cases hj : j = n
  · rw [if_pos hj, hj, hA i hi, zero_eq]
  · rw [if_neg hj]

/-! ## §4.  Folding one column into another -/

end Represents

/-- A sum of two entries as it is kept. -/
def settled (x : K) : K := (settle (fin x : Extended K)).val

/-- Small results of an addition are set to zero, in numbers. -/
theorem settle_fin (x : K) : settle (fin x : Extended K) = fin (settled x) := by
  unfold settled settle
  split <;> rfl

/-- Zero stays zero. -/
theorem settled_zero : settled (0 : K) = 0 := by
  unfold settled settle
  split <;> rfl

/-- A sum that is zero or not negligible is kept as it is. -/
theorem settled_eq {x : K} (h : x = 0 ∨ ¬(fin |x| : Extended K) < Scalar.negligible) :
    settled x = x := by
  rcases h with rfl | h
  · exact settled_zero
  · unfold settled settle
    rw [magnitude_fin, if_neg h, val_fin]

/-- The entries after column `source` was folded into column `target`. -/
def folded (A : Nat → Nat → K) (source target i j : Nat) : K :=
  if j = source then 0
  else if j = target then (if A i source = 0 then A i target else settled (A i target + A i source))
  else A i j

/-- A merge of columns of finite numbers is one of numbers. -/
theorem fin_folded (A : Nat → Nat → K) (source target i j : Nat) :
    merged (fun i j => (fin (A i j) : Extended K)) source target i j
      = fin (folded A source target i j) := by
  unfold merged folded
  rw [zero_eq, fin_beq, fin_add, settle_fin]
  by_cases hs : j = source
  · rw [if_pos hs, if_pos hs]
  · rw [if_neg hs, if_neg hs]
    by_cases ht : j = target
    · rw [if_pos ht, if_pos ht]
      by_cases hz : A i source = 0
      · rw [if_pos (decide_eq_true hz), if_pos hz]
      · rw [if_neg (by simpa using hz), if_neg hz]
    · rw [if_neg ht, if_neg ht]

/-- **Folding column `source` into column `target`.** -/
theorem Represents.mergeColumns (h : a.Represents m n A) {source target : Nat} (hs : source < n)
    (ht : target < n) (hne : source ≠ target) :
    ∃ b, a.mergeColumns source target = .ok b ∧ b.Represents m n (folded A source target) := by
  obtain ⟨b, hb, hbs⟩ := (represents_iff.mp h).mergeColumns hs ht hne
  exact ⟨b, hb, represents_iff.mpr (hbs.congr_eq fun i _ j _ => fin_folded A source target i j)⟩

/-! ## §5.  Reading -/

namespace WellFormed

/-- A column can be read, and it holds the coefficients. -/
theorem column_eq (h : a.WellFormed) {j : Nat} (hj : j < a.columnCount) :
    ∃ col, a.column j = .ok col ∧ Numbers a.rowCount col ∧ ∀ i, coord col i = a.coeff i j := by
  obtain ⟨col, hcol, hlisted⟩ := (represents_iff.mp h).column_eq hj
  have hentry {i : Nat} (hi : i < a.rowCount) : col[i]? = some (fin (a.coeff i j)) := by
    obtain ⟨x, hx, hmatch⟩ := hlisted.each i hi
    rw [hx, eq_of_matches hmatch]
  refine ⟨col, hcol, .of_getElem? hlisted.length fun i hi => ⟨_, hentry hi⟩, fun i => ?_⟩
  by_cases hi : i < a.rowCount
  · exact coord_of_getElem? (hentry hi)
  · rw [coord_of_le (by rw [hlisted.length]; omega), coeff, if_neg hi]

/-- So can its sparse view. -/
theorem sparseColumn_eq (h : a.WellFormed) {j : Nat} (hj : j < a.columnCount) :
    ∃ v, a.sparseColumn j = .ok v ∧ v.Represents a.rowCount fun i => a.coeff i j := by
  obtain ⟨v, hv, hr⟩ := h.columns.each j hj
  exact ⟨v, Checked.getAt_eq_ok.mpr hv, hr⟩

/-- There is nothing outside of the matrix. -/
theorem coeff_eq_zero (h : a.WellFormed) {i j : Nat} (hij : ¬(i < a.rowCount ∧ j < a.columnCount)) :
    a.coeff i j = 0 := by
  unfold coeff
  split
  · next hi =>
    -- beyond the last column the list has ended
    have hle : a.columnCount * a.rowCount ≤ j * a.rowCount :=
      Nat.mul_le_mul_right _ (Nat.le_of_not_lt fun hj => hij ⟨hi, hj⟩)
    refine coord_of_le ?_
    rw [h.dense.length, place]
    omega
  · rfl

end WellFormed

end SystemMatrix

end BoundedSimplex
