/- BoundedSimplex.Proofs.Linear.MatrixStorage — what the three forms of a matrix
  store, over any numbers.

  Every write goes to the dense columns, the sparse columns and the sparse rows, so they keep
  storing one function of a row and a column.  All that happens to a matrix is a sequence of
  writes, of new rows and of new columns; folding one column into another is a sequence of writes
  as well.  The dense form may keep the sign of a zero that the sparse forms have lost, so it is
  compared up to that sign.

  Main results:
    * `Stores.write` — a write reaches all three forms;
    * `Stores.appendRow`, `Stores.appendColumn` — growing adds zeros;
    * `Stores.ofRowMajor` — a matrix that is written down row after row;
    * `Stores.mergeColumns` — folding one column into another;
    * `Coherent` — that all forms store the same, and what keeps it.
-/
import BoundedSimplex.Proofs.Linear.MatrixShape

namespace BoundedSimplex

namespace SystemMatrix

variable {α : Type} [Scalar α]

/-! ## §1.  The function that is stored -/

/-- The matrix has `m` rows and `n` columns and stores `A` in all of its forms. -/
structure Stores (a : SystemMatrix α) (m n : Nat) (A : Nat → Nat → α) : Prop where
  rowCount : a.rowCount = m
  columnCount : a.columnCount = n
  dense : ColumnMajor m n (fun i j x => Matches x (A i j)) a.dense
  columns : Listed n (fun j v => v.Stores m fun i => A i j) a.columns
  rows : Listed m (fun i v => v.Stores n fun j => A i j) a.rows

namespace Stores

variable {a : SystemMatrix α} {m n : Nat} {A : Nat → Nat → α}

/-- Only the entries within the shape count, and these up to matching ones. -/
theorem congr {B : Nat → Nat → α} (h : a.Stores m n A)
    (hA : ∀ i < m, ∀ j < n, Matches (A i j) (B i j)) : a.Stores m n B where
  rowCount := h.rowCount
  columnCount := h.columnCount
  dense := h.dense.imp fun i hi j hj _ hx => hx.trans (hA i hi j hj)
  columns := h.columns.imp fun j hj _ hv => hv.congr fun i hi => hA i hi j hj
  rows := h.rows.imp fun i hi _ hv => hv.congr fun j hj => hA i hi j hj

/-- In particular, equal entries can be exchanged. -/
theorem congr_eq {B : Nat → Nat → α} (h : a.Stores m n A)
    (hA : ∀ i < m, ∀ j < n, A i j = B i j) : a.Stores m n B :=
  h.congr fun i hi j hj => .inl (hA i hi j hj)

/-- A new matrix stores zeros, in all three views. -/
theorem zero [LawfulZero α] (m n : Nat) :
    (SystemMatrix.zero m n : SystemMatrix α).Stores m n fun _ _ => 0 where
  rowCount := rfl
  columnCount := rfl
  dense := by
    show ColumnMajor m n _ (List.replicate (m * n) 0)
    rw [Nat.mul_comm]
    exact .replicate fun _ _ _ _ => .refl 0
  columns := .replicate n fun _ _ => SparseVector.Stores.zero m
  rows := .replicate m fun _ _ => SparseVector.Stores.zero n

/-- The forms have the sizes of a matrix. -/
theorem shaped (h : a.Stores m n A) : a.Shaped m n where
  rowCount := h.rowCount
  columnCount := h.columnCount
  dense := h.dense.length
  columns := h.columns.imp fun _ _ _ hv => ⟨hv.length, hv.inRange⟩
  rows := h.rows.imp fun _ _ _ hv => ⟨hv.length, hv.inRange⟩

/-! ## §2.  Writing -/

/-- **A write reaches all forms.** -/
theorem write (h : a.Stores m n A) {i j : Nat} (hi : i < m) (hj : j < n) (x : α) :
    (a.write i j x).Stores m n fun k l => if k = i ∧ l = j then x else A k l where
  rowCount := h.rowCount
  columnCount := h.columnCount
  dense := by
    show ColumnMajor m n _ (a.dense.set (j * a.rowCount + i) x)
    -- The dense store is written at one position, the views in one column and in one row.
    rw [h.rowCount]
    refine h.dense.set hi hj ?_ fun k _ l _ hkl y hy => ?_
    · rw [if_pos ⟨rfl, rfl⟩]
      exact .refl x
    · rwa [if_neg hkl]
  columns := by
    refine h.columns.modify j _ (fun v hv => (hv.write hi x).congr fun k _ => .inl (by simp))
      fun l _ hl v hv => hv.congr fun k _ => .inl ?_
    rw [if_neg fun e => hl e.2]
  rows := by
    refine h.rows.modify i _ (fun v hv => (hv.write hj x).congr fun l _ => .inl (by simp))
      fun k _ hk v hv => hv.congr fun l _ => .inl ?_
    rw [if_neg fun e => hk e.1]

/-- Writing inside the shape succeeds in all three views. -/
theorem set_eq (h : a.Stores m n A) {i j : Nat} (hi : i < m) (hj : j < n) (x : α) :
    ∃ b, a.set i j x = .ok b ∧ b.Stores m n fun k l => if k = i ∧ l = j then x else A k l :=
  ⟨_, h.shaped.set_eq_write hi hj x, h.write hi hj x⟩

/-- What stands in the dense form at a place of the matrix. -/
theorem matches_entry (h : a.Stores m n A) {i j : Nat} (hi : i < m) (hj : j < n) :
    Matches (a.entry i j) (A i j) := by
  obtain ⟨x, hx, hA⟩ := h.dense.each i hi j hj
  rw [entry, place, h.rowCount, List.getD_eq_getElem?_getD, hx]
  exact hA

/-- Reading inside the shape finds an entry that matches. -/
theorem get_eq (h : a.Stores m n A) {i j : Nat} (hi : i < m) (hj : j < n) :
    ∃ x, a.get i j = .ok x ∧ Matches x (A i j) :=
  ⟨_, h.shaped.get_eq_entry hi hj, h.matches_entry hi hj⟩

/-- A dense column holds the numbers of its column. -/
theorem column_eq (h : a.Stores m n A) {j : Nat} (hj : j < n) :
    ∃ column, a.column j = .ok column ∧ Listed m (fun i x => Matches x (A i j)) column := by
  obtain ⟨column, hcolumn, hlisted⟩ := h.dense.slice hj
  rw [← h.rowCount] at hcolumn
  exact ⟨column, Checked.bind_eq_ok.mpr ⟨(), Checked.require_of (h.columnCount.symm ▸ hj), hcolumn⟩,
    hlisted⟩

/-- Writing a row from a list of its numbers. -/
theorem writeRow {i : Nat} (hi : i < m) (xs : List α) {p : Nat} {b : SystemMatrix α}
    {B : Nat → Nat → α} (hp : p + xs.length ≤ n) (hb : b.Stores m n B) :
    ∃ c, (xs.zipIdx p).foldlM (fun b q => b.set i q.2 q.1) b = .ok c ∧ c.Stores m n fun k l =>
      if k = i ∧ p ≤ l ∧ l < p + xs.length then xs.getD (l - p) 0 else B k l := by
  induction xs generalizing p b B with
  | nil =>
    refine ⟨b, rfl, hb.congr_eq fun k _ l _ => ?_⟩
    rw [if_neg (by simp)]
  | cons x xs ih =>
    rw [List.length_cons] at hp
    obtain ⟨c, hc, hcs⟩ := hb.set_eq hi (show p < n by omega) x
    obtain ⟨d, hd, hds⟩ := ih (p := p + 1) (by omega) hcs
    refine ⟨d, ?_, hds.congr_eq fun k _ l _ => ?_⟩
    · rw [List.zipIdx_cons, List.foldlM_cons, hc]
      exact hd
    · rw [List.length_cons]
      by_cases hk : k = i
      · -- the first number stands at `p`, the others behind it
        by_cases hl : l = p
        · subst hl
          simp [hk]
        · by_cases hle : p + 1 ≤ l ∧ l < p + 1 + xs.length
          · rw [if_pos ⟨hk, hle⟩, if_pos ⟨hk, by omega, by omega⟩,
              show l - p = (l - (p + 1)) + 1 by omega, List.getD_cons_succ]
          · rw [if_neg fun e => hle e.2, if_neg fun e => hl e.2, if_neg fun e => hle (by omega)]
      · simp [hk]

/-- The part of a list that holds one row. -/
theorem getD_row {xs : List α} {m n i j : Nat} (hlen : xs.length = m * n) (hi : i < m)
    (hj : j < n) :
    ((xs.drop (i * n)).take n).length = n ∧
      ((xs.drop (i * n)).take n).getD j 0 = xs.getD (i * n + j) 0 := by
  have hle : (i + 1) * n ≤ m * n := Nat.mul_le_mul_right n hi
  rw [Nat.succ_mul] at hle
  constructor
  · rw [List.length_take, List.length_drop, hlen]
    omega
  · rw [List.getD_eq_getElem?_getD, List.getElem?_take_of_lt hj, List.getElem?_drop,
      ← List.getD_eq_getElem?_getD]

/-- **A matrix that is written down row after row.** -/
theorem ofRowMajor [LawfulZero α] {xs : List α} (hlen : xs.length = m * n)
    (hroom : max (m * n) (max m n) < Checked.addressSpace) :
    ∃ a, SystemMatrix.ofRowMajor xs m n = .ok a ∧ a.Stores m n fun i j =>
    xs.getD (i * n + j) 0 := by
  -- After `k` rows the ones below `k` are written, and the others are zero.
  have hfold : ∀ k ≤ m, ∃ b, (List.range k).foldlM
        (fun b i => b.writeRow i ((xs.drop (i * n)).take n)) (SystemMatrix.zero m n) = .ok b
      ∧ b.Stores m n fun i j => if i < k then xs.getD (i * n + j) 0 else 0 := by
    intro k
    induction k with
    | zero => exact fun _ => ⟨_, rfl, (Stores.zero m n).congr_eq fun i _ j _ => by simp⟩
    | succ k ih =>
      intro hk
      obtain ⟨b, hb, hbs⟩ := ih (by omega)
      obtain ⟨c, hc, hcs⟩ := hbs.writeRow (i := k) hk ((xs.drop (k * n)).take n) (p := 0)
        (by rw [List.length_take]; omega)
      refine ⟨c, ?_, hcs.congr_eq fun i hi j hj => ?_⟩
      · rw [List.range_succ, List.foldlM_append, hb, Checked.ok_bind, List.foldlM_cons,
          SystemMatrix.writeRow, hc]
        rfl
      · obtain ⟨hl, hx⟩ := getD_row (i := k) hlen hk hj
        rw [hl, Nat.sub_zero]
        by_cases hik : i = k
        · rw [if_pos ⟨hik, by omega, by omega⟩, if_pos (by omega), hx, hik]
        · rw [if_neg fun e => hik e.1]
          by_cases hlt : i < k
          · rw [if_pos hlt, if_pos (by omega)]
          · rw [if_neg hlt, if_neg (by omega)]
  obtain ⟨a, ha, has⟩ := hfold m (Nat.le_refl m)
  refine ⟨a, ?_, has.congr_eq fun i hi j _ => if_pos hi⟩
  unfold SystemMatrix.ofRowMajor zero? Checked.requireRoom
  rw [Checked.require_of hlen, Checked.ok_bind, Checked.require_of hroom]
  exact ha

/-! ## §3.  Growing -/

/-- A new row holds zeros. -/
theorem appendRow [LawfulZero α] (h : a.Stores m n A) :
    ∃ b, a.appendRow = .ok b ∧ b.Stores (m + 1) n fun i j => if i = m then 0 else A i j := by
  obtain ⟨dense, hrow, htable⟩ := exists_appendRow h.rowCount h.columnCount h.dense
  refine ⟨_, hrow, rfl, rfl, htable.imp fun i hi j _ x hx => ?_, ?_, ?_⟩
  · -- the old numbers moved along with their columns
    by_cases him : i = m
    · rw [if_neg (by omega)] at hx
      rw [if_pos him, hx]
      exact .refl 0
    · rw [if_pos (by omega)] at hx
      rwa [if_neg him]
  · refine h.columns.map _ fun j hj v hv => ?_
    -- beyond the end the stored function may be anything, so it is cut there first
    have hcut : v.Stores m fun i => if i < m then A i j else 0 :=
      hv.congr fun i hi => .inl (if_pos hi).symm
    refine (hcut.grow 1 fun i hi => ?_).congr fun i hi => .inl ?_
    · rw [if_neg (by omega)]
      exact LawfulZero.zero_beq
    · by_cases him : i = m
      · rw [if_neg (by omega), if_pos him]
      · rw [if_pos (by omega), if_neg him]
  · have hold : Listed m (fun i v => v.Stores n fun j => if i = m then 0 else A i j) a.rows :=
      h.rows.imp fun i hi v hv => hv.congr fun j _ => .inl (if_neg (by omega)).symm
    refine hold.concat ?_
    exact (SparseVector.Stores.zero n).congr fun j _ => .inl (if_pos rfl).symm

/-- A new column holds zeros. -/
theorem appendColumn [LawfulZero α] (h : a.Stores m n A) :
    a.appendColumn.Stores m (n + 1) fun i j => if j = n then 0 else A i j where
  rowCount := h.rowCount
  columnCount := congrArg (· + 1) h.columnCount
  dense := by
    -- The entries so far keep their positions: a column is added at the end of the store.
    have hold : ColumnMajor m n (fun i j x => Matches x (if j = n then 0 else A i j)) a.dense :=
      h.dense.imp fun i _ j hj x hx => by
        rwa [if_neg (by omega)]
    refine hold.append ?_
    rw [h.rowCount]
    exact .replicate m fun i _ => by
      rw [if_pos rfl]
      exact .refl 0
  columns := by
    have hold : Listed n (fun j v => v.Stores m fun i => if j = n then 0 else A i j) a.columns :=
      h.columns.imp fun j hj v hv => hv.congr fun i _ => .inl (if_neg (by omega)).symm
    refine hold.concat ?_
    rw [h.rowCount]
    exact (SparseVector.Stores.zero m).congr fun i _ => .inl (if_pos rfl).symm
  rows := h.rows.map _ fun i hi v hv => by
    -- A row stores nothing past its old length, which is what growing asks for.
    have hcut : v.Stores n fun j => if j < n then A i j else 0 :=
      hv.congr fun j hj => .inl (if_pos hj).symm
    refine (hcut.grow 1 fun j hj => ?_).congr fun j hj => .inl ?_
    · rw [if_neg (by omega)]
      exact LawfulZero.zero_beq
    · by_cases hjn : j = n
      · rw [if_neg (by omega), if_pos hjn]
      · rw [if_pos (by omega), if_neg hjn]

end Stores

/-! ## §4.  Folding one column into another -/

/-- The numbers after column `source` was folded into column `target`. -/
def merged (A : Nat → Nat → α) (source target i j : Nat) : α :=
  if j = source then 0
  else if j = target then
    (if A i source == 0 then A i target else settle (A i target + A i source))
  else A i j

namespace Stores

variable {a : SystemMatrix α} {m n : Nat} {A : Nat → Nat → α}

/-- Moving one entry: its row changes in the two columns. -/
theorem moveEntry [LawfulZero α] (h : a.Stores m n A) {source target : Nat} (hs : source < n)
    (ht : target < n) {p : Nat × α} (hp : p.1 < m) (hne : (p.2 == 0) = false)
    (hx : p.2 = A p.1 source) :
    ∃ b, moveEntry source target a p = .ok b ∧ b.Stores m n fun i j =>
      if i = p.1 then merged A source target i j else A i j := by
  -- The old entry of the target, the sum in its place, and a zero in the place of the source.
  obtain ⟨old, hold, hmatch⟩ := h.get_eq hp ht
  obtain ⟨b, hb, hbs⟩ := h.set_eq hp ht (settle (old + p.2))
  obtain ⟨c, hc, hcs⟩ := hbs.set_eq hp hs 0
  refine ⟨c, ?_, hcs.congr_eq fun i _ j _ => ?_⟩
  · unfold SystemMatrix.moveEntry
    rw [hold]
    show (a.set p.1 target (settle (old + p.2)) >>= fun a => a.set p.1 source 0) = _
    rw [hb]
    exact hc
  · rw [hmatch.add_right hne]
    unfold merged
    by_cases hi : i = p.1
    · rw [if_pos hi, hi, ← hx, hne]
      simp
    · simp [hi]

/-- Moving the entries of a list, each in a row of its own. -/
theorem foldlM_moveEntry [LawfulZero α] {source target : Nat} (hs : source < n) (ht : target < n)
    (ps : List (Nat × α)) (h : a.Stores m n A) (hnd : (ps.map Prod.fst).Nodup)
    (hp : ∀ p ∈ ps, p.1 < m ∧ (p.2 == 0) = false ∧ p.2 = A p.1 source) :
    ∃ b, ps.foldlM (SystemMatrix.moveEntry source target) a = .ok b ∧ b.Stores m n fun i j =>
      if i ∈ ps.map Prod.fst then merged A source target i j else A i j := by
  induction ps generalizing a A with
  | nil => exact ⟨a, rfl, h.congr_eq fun i _ j _ => by simp⟩
  | cons p ps ih =>
    obtain ⟨hnot, hnd⟩ := List.nodup_cons.mp hnd
    obtain ⟨hi, hne, hx⟩ := hp p List.mem_cons_self
    obtain ⟨b, hb, hbs⟩ := h.moveEntry hs ht hi hne hx
    have hother : ∀ q ∈ ps, q.1 ≠ p.1 := fun q hq e =>
      hnot (e ▸ List.mem_map_of_mem (f := Prod.fst) hq)
    -- the remaining rows were not touched yet
    obtain ⟨c, hc, hcs⟩ := ih hbs hnd fun q hq => by
      rw [if_neg (hother q hq)]
      exact hp q (List.mem_cons_of_mem _ hq)
    refine ⟨c, ?_, hcs.congr_eq fun i _ j _ => ?_⟩
    · rw [List.foldlM_cons, hb]
      exact hc
    · simp only [List.map_cons, List.mem_cons]
      by_cases hip : i = p.1
      · rw [hip, if_neg hnot, if_pos rfl, if_pos (.inl rfl)]
      · simp only [hip, false_or]
        split
        · simp only [merged, if_neg hip]
        · rfl

/-- **Folding column `source` into column `target`.**  It leaves nothing of the former, in the
    dense form either. -/
theorem mergeColumns [LawfulZero α] (h : a.Stores m n A) {source target : Nat} (hs : source < n)
    (ht : target < n) (hne : source ≠ target) :
    ∃ b, a.mergeColumns source target = .ok b ∧ b.Stores m n (merged A source target) := by
  obtain ⟨v, hv, hrep⟩ := h.columns.each source hs
  obtain ⟨b, hb, hbs⟩ := foldlM_moveEntry hs ht v.entries h hrep.distinct fun p hp => by
    obtain ⟨hi, hf, hx⟩ := hrep.mem_iff.mp hp
    exact ⟨hi, hx ▸ hf, hx⟩
  have hmerged : b.Stores m n (merged A source target) := by
    refine hbs.congr fun i hi j _ => ?_
    -- a row without an entry has a zero in the column, and keeps its sign in the dense form
    by_cases hz : A i source == 0
    · have hmem : i ∉ v.entries.map Prod.fst := by
        intro hm
        obtain ⟨p, hp, rfl⟩ := List.mem_map.mp hm
        rw [(hrep.mem_iff.mp hp).2.1] at hz
        exact Bool.false_ne_true hz
      rw [if_neg hmem]
      unfold merged
      by_cases hjs : j = source
      · rw [if_pos hjs, hjs]
        exact .inr ⟨hz, LawfulZero.zero_beq⟩
      · rw [if_neg hjs, if_pos hz]
        split
        · next hjt => exact .inl (congrArg (A i) hjt)
        · exact .refl _
    · have hmem : i ∈ v.entries.map Prod.fst := by
        have hp : (i, A i source) ∈ v.entries := hrep.mem_iff.mpr ⟨hi, by simpa using hz, rfl⟩
        exact List.mem_map_of_mem (f := Prod.fst) hp
      rw [if_pos hmem]
      exact .refl _
  obtain ⟨cleared, hcleared, hlisted⟩ := hmerged.column_eq hs
  have hzero : cleared.all (· == 0) = true := by
    refine List.all_eq_true.mpr fun x hx => ?_
    obtain ⟨i, hi⟩ := List.mem_iff_getElem?.mp hx
    have hmatch := hlisted.of_getElem? hi
    rw [merged, if_pos rfl] at hmatch
    rw [hmatch.isZero]
    exact LawfulZero.zero_beq
  refine ⟨b, ?_, hmerged⟩
  unfold SystemMatrix.mergeColumns sparseColumn
  rw [Checked.require_of hne, Checked.ok_bind, Checked.getAt_eq_ok.mpr hv, Checked.ok_bind, hb,
    Checked.ok_bind, hcleared, Checked.ok_bind, Checked.require_of hzero]
  rfl

end Stores

/-! ## §5.  Forms that agree -/

/-- The dense columns, the sparse columns and the sparse rows hold the same numbers. -/
def Coherent (a : SystemMatrix α) : Prop := ∃ A, a.Stores a.rowCount a.columnCount A

variable {a b : SystemMatrix α}

/-- The three views of what stores a matrix agree. -/
theorem Stores.coherent {m n : Nat} {A : Nat → Nat → α} (h : a.Stores m n A) : a.Coherent := by
  refine ⟨A, ?_⟩
  rw [h.rowCount, h.columnCount]
  exact h

/-- Writing keeps the views in agreement. -/
theorem Coherent.set {i j : Nat} {x : α} (h : a.Coherent) (hb : a.set i j x = .ok b) :
    b.Coherent := by
  obtain ⟨A, hA⟩ := h
  obtain ⟨⟨hi, hj⟩, rfl⟩ := of_set hb
  exact (hA.write hi hj x).coherent

/-- So does adding to an entry. -/
theorem Coherent.addEntry {i j : Nat} {x : α} (h : a.Coherent) (hb : a.addEntry i j x = .ok b) :
    b.Coherent := by
  obtain ⟨old, -, hb⟩ := Checked.bind_eq_ok.mp hb
  exact h.set hb

variable [LawfulZero α]

/-- The views of a new matrix agree. -/
theorem coherent_zero (m n : Nat) : (zero m n : SystemMatrix α).Coherent :=
  (Stores.zero m n).coherent

/-- A matrix that was given row after row. -/
theorem coherent_ofRowMajor {xs : List α} {m n : Nat} (hb : ofRowMajor xs m n = .ok b) :
    b.Coherent := by
  obtain ⟨_, hlen, hblank⟩ := Checked.bind_eq_ok.mp hb
  obtain ⟨_, hroom, -⟩ := Checked.bind_eq_ok.mp hblank
  obtain ⟨_, hroom, -⟩ := Checked.bind_eq_ok.mp hroom
  obtain ⟨b', hb', hstores⟩ := Stores.ofRowMajor (Checked.require_eq_ok.mp hlen)
    (Checked.requireRoom_eq_ok.mp hroom)
  obtain rfl : b' = b := Except.ok.inj (hb'.symm.trans hb)
  exact hstores.coherent

/-- One more row and one more column. -/
theorem Coherent.exists_grown (h : a.Coherent) :
    ∃ b, a.appendRow = .ok b ∧ b.appendColumn.Coherent := by
  obtain ⟨A, hA⟩ := h
  obtain ⟨b, hb, hstores⟩ := hA.appendRow
  exact ⟨b, hb, hstores.appendColumn.coherent⟩

/-- Where the forms agree, a column can be folded into another one, and they agree again. -/
theorem Coherent.exists_mergeColumns {source target : Nat} (h : a.Coherent)
    (hs : source < a.columnCount) (ht : target < a.columnCount) (hne : source ≠ target) :
    ∃ b, a.mergeColumns source target = .ok b ∧ b.Coherent := by
  obtain ⟨A, hA⟩ := h
  obtain ⟨b, hb, hstores⟩ := hA.mergeColumns hs ht hne
  exact ⟨b, hb, hstores.coherent⟩

end SystemMatrix

end BoundedSimplex
