/-
  BoundedSimplex.Proofs.Linear.ColumnMajor — a table of numbers in one list.

  The columns of a table of `m` rows stand one after the other, so row `i` of column `j` stands at
  position `j * m + i`.  Every position of the list belongs to one row and one column.  One more
  column goes to the end; one more row changes the positions of all others, so that the columns have
  to be copied to a list of their own, one by one.

  Main results:
    * `place_lt`, `place_inj`, `exists_place` — positions, and rows and columns;
    * `ColumnMajor.set` — a write changes one number of the table;
    * `ColumnMajor.slice` — a column is a part of the list;
    * `ColumnMajor.overwrite` — a column is written over.
-/
import BoundedSimplex.Contract
import BoundedSimplex.Proofs.Listed

namespace BoundedSimplex

/-! ## §1.  Positions -/

variable {m n i j k l : Nat}

/-- A row and a column have a position in the list. -/
theorem place_lt (hi : i < m) (hj : j < n) : j * m + i < n * m := by
  have hcolumn : (j + 1) * m ≤ n * m := Nat.mul_le_mul_right m hj
  rw [Nat.succ_mul] at hcolumn
  omega

/-- Different rows or columns have different positions. -/
theorem place_inj (hi : i < m) (hk : k < m) : j * m + i = l * m + k ↔ j = l ∧ i = k := by
  constructor
  · intro h
    -- the position determines the column as a quotient and the row as a remainder
    have hcolumn : (j * m + i) / m = (l * m + k) / m := congrArg (· / m) h
    have hrow : (j * m + i) % m = (l * m + k) % m := congrArg (· % m) h
    have hpos : 0 < m := by omega
    rw [Nat.mul_comm j, Nat.mul_comm l, Nat.mul_add_div hpos, Nat.mul_add_div hpos,
      Nat.div_eq_of_lt hi, Nat.div_eq_of_lt hk] at hcolumn
    rw [Nat.mul_comm j, Nat.mul_comm l, Nat.mul_add_mod, Nat.mul_add_mod, Nat.mod_eq_of_lt hi,
      Nat.mod_eq_of_lt hk] at hrow
    omega
  · rintro ⟨rfl, rfl⟩
    rfl

/-- Every position belongs to a row and a column. -/
theorem exists_place (hk : k < n * m) : ∃ i < m, ∃ j < n, k = j * m + i := by
  have hpos : 0 < m := Nat.pos_of_ne_zero fun h => by
    subst h
    simp at hk
  refine ⟨k % m, Nat.mod_lt k hpos, k / m, Nat.div_lt_of_lt_mul (by rwa [Nat.mul_comm]), ?_⟩
  rw [Nat.mul_comm]
  exact (Nat.div_add_mod k m).symm

/-! ## §2.  Tables -/

variable {β : Type} {p q : Nat → Nat → β → Prop} {xs ys : List β}

/-- A table of `m` rows and `n` columns; what stands in row `i` and column `j`
    has property `p i j`. -/
structure ColumnMajor (m n : Nat) (p : Nat → Nat → β → Prop) (xs : List β) : Prop where
  length : xs.length = n * m
  each : ∀ i < m, ∀ j < n, ∃ x, xs[j * m + i]? = some x ∧ p i j x

namespace ColumnMajor

/-- What is found at the position of a place holds of that place. -/
theorem of_getElem? (h : ColumnMajor m n p xs) (hi : i < m) (hj : j < n) {x : β}
    (hx : xs[j * m + i]? = some x) : p i j x := by
  obtain ⟨y, hy, hp⟩ := h.each i hi j hj
  rw [hx] at hy
  cases hy
  exact hp

/-- Whatever is in the list stands in a row and a column. -/
theorem of_mem (h : ColumnMajor m n p xs) {x : β} (hx : x ∈ xs) : ∃ i < m, ∃ j < n, p i j x := by
  obtain ⟨k, hk⟩ := List.mem_iff_getElem?.mp hx
  obtain ⟨i, hi, j, hj, rfl⟩ := exists_place (h.length ▸ (List.getElem?_eq_some_iff.mp hk).1)
  exact ⟨i, hi, j, hj, h.of_getElem? hi hj hk⟩

/-- A weaker statement about each place. -/
theorem imp (h : ColumnMajor m n p xs) (hpq : ∀ i < m, ∀ j < n, ∀ x, p i j x → q i j x) :
    ColumnMajor m n q xs :=
  ⟨h.length, fun i hi j hj => (h.each i hi j hj).imp fun x hx => ⟨hx.1, hpq i hi j hj x hx.2⟩⟩

/-- A list of the right length is a table of its entries. -/
theorem of_length (hlen : xs.length = n * m) (hp : ∀ i < m, ∀ j < n, ∀ x,
    xs[j * m + i]? = some x → p i j x) : ColumnMajor m n p xs := by
  refine ⟨hlen, fun i hi j hj => ?_⟩
  have hplace := List.getElem?_eq_getElem (hlen.symm ▸ place_lt hi hj)
  exact ⟨_, hplace, hp i hi j hj _ hplace⟩

/-- A store filled with one number. -/
theorem replicate {x : β} (hx : ∀ i < m, ∀ j < n, p i j x) :
    ColumnMajor m n p (List.replicate (n * m) x) := by
  refine of_length List.length_replicate fun i hi j hj y hy => ?_
  obtain rfl := List.eq_of_mem_replicate (List.mem_of_getElem? hy)
  exact hx i hi j hj

/-- **Writing** to one place changes what stands there and nothing else. -/
theorem set (h : ColumnMajor m n p xs) (hi : i < m) (hj : j < n) {x : β} (hx : q i j x)
    (hne : ∀ k < m, ∀ l < n, ¬(k = i ∧ l = j) → ∀ y, p k l y → q k l y) :
    ColumnMajor m n q (xs.set (j * m + i) x) := by
  refine ⟨by rw [List.length_set, h.length], fun k hk l hl => ?_⟩
  rw [List.getElem?_set]
  by_cases hplace : k = i ∧ l = j
  · obtain ⟨rfl, rfl⟩ := hplace
    rw [if_pos rfl, if_pos (h.length ▸ place_lt hi hj)]
    exact ⟨x, rfl, hx⟩
  -- Different places have different positions.
  · have hother : ¬j * m + i = l * m + k := fun heq =>
      hplace ⟨((place_inj hi hk).mp heq).2.symm, ((place_inj hi hk).mp heq).1.symm⟩
    rw [if_neg hother]
    obtain ⟨y, hy, hp⟩ := h.each k hk l hl
    exact ⟨y, hy, hne k hk l hl hplace y hp⟩

/-! ## §3.  Columns -/

/-- **A column** is the part of the list from its first position on. -/
theorem slice (h : ColumnMajor m n p xs) (hj : j < n) :
    ∃ column, Checked.slice xs (j * m) ((j + 1) * m) = .ok column
      ∧ Listed m (fun i => p i j) column := by
  have hend : (j + 1) * m ≤ xs.length := h.length ▸ Nat.mul_le_mul_right m hj
  rw [Nat.succ_mul] at hend ⊢
  have hsize : j * m + m - j * m = m := by omega
  refine ⟨_, Checked.slice_eq_ok.mpr ⟨⟨by omega, hend⟩, rfl⟩, ?_, fun i hi => ?_⟩
  · rw [hsize, List.length_take, List.length_drop]
    omega
  · rw [hsize, List.getElem?_take_of_lt hi, List.getElem?_drop]
    exact h.each i hi j hj

/-- One more column, at the end. -/
theorem append (h : ColumnMajor m n p xs) (hys : Listed m (fun i => p i n) ys) :
    ColumnMajor m (n + 1) p (xs ++ ys) := by
  refine ⟨by rw [List.length_append, h.length, hys.length, Nat.succ_mul], fun i hi j hj => ?_⟩
  by_cases hjn : j < n
  · rw [List.getElem?_append_left (h.length ▸ place_lt hi hjn)]
    exact h.each i hi j hjn
  · have hlast : j = n := by omega
    subst hlast
    rw [List.getElem?_append_right (by rw [h.length]; omega), h.length, Nat.add_sub_cancel_left]
    exact hys.each i hi

/-- Reading a list after a part of it was written over. -/
theorem getElem?_overwritten {start : Nat} (hfit : start + ys.length ≤ xs.length) (k : Nat) :
    (xs.take start ++ ys ++ xs.drop (start + ys.length))[k]?
      = if start ≤ k ∧ k < start + ys.length then ys[k - start]? else xs[k]? := by
  have hstart : (xs.take start).length = start := by
    rw [List.length_take]
    omega
  rw [List.append_assoc, List.getElem?_append, hstart, List.getElem?_append]
  -- Before the range, inside it, and after it.
  by_cases hk : k < start
  · rw [if_pos hk, if_neg (by omega), List.getElem?_take_of_lt hk]
  · rw [if_neg hk]
    by_cases hin : k - start < ys.length
    · rw [if_pos hin, if_pos (by omega)]
    · rw [if_neg hin, if_neg (by omega), List.getElem?_drop]
      congr 1
      omega

/-- **Writing over the first places of a column** leaves all other places as they are. -/
theorem overwrite (h : ColumnMajor m n p xs) (hj : j < n) (hle : ys.length ≤ m)
    (hys : ∀ i x, ys[i]? = some x → q i j x)
    (hne : ∀ k < m, ∀ l < n, ¬(k < ys.length ∧ l = j) → ∀ x, p k l x → q k l x) :
    ∃ zs, Checked.overwrite xs (j * m) ys = .ok zs ∧ ColumnMajor m n q zs := by
  have hend : (j + 1) * m ≤ xs.length := h.length ▸ Nat.mul_le_mul_right m hj
  rw [Nat.succ_mul] at hend
  have hfit : j * m + ys.length ≤ xs.length := by omega
  refine ⟨_, Checked.overwrite_eq_ok.mpr ⟨hfit, rfl⟩, ?_, fun k hk l hl => ?_⟩
  · rw [List.length_append, List.length_append, List.length_take, List.length_drop, ← h.length]
    omega
  · rw [getElem?_overwritten hfit]
    by_cases hin : k < ys.length ∧ l = j
    · obtain ⟨hlt, rfl⟩ := hin
      rw [if_pos (by omega), Nat.add_sub_cancel_left]
      exact ⟨_, List.getElem?_eq_getElem hlt, hys k _ (List.getElem?_eq_getElem hlt)⟩
    · -- the part that is written over belongs to the first rows of column `j`
      have hout : ¬(j * m ≤ l * m + k ∧ l * m + k < j * m + ys.length) := by
        rintro ⟨hfirst, hlast⟩
        have hplace : j * m + (l * m + k - j * m) = l * m + k := by omega
        have := (place_inj (by omega : l * m + k - j * m < m) hk).mp hplace
        exact hin ⟨by omega, this.1.symm⟩
      rw [if_neg hout]
      obtain ⟨x, hx, hp⟩ := h.each k hk l hl
      exact ⟨x, hx, hne k hk l hl hin x hp⟩

end ColumnMajor

end BoundedSimplex
