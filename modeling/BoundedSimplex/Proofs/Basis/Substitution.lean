/-
  BoundedSimplex.Proofs.Basis.Substitution — triangular systems, and systems with a factored basis.

  Substitution finds the unknowns of a triangular system one after the other.  A factored basis
  is solved by two triangular systems, from either side; the order of the rows is undone at the
  start or at the end.

  Main results:
    * `substituteDown_spec`, `substituteUp_spec` — the unknowns satisfy the triangular systems;
    * `solveColumn_spec`, `solveRow_spec` — the solutions satisfy the systems with the basis.
-/
import BoundedSimplex.Proofs.Basis.Elimination
import Mathlib.Algebra.BigOperators.Intervals
import Mathlib.Algebra.BigOperators.Ring.Finset

namespace BoundedSimplex.TriangularFactors

open Extended

variable {K : Type} [Field K] [LinearOrder K]

/-! ## §1.  Substitution -/

/-- The coefficient of the unknown that a row is solved for. -/
def diagonal (unitDiagonal : Bool) (x : K) : K := if unitDiagonal then 1 else x

/-- An unknown whose coefficient is not zero is settled by a division, or as it is. -/
theorem settle_fin {unitDiagonal : Bool} {d r : K} (hd : diagonal unitDiagonal d ≠ 0) :
    ∃ x : K, settle unitDiagonal (fin d) (fin r) = fin x ∧ diagonal unitDiagonal d * x = r := by
  cases unitDiagonal with
  | true => exact ⟨r, rfl, one_mul r⟩
  | false => exact ⟨r / d, fin_div r hd, mul_div_cancel₀ r hd⟩

/-- Substitution from the first unknown on.  The unknowns that are known when it starts stay; each
    row gives one more. -/
theorem substituteDown_from {m : Nat} (unitDiagonal : Bool) :
    ∀ (rows : List (List (Extended K))) (ys xs : List (Extended K)) {p : Nat},
      Numbers p xs → Numbers rows.length ys → p + rows.length ≤ m →
      (∀ row ∈ rows, Numbers m row) →
      (∀ i < rows.length, diagonal unitDiagonal (cell rows i (p + i)) ≠ 0) →
      ∃ zs, (rows.zip ys).foldl (fun xs (row, y) =>
          xs ++ [settle unitDiagonal (row.getD xs.length 0) (y - Scalar.dot row xs)]) xs = zs
        ∧ Numbers (p + rows.length) zs
        ∧ (∀ i < p, coord zs i = coord xs i)
        ∧ ∀ i < rows.length, ∑ l ∈ Finset.range (p + i), cell rows i l * coord zs l
            + diagonal unitDiagonal (cell rows i (p + i)) * coord zs (p + i) = coord ys i := by
  -- over the rows, since each row finds one more unknown known than the row above it
  intro rows
  induction rows with
  | nil =>
    intro ys xs p hx _ _ _ _
    exact ⟨xs, rfl, hx, fun _ _ => rfl, fun i hi => absurd hi (Nat.not_lt_zero i)⟩
  | cons row rows ih =>
    intro ys xs p hx hy hm hrows hd
    rw [List.length_cons] at hy hm
    obtain ⟨y, ys, rfl⟩ := List.exists_cons_of_length_pos (l := ys) (by rw [hy.length]; omega)
    obtain ⟨b, rfl⟩ := isFinite_iff.mp (hy.finite y List.mem_cons_self)
    have hys : Numbers rows.length ys :=
      ⟨by simpa using hy.length, fun x hx => hy.finite x (List.mem_cons_of_mem _ hx)⟩
    have hrow : Numbers m row := hrows row List.mem_cons_self
    have hdot : Scalar.dot row xs = fin (∑ l ∈ Finset.range p, coord row l * coord xs l) := by
      rw [hrow.dot_eq hx, Nat.min_eq_right (by omega)]
    have hd₀ : diagonal unitDiagonal (coord row p) ≠ 0 := hd 0 (by simp)
    obtain ⟨x, hset, hx₀⟩ := settle_fin
      (r := b - ∑ l ∈ Finset.range p, coord row l * coord xs l) hd₀
    have hstep : settle unitDiagonal (row.getD xs.length 0) (fin b - Scalar.dot row xs)
      = fin x := by
      rw [hx.length, hrow.getD (by omega), hdot, fin_sub, hset]
    obtain ⟨zs, hfold, hz, hold, hnew⟩ := ih ys (xs ++ [fin x]) (p := p + 1)
      (hx.append (Numbers.singleton x)) hys (by omega)
      (fun r hr => hrows r (List.mem_cons_of_mem _ hr))
      (fun i hi => by
        have := hd (i + 1) (by simpa using hi)
        rwa [show p + (i + 1) = p + 1 + i by omega] at this)
    -- the later rows leave the new unknown and the older ones alone
    have hxp : coord zs p = x := by
      rw [hold p (by omega), ← hx.length, coord_append_length]
    have hxs (l : Nat) (hl : l < p) : coord zs l = coord xs l := by
      rw [hold l (by omega), coord_append_left (by rw [hx.length]; exact hl)]
    refine ⟨zs, ?_, ?_, hxs, fun i hi => ?_⟩
    · rw [List.zip_cons_cons, List.foldl_cons]
      dsimp only
      rw [hstep]
      exact hfold
    · rwa [List.length_cons, show p + (rows.length + 1) = p + 1 + rows.length by omega]
    · cases i with
      | zero =>
        have hsum : ∑ l ∈ Finset.range p, coord row l * coord zs l
            = ∑ l ∈ Finset.range p, coord row l * coord xs l :=
          Finset.sum_congr rfl fun l hl => by rw [hxs l (Finset.mem_range.mp hl)]
        show ∑ l ∈ Finset.range p, coord row l * coord zs l
          + diagonal unitDiagonal (coord row p) * coord zs p = coord (fin b :: ys) 0
        rw [hsum, hxp, hx₀, coord_cons_zero]
        ring
      | succ i =>
        have := hnew i (by simpa using hi)
        rwa [show p + 1 + i = p + (i + 1) by omega] at this

/-- **A lower triangular system.** -/
theorem substituteDown_spec {m : Nat} (unitDiagonal : Bool) {rows : List (List (Extended K))}
    {ys : List (Extended K)} (hr : Square m rows) (hy : Numbers m ys)
    (hd : ∀ i < m, diagonal unitDiagonal (cell rows i i) ≠ 0) :
    Numbers m (substituteDown unitDiagonal rows ys)
      ∧ ∀ i < m, ∑ l ∈ Finset.range i, cell rows i l * coord (substituteDown unitDiagonal rows ys) l
          + diagonal unitDiagonal (cell rows i i) * coord (substituteDown unitDiagonal rows ys) i
          = coord ys i := by
  obtain ⟨zs, hfold, hz, -, hnew⟩ :=
    substituteDown_from (m := m) unitDiagonal rows ys [] Numbers.nil (hr.length ▸ hy)
      (by rw [hr.length]; omega) hr.numbers
    (fun i hi => by
      rw [Nat.zero_add]
      exact hd i (hr.length ▸ hi))
  rw [substituteDown, hfold]
  rw [hr.length, Nat.zero_add] at hz
  refine ⟨hz, fun i hi => ?_⟩
  have := hnew i (hr.length.symm ▸ hi)
  rwa [Nat.zero_add] at this

/-- Substitution from the last unknown on, for the last rows of a square: row `i` of them has its
    diagonal place at `p + i`. -/
theorem substituteUp_from {m : Nat} (unitDiagonal : Bool) :
    ∀ (rows : List (List (Extended K))) (ys : List (Extended K)) (p : Nat),
      Numbers rows.length ys → p + rows.length = m →
      (∀ row ∈ rows, Numbers m row) →
      (∀ i < rows.length, diagonal unitDiagonal (cell rows i (p + i)) ≠ 0) →
      ∃ xs, ((rows.zip ys).zipIdx p).foldr (fun ((row, y), i) xs =>
          settle unitDiagonal (row.getD i 0) (y - Scalar.dot (row.drop (i + 1)) xs) :: xs) [] = xs
        ∧ Numbers rows.length xs
        ∧ ∀ i < rows.length, diagonal unitDiagonal (cell rows i (p + i)) * coord xs i
            + ∑ l ∈ Finset.range (rows.length - (i + 1)),
                cell rows i (p + (i + 1 + l)) * coord xs (i + 1 + l) = coord ys i := by
  -- over the rows, since the rows below are solved before this one
  intro rows
  induction rows with
  | nil => intro ys p _ _ _ _; exact ⟨[], rfl, Numbers.nil, by simp⟩
  | cons row rows ih =>
    intro ys p hy hm hrows hd
    rw [List.length_cons] at hy hm
    obtain ⟨y, ys, rfl⟩ := List.exists_cons_of_length_pos (l := ys) (by rw [hy.length]; omega)
    obtain ⟨b, rfl⟩ := isFinite_iff.mp (hy.finite y List.mem_cons_self)
    have hys : Numbers rows.length ys :=
      ⟨by simpa using hy.length, fun x hx => hy.finite x (List.mem_cons_of_mem _ hx)⟩
    have hrow : Numbers m row := hrows row List.mem_cons_self
    obtain ⟨xs, hfold, hx, hold⟩ := ih ys (p + 1) hys (by omega)
      (fun r hr => hrows r (List.mem_cons_of_mem _ hr))
      (fun i hi => by
        have := hd (i + 1) (by simpa using hi)
        rwa [show p + (i + 1) = p + 1 + i by omega] at this)
    have hdot : Scalar.dot (row.drop (p + 1)) xs
        = fin (∑ l ∈ Finset.range rows.length, coord row (p + (1 + l)) * coord xs l) := by
      rw [(hrow.drop (p + 1)).dot_eq hx, Nat.min_eq_right (by omega)]
      congr 1
      refine Finset.sum_congr rfl fun l _ => ?_
      rw [coord_drop, Nat.add_assoc]
    have hd₀ : diagonal unitDiagonal (coord row p) ≠ 0 := hd 0 (by simp)
    obtain ⟨x, hset, hx₀⟩ := settle_fin
      (r := b - ∑ l ∈ Finset.range rows.length, coord row (p + (1 + l)) * coord xs l) hd₀
    have hstep : settle unitDiagonal (row.getD p 0) (fin b - Scalar.dot (row.drop (p + 1)) xs)
        = fin x := by
      rw [hrow.getD (by omega), hdot, fin_sub, hset]
    refine ⟨fin x :: xs, ?_, ?_, fun i hi => ?_⟩
    · rw [List.zip_cons_cons, List.zipIdx_cons, List.foldr_cons, hfold]
      dsimp only
      rw [hstep]
    · rw [List.length_cons, Nat.add_comm]
      exact (Numbers.singleton x).append hx
    · cases i with
      | zero =>
        have hsum : ∑ l ∈ Finset.range rows.length, coord row (p + (0 + 1 + l))
              * coord (fin x :: xs) (0 + 1 + l)
            = ∑ l ∈ Finset.range rows.length, coord row (p + (1 + l)) * coord xs l :=
          Finset.sum_congr rfl fun l _ => by
            rw [Nat.zero_add, Nat.add_comm 1 l, coord_cons_succ]
        show diagonal unitDiagonal (coord row p) * coord (fin x :: xs) 0
          + ∑ l ∈ Finset.range rows.length, coord row (p + (0 + 1 + l))
              * coord (fin x :: xs) (0 + 1 + l) = coord (fin b :: ys) 0
        rw [hsum, coord_cons_zero, hx₀, coord_cons_zero]
        ring
      | succ i =>
        have hi : i < rows.length := by simpa using hi
        have hsum : ∑ l ∈ Finset.range (rows.length - (i + 1)),
              cell rows i (p + (i + 1 + 1 + l)) * coord (fin x :: xs) (i + 1 + 1 + l)
            = ∑ l ∈ Finset.range (rows.length - (i + 1)),
              cell rows i (p + 1 + (i + 1 + l)) * coord xs (i + 1 + l) :=
          Finset.sum_congr rfl fun l _ => by
            rw [show i + 1 + 1 + l = i + 1 + l + 1 by omega, coord_cons_succ,
              show p + (i + 1 + l + 1) = p + 1 + (i + 1 + l) by omega]
        show diagonal unitDiagonal (cell rows i (p + (i + 1))) * coord (fin x :: xs) (i + 1)
          + ∑ l ∈ Finset.range (rows.length + 1 - (i + 1 + 1)),
              cell rows i (p + (i + 1 + 1 + l)) * coord (fin x :: xs) (i + 1 + 1 + l)
          = coord (fin b :: ys) (i + 1)
        rw [Nat.add_sub_add_right, hsum, coord_cons_succ, coord_cons_succ,
          show p + (i + 1) = p + 1 + i by omega, hold i hi]

/-- **An upper triangular system.** -/
theorem substituteUp_spec {m : Nat} (unitDiagonal : Bool) {rows : List (List (Extended K))}
    {ys : List (Extended K)} (hr : Square m rows) (hy : Numbers m ys)
    (hd : ∀ i < m, diagonal unitDiagonal (cell rows i i) ≠ 0) :
    Numbers m (substituteUp unitDiagonal rows ys)
      ∧ ∀ i < m, diagonal unitDiagonal (cell rows i i) * coord (substituteUp unitDiagonal rows ys) i
          + ∑ l ∈ Finset.range (m - (i + 1)),
              cell rows i (i + 1 + l) * coord (substituteUp unitDiagonal rows ys) (i + 1 + l)
          = coord ys i := by
  obtain ⟨xs, hfold, hx, hnew⟩ :=
    substituteUp_from (m := m) unitDiagonal rows ys 0 (hr.length ▸ hy)
      (by rw [hr.length]; omega) hr.numbers
    (fun i hi => by
      rw [Nat.zero_add]
      exact hd i (hr.length ▸ hi))
  rw [substituteUp, hfold]
  rw [hr.length] at hx
  refine ⟨hx, fun i hi => ?_⟩
  have := hnew i (hr.length.symm ▸ hi)
  simpa only [Nat.zero_add, hr.length] using this

/-! ## §2.  The triangular systems as full ones -/

/-- A sum over a row of a lower triangle. -/
theorem sum_lower {m i : Nat} (hi : i < m) (rows : List (List (Extended K))) (z : Nat → K) :
    ∑ l ∈ Finset.range m, lower rows i l * z l
      = ∑ l ∈ Finset.range i, cell rows i l * z l + z i := by
  have hsub : Finset.range (i + 1) ⊆ Finset.range m := Finset.range_subset_range.mpr hi
  rw [← Finset.sum_subset hsub, Finset.sum_range_succ]
  · congr 1
    · refine Finset.sum_congr rfl fun l hl => ?_
      rw [lower, if_pos (Finset.mem_range.mp hl)]
    · rw [lower, if_neg (lt_irrefl i), if_pos rfl, one_mul]
  · intro l _ hl
    have hl : ¬l < i + 1 := fun h => hl (Finset.mem_range.mpr h)
    rw [lower, if_neg (by omega), if_neg (by omega), zero_mul]

/-- A sum over a row of an upper triangle. -/
theorem sum_upper {m i : Nat} (hi : i < m) (rows : List (List (Extended K))) (z : Nat → K) :
    ∑ j ∈ Finset.range m, upper rows i j * z j
      = cell rows i i * z i
        + ∑ l ∈ Finset.range (m - (i + 1)), cell rows i (i + 1 + l) * z (i + 1 + l) := by
  have hz : ∑ j ∈ Finset.range i, upper rows i j * z j = 0 :=
    Finset.sum_eq_zero fun j hj => by
      have hj := Finset.mem_range.mp hj
      rw [upper, if_neg (by omega), zero_mul]
  have hsplit :=
    Finset.sum_range_add_sum_Ico (fun j => upper rows i j * z j) (show i + 1 ≤ m from hi)
  rw [← hsplit, Finset.sum_range_succ, hz, zero_add, upper, if_pos (le_refl i),
    Finset.sum_Ico_eq_sum_range]
  congr 1
  refine Finset.sum_congr rfl fun l _ => ?_
  rw [upper, if_pos (by omega)]

/-- A sum over a column of an upper triangle. -/
theorem sum_upper_column {m i : Nat} (hi : i < m) (rows : List (List (Extended K))) (z : Nat → K) :
    ∑ l ∈ Finset.range m, upper rows l i * z l
      = ∑ l ∈ Finset.range i, cell rows l i * z l + cell rows i i * z i := by
  have hsub : Finset.range (i + 1) ⊆ Finset.range m := Finset.range_subset_range.mpr hi
  rw [← Finset.sum_subset hsub, Finset.sum_range_succ]
  · congr 1
    · refine Finset.sum_congr rfl fun l hl => ?_
      have hl := Finset.mem_range.mp hl
      rw [upper, if_pos (by omega)]
    · rw [upper, if_pos (le_refl i)]
  · intro l _ hl
    have hl : ¬l < i + 1 := fun h => hl (Finset.mem_range.mpr h)
    rw [upper, if_neg (by omega), zero_mul]

/-- A sum over a column of a lower triangle. -/
theorem sum_lower_column {m i : Nat} (hi : i < m) (rows : List (List (Extended K))) (z : Nat → K) :
    ∑ j ∈ Finset.range m, lower rows j i * z j
      = z i + ∑ l ∈ Finset.range (m - (i + 1)), cell rows (i + 1 + l) i * z (i + 1 + l) := by
  have hz : ∑ j ∈ Finset.range i, lower rows j i * z j = 0 :=
    Finset.sum_eq_zero fun j hj => by
      have hj := Finset.mem_range.mp hj
      rw [lower, if_neg (by omega), if_neg (by omega), zero_mul]
  have hsplit :=
    Finset.sum_range_add_sum_Ico (fun j => lower rows j i * z j) (show i + 1 ≤ m from hi)
  rw [← hsplit, Finset.sum_range_succ, hz, zero_add, lower, if_neg (lt_irrefl i),
    if_pos rfl, one_mul, Finset.sum_Ico_eq_sum_range]
  congr 1
  refine Finset.sum_congr rfl fun l _ => ?_
  rw [lower, if_pos (by omega)]

/-! ## §3.  The order of the rows -/

section Order

variable {order : List Nat} {m : Nat}

/-- The order names rows of the square. -/
theorem order_lt (h : order.Perm (List.range m)) {i : Nat} (hi : i < m) : order.getD i 0 < m := by
  have hl : i < order.length := by rw [h.length_eq, List.length_range]; exact hi
  rw [List.getD_eq_getElem?_getD, List.getElem?_eq_getElem hl]
  exact List.mem_range.mp (h.mem_iff.mp (List.getElem_mem hl))

/-- Every row has its place in the order. -/
theorem exists_order (h : order.Perm (List.range m)) {r : Nat} (hr : r < m) :
    ∃ i < m, order.getD i 0 = r := by
  obtain ⟨i, hi, he⟩ := List.mem_iff_getElem.mp (h.mem_iff.mpr (List.mem_range.mpr hr))
  refine ⟨i, by simpa [h.length_eq] using hi, ?_⟩
  rw [List.getD_eq_getElem?_getD, List.getElem?_eq_getElem hi, Option.getD_some, he]

omit [LinearOrder K] in
/-- A sum over the rows is a sum over their places. -/
theorem sum_order (h : order.Perm (List.range m)) (g : Nat → K) :
    ∑ i ∈ Finset.range m, g (order.getD i 0) = ∑ r ∈ Finset.range m, g r := by
  have hl : order.length = m := by rw [h.length_eq, List.length_range]
  have hlist : order = (List.range m).map fun i => order.getD i 0 := by
    apply List.ext_getElem (by simp [hl])
    intro i hi _
    simp [List.getD_eq_getElem?_getD, hi]
  rw [← sum_map_range, ← sum_map_range, ← (h.map g).sum_eq]
  conv_rhs => rw [hlist, List.map_map]
  rfl

/-- Writing the entries of one list to the positions that another one names. -/
theorem numbers_foldl_set :
    ∀ (order : List Nat) (ys xs : List (Extended K)), order.Nodup → (∀ r ∈ order, r < m) →
      Numbers order.length ys → Numbers m xs →
      Numbers m ((order.zip ys).foldl (fun xs (i, y) => xs.set i y) xs)
        ∧ (∀ r, r ∉ order →
            coord ((order.zip ys).foldl (fun xs (i, y) => xs.set i y) xs) r = coord xs r)
        ∧ ∀ i < order.length,
            coord ((order.zip ys).foldl (fun xs (i, y) => xs.set i y) xs) (order.getD i 0)
              = coord ys i := by
  intro order
  induction order with
  | nil => exact fun ys xs _ _ _ hx => ⟨hx, fun _ _ => rfl, by simp⟩
  | cons r order ih =>
    intro ys xs hnd hlt hy hx
    obtain ⟨hr, hnd⟩ := List.nodup_cons.mp hnd
    rw [List.length_cons] at hy
    obtain ⟨y, ys, rfl⟩ := List.exists_cons_of_length_pos (l := ys) (by rw [hy.length]; omega)
    obtain ⟨b, rfl⟩ := isFinite_iff.mp (hy.finite y List.mem_cons_self)
    have hys : Numbers order.length ys :=
      ⟨by simpa using hy.length, fun x hx => hy.finite x (List.mem_cons_of_mem _ hx)⟩
    have hrm : r < xs.length := hx.length.symm ▸ hlt r List.mem_cons_self
    obtain ⟨hn, hout, hin⟩ := ih ys (xs.set r (fin b)) hnd
      (fun q hq => hlt q (List.mem_cons_of_mem _ hq)) hys (hx.set r b)
    rw [List.zip_cons_cons, List.foldl_cons]
    -- later writes go to other places, as the order has no repetitions
    refine ⟨hn, fun q hq => ?_, fun i hi => ?_⟩
    · have hqr : q ≠ r := fun e => hq (e ▸ List.mem_cons_self)
      rw [hout q fun hm => hq (List.mem_cons_of_mem _ hm), coord_set hrm, if_neg hqr]
    · cases i with
      | zero =>
        show coord _ r = _
        rw [hout r hr, coord_set hrm, if_pos rfl, coord_cons_zero]
      | succ i =>
        rw [List.getD_cons_succ, coord_cons_succ]
        exact hin i (by simpa using hi)

/-- Scattering undoes the order. -/
theorem scatter_spec (h : order.Perm (List.range m)) {ys : List (Extended K)} (hy : Numbers m ys) :
    Numbers m (scatter order ys)
      ∧ ∀ i < m, coord (scatter order ys) (order.getD i 0) = coord ys i := by
  have hl : order.length = m := by rw [h.length_eq, List.length_range]
  obtain ⟨hn, -, hin⟩ := numbers_foldl_set order ys (Scalar.zeros order.length)
    (h.nodup_iff.mpr List.nodup_range) (fun r hr => List.mem_range.mp (h.mem_iff.mp hr))
    (hl.symm ▸ hy) (hl ▸ Numbers.zeros m)
  exact ⟨hn, fun i hi => hin i (hl.symm ▸ hi)⟩

end Order

/-! ## §4.  Systems with a factored basis -/

section Solve

variable {B : Nat → Nat → K} {m : Nat} {f : TriangularFactors (Extended K)}

/-- The product of the factors, row by row. -/
theorem Reduced.product_eq (h : Factored B m f) {i j : Nat} (hi : i < m) (hj : j < m) :
    B (f.order.getD i 0) j
      = ∑ l ∈ Finset.range m, lower f.packed i l * upper f.packed l j := by
  rw [h.product i hi j hj, if_neg (by omega), add_zero]

/-- **Solving `B x = y` with the factors of `B`.** -/
theorem solveColumn_spec (h : Factored B m f) {y : List (Extended K)} (hy : Numbers m y) :
    Numbers m (f.solveColumn y)
      ∧ ∀ r < m, ∑ j ∈ Finset.range m, B r j * coord (f.solveColumn y) j = coord y r := by
  have hmap (i : Nat) (hi : i < m) :
      (f.order.map fun i => y.getD i 0)[i]? = some (fin (coord y (f.order.getD i 0))) := by
    have hl : i < f.order.length := by rw [h.order.length_eq, List.length_range]; exact hi
    have hget : f.order.getD i 0 = f.order[i] := by
      rw [List.getD_eq_getElem?_getD, List.getElem?_eq_getElem hl, Option.getD_some]
    have hlt := order_lt h.order hi
    rw [List.getElem?_map, List.getElem?_eq_getElem hl, Option.map_some, ← hget, hy.getD hlt]
  have hy' : Numbers m (f.order.map fun i => y.getD i 0) :=
    Numbers.of_getElem? (by simp [h.order.length_eq]) fun i hi => ⟨_, hmap i hi⟩
  obtain ⟨hz, hlow⟩ := substituteDown_spec true h.square hy'
    (fun _ _ => one_ne_zero)
  obtain ⟨hx, hup⟩ := substituteUp_spec false h.square hz h.pivots
  show Numbers m (substituteUp false f.packed (substituteDown true f.packed _)) ∧ _
  refine ⟨hx, fun r hr => ?_⟩
  obtain ⟨i, hi, rfl⟩ := exists_order h.order hr
  -- `z` is what the pass through `L` found, and the pass through `U` goes on from there
  generalize hzdef : substituteDown true f.packed (f.order.map fun i => y.getD i 0) = z at *
  have hxdef : f.solveColumn y = substituteUp false f.packed z := by rw [← hzdef]; rfl
  rw [hxdef]
  generalize substituteUp false f.packed z = x at *
  calc ∑ j ∈ Finset.range m, B (f.order.getD i 0) j * coord x j
      = ∑ j ∈ Finset.range m, ∑ l ∈ Finset.range m,
          lower f.packed i l * (upper f.packed l j * coord x j) := by
        refine Finset.sum_congr rfl fun j hj => ?_
        rw [h.product_eq hi (Finset.mem_range.mp hj), Finset.sum_mul]
        exact Finset.sum_congr rfl fun l _ => mul_assoc _ _ _
    _ = ∑ l ∈ Finset.range m, lower f.packed i l * coord z l := by
        rw [Finset.sum_comm]
        refine Finset.sum_congr rfl fun l hl => ?_
        have hl := Finset.mem_range.mp hl
        rw [← Finset.mul_sum, sum_upper hl, ← hup l hl]
        rfl
    _ = coord y (f.order.getD i 0) := by
        rw [sum_lower hi, ← coord_of_getElem? (hmap i hi), ← hlow i hi]
        congr 1
        exact (one_mul _).symm

/-- **Solving `x B = y` with the factors of `B`.** -/
theorem solveRow_spec (h : Factored B m f) {y : List (Extended K)} (hy : Numbers m y) :
    Numbers m (f.solveRow y)
      ∧ ∀ j < m, ∑ r ∈ Finset.range m, coord (f.solveRow y) r * B r j = coord y j := by
  obtain ⟨hsq, hcell⟩ := square_flip h.square
  obtain ⟨hz, hlow⟩ := substituteDown_spec false hsq hy
    (fun i hi => by
      rw [hcell i hi i hi]
      exact h.pivots i hi)
  obtain ⟨hw, hup⟩ := substituteUp_spec true hsq hz (fun _ _ => one_ne_zero)
  obtain ⟨hx, hplace⟩ := scatter_spec h.order hw
  have hdef : f.solveRow y
      = scatter f.order (substituteUp true (flip m f.packed)
          (substituteDown false (flip m f.packed) y)) := by
    rw [solveRow, size, h.square.length]
  rw [hdef]
  -- `z` is what the pass through `U` found, and the one through `L` goes on from there
  generalize substituteDown false (flip m f.packed) y = z at *
  generalize substituteUp true (flip m f.packed) z = w at *
  refine ⟨hx, fun j hj => ?_⟩
  calc ∑ r ∈ Finset.range m, coord (scatter f.order w) r * B r j
      = ∑ i ∈ Finset.range m, coord w i * B (f.order.getD i 0) j := by
        rw [← sum_order h.order fun r => coord (scatter f.order w) r * B r j]
        exact Finset.sum_congr rfl fun i hi => by rw [hplace i (Finset.mem_range.mp hi)]
    _ = ∑ i ∈ Finset.range m, ∑ l ∈ Finset.range m,
          upper f.packed l j * (lower f.packed i l * coord w i) := by
        refine Finset.sum_congr rfl fun i hi => ?_
        rw [h.product_eq (Finset.mem_range.mp hi) hj, Finset.mul_sum]
        exact Finset.sum_congr rfl fun l _ => by ring
    _ = ∑ l ∈ Finset.range m, upper f.packed l j * coord z l := by
        rw [Finset.sum_comm]
        refine Finset.sum_congr rfl fun l hl => ?_
        have hl := Finset.mem_range.mp hl
        rw [← Finset.mul_sum, sum_lower_column hl, ← hup l hl]
        congr 2
        · exact (one_mul _).symm
        · refine Finset.sum_congr rfl fun k hk => ?_
          have hk := Finset.mem_range.mp hk
          rw [hcell l hl _ (by omega)]
    _ = coord y j := by
        rw [sum_upper_column hj, ← hlow j hj]
        congr 1
        · refine Finset.sum_congr rfl fun l hl => ?_
          have hl := Finset.mem_range.mp hl
          rw [hcell j hj l (by omega)]
        · rw [hcell j hj j hj]
          rfl

end Solve

end BoundedSimplex.TriangularFactors
