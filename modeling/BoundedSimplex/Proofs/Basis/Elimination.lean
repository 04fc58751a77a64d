/-
  BoundedSimplex.Proofs.Basis.Elimination — elimination with row exchanges finds triangular factors.

  After `k` steps the places on and below the first `k` diagonal ones hold columns of `L` and rows
  of `U`, and the rest of the square holds what is left of the matrix once their product is
  subtracted.  A step brings a row up, which renames the rows on both sides, and moves one more
  column and row from the rest into the factors.

  Main results:
    * `Reduced.eliminate` — one step keeps the invariant and advances it;
    * `factored_of_ofRows` — the run: the factors of a square multiply to it, up to
      the order of rows;
    * `factored_of_ofColumns` — the same for a basis given by its columns.
-/
import BoundedSimplex.Basis.TriangularFactors
import BoundedSimplex.Proofs.Checked
import BoundedSimplex.Proofs.Numbers
import Mathlib.Data.List.Perm.Basic
import Mathlib.Tactic.FieldSimp
import Mathlib.Tactic.Ring

namespace BoundedSimplex

open Extended

variable {K : Type} [Field K] [LinearOrder K]

/-! ## §1.  Squares of finite numbers -/

/-- The number in row `i` and column `j`, as an element of the field. -/
def cell (rows : List (List (Extended K))) (i j : Nat) : K := coord (rows.getD i []) j

/-- `m` rows of `m` finite numbers. -/
structure Square (m : Nat) (rows : List (List (Extended K))) : Prop where
  length : rows.length = m
  numbers : ∀ row ∈ rows, Numbers m row

namespace Square

variable {m : Nat} {rows : List (List (Extended K))}

/-- A row of the square, with its entries. -/
theorem row (h : Square m rows) {i : Nat} (hi : i < m) :
    ∃ row, rows[i]? = some row ∧ Numbers m row ∧ ∀ j, cell rows i j = coord row j := by
  have hi' : i < rows.length := h.length ▸ hi
  refine ⟨rows[i], List.getElem?_eq_getElem hi', h.numbers _ (List.getElem_mem hi'), fun j => ?_⟩
  rw [cell, List.getD_eq_getElem?_getD, List.getElem?_eq_getElem hi', Option.getD_some]

/-- Reading an entry of the square. -/
theorem at2_eq (h : Square m rows) {i j : Nat} (hi : i < m) (hj : j < m) :
    TriangularFactors.at2 rows i j = fin (cell rows i j) := by
  obtain ⟨row, hr, hn, hc⟩ := h.row hi
  rw [TriangularFactors.at2, List.getD_eq_getElem?_getD (l := rows), hr, Option.getD_some,
    hn.getD hj, hc]

/-- A list of rows that are described one by one. -/
theorem of_getElem? (hl : rows.length = m)
    (h : ∀ i < m, ∃ row, rows[i]? = some row ∧ Numbers m row) : Square m rows := by
  refine ⟨hl, fun row hr => ?_⟩
  obtain ⟨i, hi, rfl⟩ := List.mem_iff_getElem.mp hr
  obtain ⟨row, he, hn⟩ := h i (hl ▸ hi)
  rw [List.getElem?_eq_getElem hi] at he
  rw [Option.some.inj he]
  exact hn

end Square

/-- The entries of a row that is known. -/
theorem cell_of_getElem? {rows : List (List (Extended K))} {i : Nat} {row : List (Extended K)}
    (h : rows[i]? = some row) (j : Nat) : cell rows i j = coord row j := by
  rw [cell, List.getD_eq_getElem?_getD, h, Option.getD_some]

namespace TriangularFactors

/-- The square given by columns, and back. -/
theorem square_flip {m : Nat} {rows : List (List (Extended K))} (h : Square m rows) :
    Square m (flip m rows) ∧ ∀ i < m, ∀ j < m, cell (flip m rows) i j = cell rows j i := by
  have hrow (i : Nat) (hi : i < m) :
      (flip m rows)[i]? = some (rows.map fun row => row.getD i 0) := by
    simp [flip, hi]
  have hentry (i : Nat) (hi : i < m) (j : Nat) (hj : j < m) :
      (rows.map fun row => row.getD i 0)[j]? = some (fin (cell rows j i)) := by
    obtain ⟨row, hr, hn, hc⟩ := h.row hj
    rw [List.getElem?_map, hr, Option.map_some, hn.getD hi, hc]
  refine ⟨Square.of_getElem? (by simp [flip]) fun i hi => ⟨_, hrow i hi, ?_⟩, fun i hi j hj => ?_⟩
  · exact Numbers.of_getElem? (by rw [List.length_map, h.length]) fun j hj => ⟨_, hentry i hi j hj⟩
  · rw [cell_of_getElem? (hrow i hi), coord_of_getElem? (hentry i hi j hj)]

/-! ## §2.  Exchanging two rows -/

section Exchange

variable {β : Type} {xs : List β} {i j : Nat}

/-- An exchange of two places that exist. -/
theorem exchange_eq (hi : i < xs.length) (hj : j < xs.length) :
    exchange xs i j = (xs.set i xs[j]).set j xs[i] := by
  simp [exchange, hi, hj]

theorem length_exchange (xs : List β) (i j : Nat) : (exchange xs i j).length = xs.length := by
  unfold exchange
  split <;> simp

/-- What stands at a position after an exchange stood at the exchanged position before. -/
theorem getElem?_exchange (hi : i < xs.length) (hj : j < xs.length) (k : Nat) :
    (exchange xs i j)[k]? = xs[Equiv.swap i j k]? := by
  rw [exchange_eq hi hj, List.getElem?_set, List.getElem?_set, List.length_set]
  by_cases hkj : j = k
  · subst hkj
    rw [if_pos rfl, if_pos hj, Equiv.swap_apply_right, List.getElem?_eq_getElem hi]
  · rw [if_neg hkj]
    by_cases hki : i = k
    · subst hki
      rw [if_pos rfl, if_pos hi, Equiv.swap_apply_left, List.getElem?_eq_getElem hj]
    · rw [if_neg hki, Equiv.swap_apply_of_ne_of_ne (Ne.symm hki) (Ne.symm hkj)]

/-- An exchange reorders the list. -/
theorem exchange_perm (hi : i < xs.length) (hj : j < xs.length) : (exchange xs i j).Perm xs := by
  rw [exchange_eq hi hj]
  exact List.set_set_perm hi hj

end Exchange

/-- Exchanging two rows renames the rows of the entries. -/
theorem cell_exchange {rows : List (List (Extended K))} {i j : Nat} (hi : i < rows.length)
    (hj : j < rows.length) (k l : Nat) :
    cell (exchange rows i j) k l = cell rows (Equiv.swap i j k) l := by
  rw [cell, cell, List.getD_eq_getElem?_getD, getElem?_exchange hi hj,
    ← List.getD_eq_getElem?_getD]

/-- The square stays a square. -/
theorem square_exchange {m i j : Nat} {rows : List (List (Extended K))} (h : Square m rows)
    (hi : i < m) (hj : j < m) : Square m (exchange rows i j) where
  length := by rw [length_exchange, h.length]
  numbers := fun row hr =>
    h.numbers row ((exchange_perm (h.length ▸ hi) (h.length ▸ hj)).mem_iff.mp hr)

/-! ## §3.  The pivot and the clearing of a column -/

/-- The better one of two candidates is one of them, and no smaller than either. -/
theorem betterPivot_spec {k : Nat} {rows : List (List (Extended K))}
    {best : Nat × Extended K} {i : Nat} (hb : best.2 = fin |cell rows best.1 k|) :
    let next := betterPivot best (i, fin |cell rows i k|)
    (next = best ∨ next.1 = i) ∧ next.2 = fin |cell rows next.1 k|
      ∧ |cell rows best.1 k| ≤ |cell rows next.1 k| ∧ |cell rows i k| ≤ |cell rows next.1 k| := by
  unfold betterPivot
  dsimp only
  rw [hb]
  split
  case isTrue hlt =>
    rw [gt_iff_lt, fin_lt_fin] at hlt
    exact ⟨.inl rfl, hb, le_refl _, hlt.le⟩
  case isFalse hle =>
    rw [gt_iff_lt, fin_lt_fin, not_lt] at hle
    exact ⟨.inr rfl, rfl, hle, le_refl _⟩

/-- **The chosen row** is at or below the diagonal, the magnitude is that of its entry, and no entry
    at or below the diagonal is larger. -/
theorem choosePivot_spec {m k : Nat} {rows : List (List (Extended K))} (h : Square m rows)
    (hk : k < m) :
    k ≤ (choosePivot rows k).1 ∧ (choosePivot rows k).1 < m
      ∧ (choosePivot rows k).2 = fin |cell rows (choosePivot rows k).1 k|
      ∧ ∀ i < m, k ≤ i → |cell rows i k| ≤ |cell rows (choosePivot rows k).1 k| := by
  have hw (i : Nat) (hi : i < m) :
      Scalar.magnitude (at2 rows i k) = fin |cell rows i k| := by
    rw [h.at2_eq hi hk, magnitude_fin]
  -- every row that is looked at is a candidate, and the best one so far beats the ones before it
  have hfold : ∀ (is : List Nat) (best : Nat × Extended K),
      (∀ i ∈ is, k ≤ i ∧ i < m) →
      k ≤ best.1 ∧ best.1 < m ∧ best.2 = fin |cell rows best.1 k| →
      let r := is.foldl (fun b i => betterPivot b (i, Scalar.magnitude (at2 rows i k))) best
      (k ≤ r.1 ∧ r.1 < m ∧ r.2 = fin |cell rows r.1 k|)
        ∧ ∀ i ∈ best.1 :: is, |cell rows i k| ≤ |cell rows r.1 k| := by
    intro is
    induction is with
    | nil =>
      intro best _ hb
      refine ⟨hb, fun i hi => ?_⟩
      rw [List.mem_singleton.mp hi]
      exact le_refl _
    | cons i is ih =>
      intro best his hb
      obtain ⟨hki, him⟩ := his i List.mem_cons_self
      obtain ⟨hone, hsize, hbest, hi⟩ := betterPivot_spec (i := i) hb.2.2
      rw [List.foldl_cons, hw i him]
      set next := betterPivot best (i, fin |cell rows i k|)
      have hnext : k ≤ next.1 ∧ next.1 < m := by
        rcases hone with hsame | hnew
        · rw [hsame]
          exact ⟨hb.1, hb.2.1⟩
        · rw [hnew]
          exact ⟨hki, him⟩
      obtain ⟨hlast, hall⟩ := ih next (fun l hl => his l (List.mem_cons_of_mem _ hl))
        ⟨hnext.1, hnext.2, hsize⟩
      refine ⟨hlast, fun l hl => ?_⟩
      rcases List.mem_cons.mp hl with rfl | hl
      · exact hbest.trans (hall _ List.mem_cons_self)
      · rcases List.mem_cons.mp hl with rfl | hl
        · exact hi.trans (hall _ List.mem_cons_self)
        · exact hall l (List.mem_cons_of_mem _ hl)
  have hbelow (i : Nat) : i ∈ List.range' (k + 1) (rows.length - (k + 1)) ↔ k + 1 ≤ i ∧ i < m := by
    rw [h.length, List.mem_range'_1]
    omega
  obtain ⟨⟨hkr, hr, hsize⟩, hall⟩ := hfold (List.range' (k + 1) (rows.length - (k + 1)))
    (k, Scalar.magnitude (at2 rows k k)) (fun i hi => ⟨by have := (hbelow i).mp hi; omega,
      ((hbelow i).mp hi).2⟩) ⟨le_refl k, hk, hw k hk⟩
  refine ⟨hkr, hr, hsize, fun i hi hki => hall i ?_⟩
  rw [List.mem_cons, hbelow]
  show i = k ∨ _
  omega

/-- The factor by which the pivot row is subtracted from row `i`. -/
def multiplier (rows : List (List (Extended K))) (k i : Nat) : K := cell rows i k / cell rows k k

/-- The square after column `k` was cleared: the rows below keep their places in front of the
    column, hold the factor in it and the difference behind it. -/
def clearedCell (rows : List (List (Extended K))) (k i j : Nat) : K :=
  if i ≤ k ∨ j < k then cell rows i j
  else if j = k then multiplier rows k i
  else cell rows i j - multiplier rows k i * cell rows k j

/-- An entry of a row below the diagonal after it was reduced: the factor, or a difference. -/
theorem reduceRow_getElem? {m k i j : Nat} {rows : List (List (Extended K))} (h : Square m rows)
    (hki : k < i) (hi : i < m) (hj : j < m) (hp : cell rows k k ≠ 0) :
    (reduceRow k (rows.getD k []) (rows.getD i []))[j]? = some (fin (clearedCell rows k i j)) := by
  have hk : k < m := by omega
  obtain ⟨row, hr, hn, hc⟩ := h.row hi
  obtain ⟨pivotRow, hpr, hpn, hpc⟩ := h.row hk
  -- the factor is kept in the place of the entry that it clears
  have hfactor : (row.getD k 0 / pivotRow.getD k 0 : Extended K) = fin (multiplier rows k i) := by
    rw [hn.getD hk, hpn.getD hk, ← hc, ← hpc, fin_div _ hp, multiplier]
  rw [List.getD_eq_getElem?_getD, hpr, List.getD_eq_getElem?_getD, hr, Option.getD_some,
    Option.getD_some]
  unfold reduceRow clearedCell
  rw [hfactor, List.getElem?_mapIdx, hn.getElem? hj, Option.map_some, ← hc, hpn.getD hj, ← hpc]
  congr 1
  by_cases hjk : j < k
  · rw [if_pos hjk, if_pos (.inr hjk)]
  · have hfront : ¬(i ≤ k ∨ j < k) := by omega
    rw [if_neg hjk, if_neg hfront]
    by_cases hjk' : j = k
    · rw [if_pos hjk', if_pos hjk']
    · rw [if_neg hjk', if_neg hjk', zero_eq, fin_beq]
      by_cases hz : multiplier rows k i = 0
      · simp [hz]
      · simp [hz]

/-- Clearing a column leaves a square with the entries of `clearedCell`. -/
theorem clearColumn_spec {m k : Nat} {rows : List (List (Extended K))} (h : Square m rows)
    (hp : cell rows k k ≠ 0) :
    Square m (clearColumn k rows)
      ∧ ∀ i < m, ∀ j < m, cell (clearColumn k rows) i j = clearedCell rows k i j := by
  have hrow (i : Nat) (hi : i < m) : (clearColumn k rows)[i]?
      = some (if i ≤ k then rows.getD i [] else reduceRow k (rows.getD k []) (rows.getD i [])) := by
    obtain ⟨row, hr, -, -⟩ := h.row hi
    rw [clearColumn, List.getElem?_mapIdx, List.getD_eq_getElem?_getD (i := i), hr]
    rfl
  have hentry (i : Nat) (hi : i < m) (j : Nat) (hj : j < m) :
      (if i ≤ k then rows.getD i [] else reduceRow k (rows.getD k []) (rows.getD i []))[j]?
        = some (fin (clearedCell rows k i j)) := by
    by_cases hik : i ≤ k
    · obtain ⟨row, hr, hn, hc⟩ := h.row hi
      rw [if_pos hik, List.getD_eq_getElem?_getD, hr, Option.getD_some, hn.getElem? hj, ← hc,
        clearedCell, if_pos (.inl hik)]
    · rw [if_neg hik]
      exact reduceRow_getElem? h (by omega) hi hj hp
  have hlen (i : Nat) (hi : i < m) :
      (if i ≤ k then rows.getD i []
        else reduceRow k (rows.getD k []) (rows.getD i [])).length = m := by
    obtain ⟨row, hr, hn, -⟩ := h.row hi
    rw [List.getD_eq_getElem?_getD (i := i), hr, Option.getD_some]
    split
    · exact hn.length
    · rw [reduceRow, List.length_mapIdx, hn.length]
  refine ⟨Square.of_getElem? (by rw [clearColumn, List.length_mapIdx, h.length]) fun i hi =>
    ⟨_, hrow i hi, Numbers.of_getElem? (hlen i hi) fun j hj => ⟨_, hentry i hi j hj⟩⟩,
    fun i hi j hj => ?_⟩
  rw [cell_of_getElem? (hrow i hi), coord_of_getElem? (hentry i hi j hj)]

/-! ## §4.  The invariant -/

/-- The lower factor that shares the places of a square: ones on the diagonal, zeros above. -/
def lower (rows : List (List (Extended K))) (i l : Nat) : K :=
  if l < i then cell rows i l else if l = i then 1 else 0

/-- The upper factor that shares the places of a square: zeros below the diagonal. -/
def upper (rows : List (List (Extended K))) (l j : Nat) : K :=
  if l ≤ j then cell rows l j else 0

/-- `k` steps of elimination of `B` were made. -/
structure Reduced (B : Nat → Nat → K) (m k : Nat) (f : TriangularFactors (Extended K)) : Prop where
  square : Square m f.packed
  order : f.order.Perm (List.range m)
  pivots : ∀ i < k, cell f.packed i i ≠ 0
  product : ∀ i < m, ∀ j < m, B (f.order.getD i 0) j
    = ∑ l ∈ Finset.range k, lower f.packed i l * upper f.packed l j
      + if k ≤ i ∧ k ≤ j then cell f.packed i j else 0

/-- `B` is the product of the factors, up to the order of its rows. -/
abbrev Factored (B : Nat → Nat → K) (m : Nat) (f : TriangularFactors (Extended K)) : Prop :=
  Reduced B m m f

section Step

variable {B : Nat → Nat → K} {m k : Nat} {f : TriangularFactors (Extended K)}

/-- Bringing up a row from below renames the rows that are not settled yet. -/
theorem Reduced.exchange (h : Reduced B m k f) {r : Nat} (hkr : k ≤ r) (hr : r < m) :
    Reduced B m k ⟨exchange f.packed k r, exchange f.order k r⟩ := by
  have hk : k < m := by omega
  have hlen : f.order.length = m := by rw [h.order.length_eq, List.length_range]
  have hcell (i j : Nat) : cell (TriangularFactors.exchange f.packed k r) i j
      = cell f.packed (Equiv.swap k r i) j :=
    cell_exchange (by rw [h.square.length]; exact hk) (by rw [h.square.length]; exact hr) i j
  have hswap (i : Nat) (hi : i < k) : Equiv.swap k r i = i :=
    Equiv.swap_apply_of_ne_of_ne (by omega) (by omega)
  -- the two rows are at or below `k`, so the settled rows keep their places
  have hbelow (i : Nat) (hi : k ≤ i) : k ≤ Equiv.swap k r i := by
    rw [Equiv.swap_apply_def]
    split
    · exact hkr
    · split <;> omega
  have hbound (i : Nat) (hi : i < m) : Equiv.swap k r i < m := by
    rw [Equiv.swap_apply_def]
    split
    · exact hr
    · split <;> omega
  refine ⟨square_exchange h.square hk hr, ?_, fun i hi => ?_, fun i hi j hj => ?_⟩
  · exact (exchange_perm (hlen ▸ hk) (hlen ▸ hr)).trans h.order
  · rw [hcell, hswap i hi]
    exact h.pivots i hi
  · have horder : (TriangularFactors.exchange f.order k r).getD i 0
        = f.order.getD (Equiv.swap k r i) 0 := by
      rw [List.getD_eq_getElem?_getD, getElem?_exchange (hlen ▸ hk) (hlen ▸ hr),
        ← List.getD_eq_getElem?_getD]
    show B ((TriangularFactors.exchange f.order k r).getD i 0) j = _
    rw [horder, h.product _ (hbound i hi) j hj]
    by_cases hik : k ≤ i
    · -- both rows are below the settled ones, where only the entries in front matter
      have hik' := hbelow i hik
      congr 1
      · refine Finset.sum_congr rfl fun l hl => ?_
        have hl : l < k := Finset.mem_range.mp hl
        unfold lower upper
        rw [hcell, hcell, hswap l hl, if_pos (show l < i by omega),
          if_pos (show l < Equiv.swap k r i by omega)]
      · rw [hcell]
        by_cases hjk : k ≤ j
        · rw [if_pos ⟨hik', hjk⟩, if_pos ⟨hik, hjk⟩]
        · rw [if_neg (by omega), if_neg (by omega)]
    · -- a settled row stays where it is
      have hik : i < k := by omega
      rw [hswap i hik, if_neg (by omega), if_neg (by omega)]
      congr 1
      refine Finset.sum_congr rfl fun l hl => ?_
      have hl : l < k := Finset.mem_range.mp hl
      unfold lower upper
      rw [hcell, hcell, hswap i hik, hswap l hl]

/-- Clearing the column below a nonzero pivot settles one more row and column. -/
theorem Reduced.clear (h : Reduced B m k f) (hk : k < m) (hp : cell f.packed k k ≠ 0) :
    Reduced B m (k + 1) ⟨clearColumn k f.packed, f.order⟩ := by
  obtain ⟨hs, hc⟩ := clearColumn_spec h.square hp
  refine ⟨hs, h.order, fun i hi => ?_, fun i hi j hj => ?_⟩
  · rw [hc i (by omega) i (by omega), clearedCell, if_pos (.inl (by omega))]
    by_cases hik : i = k
    · rw [hik]; exact hp
    · exact h.pivots i (by omega)
  · rw [h.product i hi j hj, Finset.sum_range_succ, add_assoc]
    congr 1
    · refine Finset.sum_congr rfl fun l hl => ?_
      have hl : l < k := Finset.mem_range.mp hl
      have hil : clearedCell f.packed k i l = cell f.packed i l := if_pos (.inr hl)
      have hlj : clearedCell f.packed k l j = cell f.packed l j := if_pos (.inl (by omega))
      unfold lower upper
      rw [hc i hi l (by omega), hc l (by omega) j hj, hil, hlj]
    · -- the rest of before splits into the new product and the rest of now
      unfold lower upper
      rw [hc i hi k hk, hc k hk j hj, hc i hi j hj]
      unfold clearedCell
      rcases Nat.lt_trichotomy i k with hik | rfl | hik
      · simp [show ¬k < i by omega, show ¬k = i by omega, show ¬k ≤ i by omega,
          show ¬k + 1 ≤ i by omega]
      · simp
      · rcases Nat.lt_trichotomy j k with hjk | rfl | hjk
        · simp [show ¬k ≤ j by omega, show ¬k + 1 ≤ j by omega]
        · have hd : multiplier f.packed j i * cell f.packed j j = cell f.packed i j := by
            rw [multiplier, div_mul_cancel₀ _ hp]
          simp [hik, show ¬i ≤ j by omega, show j ≤ i by omega, hd]
        · simp [hik, show ¬i ≤ k by omega, show ¬j < k by omega, show k ≤ i by omega,
            show k + 1 ≤ i by omega, show k ≤ j by omega, show k + 1 ≤ j by omega,
            show ¬j = k by omega]

/-- A finite pivot is usable from the limit on. -/
theorem isUsable_iff {ε x : K} (hε : (Scalar.singular : Extended K) = fin ε) :
    TriangularFactors.isUsable (fin x) = true ↔ ε ≤ x := by
  simp [TriangularFactors.isUsable, hε]

variable [IsStrictOrderedRing K]

/-- **One step of elimination.** -/
theorem Reduced.eliminate (h : Reduced B m k f) (hk : k < m) {g : TriangularFactors (Extended K)}
    (hg : f.eliminate k = .ok g) : Reduced B m (k + 1) g := by
  obtain ⟨hkr, hr, hsize, -⟩ := choosePivot_spec h.square hk
  obtain ⟨ε, hε, hpos⟩ := singular_pos (K := K)
  unfold TriangularFactors.eliminate at hg
  simp only [hsize] at hg
  split at hg
  case isFalse => cases hg
  case isTrue hacc =>
    cases hg
    have hge : ε ≤ |cell f.packed (choosePivot f.packed k).1 k| := (isUsable_iff hε).mp hacc
    have hx := h.exchange hkr hr
    refine hx.clear hk ?_
    show cell (TriangularFactors.exchange f.packed k _) k k ≠ 0
    rw [cell_exchange (by rw [h.square.length]; exact hk) (by rw [h.square.length]; exact hr),
      Equiv.swap_apply_left]
    exact abs_pos.mp (lt_of_lt_of_le hpos hge)

end Step

/-! ## §5.  The run -/

/-- What one step keeps and advances holds after every number of steps. -/
theorem eliminateAll_induction {α : Type} [Scalar α]
    {P : Nat → TriangularFactors α → Prop} {m : Nat} {f : TriangularFactors α} (start : P 0 f)
    (step : ∀ k < m, ∀ g g' : TriangularFactors α, P k g → g.eliminate k = .ok g' → P (k + 1) g') :
    ∀ k ≤ m, ∀ g, (List.range k).foldlM eliminate f = .ok g → P k g := by
  intro k
  induction k with
  | zero =>
    intro _ g hg
    cases hg
    exact start
  | succ k ih =>
    intro hk g hg
    rw [List.range_succ, List.foldlM_append] at hg
    obtain ⟨e, he, hg⟩ := except_bind_eq_ok.mp hg
    rw [List.foldlM_cons] at hg
    obtain ⟨e', he', hg⟩ := except_bind_eq_ok.mp hg
    cases hg
    exact step k (by omega) e g (ih (by omega) e he) he'

section Run

variable [IsStrictOrderedRing K] {m : Nat} {f : TriangularFactors (Extended K)}

omit [IsStrictOrderedRing K] in
/-- Nothing is settled at the beginning. -/
theorem reduced_start {rows : List (List (Extended K))} (h : Square m rows) :
    Reduced (cell rows) m 0 ⟨rows, List.range m⟩ := by
  refine ⟨h, by rfl, fun i hi => by omega, fun i hi j _ => ?_⟩
  simp [List.getD_eq_getElem?_getD, hi]

/-- `k` steps that succeed settle `k` rows and columns. -/
theorem reduced_of_steps {rows : List (List (Extended K))} (h : Square m rows) {k : Nat}
    (hk : k ≤ m) (hf : (List.range k).foldlM eliminate ⟨rows, List.range m⟩ = .ok f) :
    Reduced (cell rows) m k f :=
  eliminateAll_induction (P := Reduced (cell rows) m) (reduced_start h)
    (fun _ hk _ _ hg hg' => hg.eliminate hk hg') k hk f hf

/-- The factors of a square multiply to it, up to the order of rows. -/
theorem factored_of_ofRows {rows : List (List (Extended K))} (h : Square m rows)
    (hf : ofRows rows = .ok f) : Factored (cell rows) m f := by
  unfold ofRows at hf
  rw [h.length] at hf
  exact reduced_of_steps h (le_refl m) hf

/-- **The factors of a basis** multiply to it, up to the order of rows. -/
theorem factored_of_ofColumns {columns : List (List (Extended K))} (hm : columns.length = m)
    (hfin : ∀ column ∈ columns, ∀ x ∈ column, Scalar.isFinite x = true)
    (hf : ofColumns columns = .ok f) :
    Square m columns ∧ Factored (fun i j => cell columns j i) m f := by
  unfold ofColumns at hf
  split at hf
  · cases hf
  · next hnone =>
    have hlen (column) (hc : column ∈ columns) : column.length = m := by
      have := List.find?_eq_none.mp hnone column hc
      rw [hm] at this
      simpa using this
    have hs : Square m columns := ⟨hm, fun column hc => ⟨hlen column hc, hfin column hc⟩⟩
    rw [hm] at hf
    obtain ⟨hflip, hcell⟩ := square_flip hs
    have hr := factored_of_ofRows hflip hf
    refine ⟨hs, { hr with product := fun i hi j hj => ?_ }⟩
    have hi' : f.order.getD i 0 < m := by
      have hl : f.order.length = m := by rw [hr.order.length_eq, List.length_range]
      have hmem : f.order.get ⟨i, hl ▸ hi⟩ ∈ List.range m :=
        hr.order.mem_iff.mp (List.get_mem _ _)
      rw [List.getD_eq_getElem?_getD, List.getElem?_eq_getElem (hl ▸ hi)]
      exact List.mem_range.mp hmem
    rw [← hcell _ hi' j hj]
    exact hr.product i hi j hj

end Run

end TriangularFactors

end BoundedSimplex
