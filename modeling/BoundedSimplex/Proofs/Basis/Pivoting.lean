/- BoundedSimplex.Proofs.Basis.Pivoting — what the choice of the pivots gives, and
  what a failure says.

  The pivot row is the one with the largest entry, so no multiplier exceeds one; an accepted pivot
  is not below the tolerance.  The settled multipliers are exchanged together with their rows, which
  is why both facts survive the later steps.  Where elimination stops, the leading square of the
  factors is invertible and the columns in front are independent.

  Main results:
    * `Pivoted.eliminate` — one step keeps the bounds on multipliers and pivots;
    * `Reduced.linearIndependent` — after `k` steps the first `k` columns are independent;
    * `startOver_columnsOf` — the factors of a basis, and the bases that have none.
-/
import BoundedSimplex.Proofs.Basis.Failures
import BoundedSimplex.Proofs.Basis.Inverse
import Mathlib.LinearAlgebra.Matrix.Block

namespace BoundedSimplex

open Extended Matrix

variable {K : Type} [Field K] [LinearOrder K] {m : Nat}

namespace TriangularFactors

/-! ## §1.  Bounds on multipliers and pivots -/

/-- The multipliers of `k` steps do not exceed one, and the pivots are not below the tolerance. -/
structure Pivoted (m k : Nat) (rows : List (List (Extended K))) : Prop where
  multipliers : ∀ l < k, ∀ i < m, l < i → |cell rows i l| ≤ 1
  pivots : ∀ l < k, (Scalar.singular : Extended K) ≤ fin |cell rows l l|

section Step

variable {k : Nat} {rows : List (List (Extended K))}

/-- A row from below is brought up together with its multipliers. -/
theorem Pivoted.exchange (h : Pivoted m k rows) (hs : Square m rows) {r : Nat} (hkr : k ≤ r)
    (hr : r < m) : Pivoted m k (exchange rows k r) := by
  have hk : k < m := by omega
  have hcell (i j : Nat) : cell (TriangularFactors.exchange rows k r) i j
      = cell rows (Equiv.swap k r i) j :=
    cell_exchange (by rw [hs.length]; exact hk) (by rw [hs.length]; exact hr) i j
  refine ⟨fun l hl i hi hli => ?_, fun l hl => ?_⟩
  · -- the row that takes place `i` is still below `l` and in the square
    rw [hcell]
    refine h.multipliers l hl _ ?_ ?_
    · rw [Equiv.swap_apply_def]
      split
      · exact hr
      · split <;> omega
    · rw [Equiv.swap_apply_def]
      split
      · omega
      · split <;> omega
  · rw [hcell, Equiv.swap_apply_of_ne_of_ne (by omega) (by omega)]
    exact h.pivots l hl

variable [IsStrictOrderedRing K]

/-- Clearing a column below its largest entry adds multipliers of at most one. -/
theorem Pivoted.clear (h : Pivoted m k rows) (hs : Square m rows) (hk : k < m)
    (hp : cell rows k k ≠ 0) (hmax : ∀ i < m, k < i → |cell rows i k| ≤ |cell rows k k|)
    (hpivot : (Scalar.singular : Extended K) ≤ fin |cell rows k k|) :
    Pivoted m (k + 1) (clearColumn k rows) := by
  obtain ⟨-, hc⟩ := clearColumn_spec hs hp
  refine ⟨fun l hl i hi hli => ?_, fun l hl => ?_⟩
  · rw [hc i hi l (by omega)]
    unfold clearedCell
    -- in front of column `k` nothing changed, and in it there are quotients by the largest entry
    by_cases hlk : l < k
    · rw [if_pos (.inr hlk)]
      exact h.multipliers l hlk i hi hli
    · obtain rfl : l = k := by omega
      rw [if_neg (by omega), if_pos rfl, multiplier, abs_div]
      exact div_le_one_of_le₀ (hmax i hi hli) (abs_nonneg _)
  · rw [hc l (by omega) l (by omega)]
    unfold clearedCell
    rw [if_pos (.inl (by omega))]
    by_cases hlk : l < k
    · exact h.pivots l hlk
    · obtain rfl : l = k := by omega
      exact hpivot

/-- **One step of elimination** keeps the bounds. -/
theorem Pivoted.eliminate {f g : TriangularFactors (Extended K)} (h : Pivoted m k f.packed)
    (hs : Square m f.packed) (hk : k < m) (hg : f.eliminate k = .ok g) :
    Pivoted m (k + 1) g.packed := by
  obtain ⟨hkr, hr, hsize, hmax⟩ := choosePivot_spec hs hk
  obtain ⟨ε, hε, hpos⟩ := singular_pos (K := K)
  unfold TriangularFactors.eliminate at hg
  simp only [hsize] at hg
  split at hg
  case isFalse => cases hg
  case isTrue hacc =>
    cases hg
    set r := (choosePivot f.packed k).1
    have hge : ε ≤ |cell f.packed r k| := (isUsable_iff hε).mp hacc
    have hcell (i : Nat) : cell (TriangularFactors.exchange f.packed k r) i k
        = cell f.packed (Equiv.swap k r i) k :=
      cell_exchange (by rw [hs.length]; exact hk) (by rw [hs.length]; exact hr) i k
    have hup : cell (TriangularFactors.exchange f.packed k r) k k = cell f.packed r k := by
      rw [hcell, Equiv.swap_apply_left]
    -- the largest entry takes the diagonal, then the rows below it are cleared
    refine (h.exchange hs hkr hr).clear (square_exchange hs hk hr) hk ?_ (fun i hi hki => ?_) ?_
    · rw [hup]
      exact abs_pos.mp (lt_of_lt_of_le hpos hge)
    · rw [hup, hcell, Equiv.swap_apply_def, if_neg (by omega)]
      split
      · exact hmax k hk (le_refl k)
      · exact hmax i hi hki.le
    · rw [hup, hε]
      exact (fin_le_fin _ _).mpr hge

end Step

/-! ## §2.  The factors as matrices -/

/-- The lower factor in the first `n` rows and columns. -/
def lowerMatrix (n : Nat) (rows : List (List (Extended K))) : Matrix (Fin n) (Fin n) K :=
  .of fun i l => lower rows i l

/-- The upper factor in the first `n` rows and columns. -/
def upperMatrix (n : Nat) (rows : List (List (Extended K))) : Matrix (Fin n) (Fin n) K :=
  .of fun l j => upper rows l j

/-- `L` has no entries above the diagonal. -/
theorem isLowerTriangular_lowerMatrix (n : Nat) (rows : List (List (Extended K))) :
    (lowerMatrix n rows).IsLowerTriangular := by
  intro i l hil
  have hil : (i : Nat) < l := hil
  show lower rows i l = 0
  unfold lower
  rw [if_neg (by omega), if_neg (by omega)]

@[simp] theorem lowerMatrix_diagonal (n : Nat) (rows : List (List (Extended K))) (i : Fin n) :
    lowerMatrix n rows i i = 1 := by
  simp [lowerMatrix, lower]

/-- `U` has no entries below the diagonal. -/
theorem isUpperTriangular_upperMatrix (n : Nat) (rows : List (List (Extended K))) :
    (upperMatrix n rows).IsUpperTriangular := by
  intro l j hjl
  have hjl : (j : Nat) < l := hjl
  show upper rows l j = 0
  unfold upper
  rw [if_neg (by omega)]

@[simp] theorem upperMatrix_diagonal (n : Nat) (rows : List (List (Extended K))) (i : Fin n) :
    upperMatrix n rows i i = cell rows i i := by
  simp [upperMatrix, upper]

/-- The ones on the diagonal make `L` invertible. -/
theorem det_lowerMatrix (n : Nat) (rows : List (List (Extended K))) :
    (lowerMatrix n rows).det = 1 := by
  rw [det_of_isLowerTriangular _ (isLowerTriangular_lowerMatrix n rows)]
  simp

/-- The determinant of `U` is the product of the pivots. -/
theorem det_upperMatrix (n : Nat) (rows : List (List (Extended K))) :
    (upperMatrix n rows).det = ∏ i : Fin n, cell rows i i := by
  rw [det_of_isUpperTriangular (isUpperTriangular_upperMatrix n rows)]
  simp

section Leading

variable {B : Nat → Nat → K} {k : Nat} {f : TriangularFactors (Extended K)}

/-- The settled rows are the products of the leading factors. -/
theorem Reduced.leading (h : Reduced B m k f) (hk : k ≤ m) :
    (Matrix.of fun i j : Fin k => B (f.order.getD i 0) j)
      = lowerMatrix k f.packed * upperMatrix k f.packed := by
  ext i j
  show B (f.order.getD i 0) j = _
  rw [h.product i (by omega) j (by omega), if_neg (by omega), add_zero, Matrix.mul_apply,
    Finset.sum_range]
  rfl

/-- **After `k` steps the first `k` columns are independent**: their settled rows are. -/
theorem Reduced.linearIndependent (h : Reduced B m k f) (hk : k ≤ m) :
    LinearIndependent K fun (l : Fin k) (i : Fin m) => B i l := by
  have hunit : IsUnit (Matrix.of fun i j : Fin k => B (f.order.getD i 0) j) := by
    rw [h.leading hk, isUnit_iff_isUnit_det, det_mul, det_lowerMatrix, det_upperMatrix, one_mul,
      isUnit_iff_ne_zero]
    exact Finset.prod_ne_zero_iff.mpr fun i _ => h.pivots i i.isLt
  have hrow (i : Fin k) : f.order.getD i 0 < m := by
    have hlen : (i : Nat) < f.order.length := by
      rw [h.order.length_eq, List.length_range]
      omega
    rw [List.getD_eq_getElem?_getD, List.getElem?_eq_getElem hlen, Option.getD_some]
    exact List.mem_range.mp (h.order.mem_iff.mp (List.getElem_mem hlen))
  -- reading a column in the settled rows only is linear
  refine LinearIndependent.of_comp (LinearMap.funLeft K K fun i : Fin k => ⟨_, hrow i⟩) ?_
  exact linearIndependent_cols_iff_isUnit.mpr hunit

end Leading

/-- An order of the rows is a permutation of them. -/
theorem exists_perm_of_order {order : List Nat} (h : order.Perm (List.range m)) :
    ∃ σ : Equiv.Perm (Fin m), order = List.ofFn fun i => (σ i : Nat) := by
  have hlen : order.length = m := by rw [h.length_eq, List.length_range]
  have hlt (i : Fin m) : order[(i : Nat)] < m :=
    List.mem_range.mp (h.mem_iff.mp (List.getElem_mem _))
  let place (i : Fin m) : Fin m := ⟨order[(i : Nat)], hlt i⟩
  have hinj : Function.Injective place := by
    intro i j hij
    have hnodup : order.Nodup := h.nodup_iff.mpr List.nodup_range
    exact Fin.ext ((hnodup.getElem_inj_iff).mp (congrArg Fin.val hij))
  refine ⟨Equiv.ofBijective place (Finite.injective_iff_bijective.mp hinj), ?_⟩
  apply List.ext_getElem (by simp [hlen])
  intro i hi _
  simp [place]

/-! ## §3.  The factors of a basis -/

/-- The columns of a square matrix are a square. -/
theorem square_columnsOf (B : Matrix (Fin m) (Fin m) K) : Square m (columnsOf B) := by
  refine ⟨length_columnsOf B, fun column hc => ?_⟩
  obtain ⟨j, rfl⟩ := (List.mem_ofFn' _ _).mp hc
  exact numbers_embed _

/-- The entries of the list of columns. -/
theorem cell_columnsOf (B : Matrix (Fin m) (Fin m) K) (i j : Fin m) :
    cell (columnsOf B) j i = B i j := by
  rw [columnsOf, cell_ofFn (fun j i => B i j), coord_embed]

/-- The rows that are eliminated are those of the matrix. -/
theorem cell_flip_columnsOf (B : Matrix (Fin m) (Fin m) K) (i j : Fin m) :
    cell (flip m (columnsOf B)) i j = B i j := by
  obtain ⟨-, hcell⟩ := square_flip (square_columnsOf B)
  rw [hcell i i.isLt j j.isLt, cell_columnsOf]

/-- The packed square holds `L` and `U` with `P B = L U`, found with the largest pivots: row `i` of
    `P B` is row `σ i` of `B`, no multiplier exceeds one, and no pivot is below the tolerance. -/
structure Decomposes (f : TriangularFactors (Extended K)) (B : Matrix (Fin m) (Fin m) K)
    (σ : Equiv.Perm (Fin m)) : Prop where
  square : Square m f.packed
  order : f.order = List.ofFn fun i => (σ i : Nat)
  product : B.submatrix σ id = lowerMatrix m f.packed * upperMatrix m f.packed
  multipliers : ∀ i l, |lowerMatrix m f.packed i l| ≤ 1
  pivots : ∀ k, (Scalar.singular : Extended K) ≤ fin |upperMatrix m f.packed k k|

section Basis

variable [IsStrictOrderedRing K] {f : TriangularFactors (Extended K)} {B : Matrix (Fin m) (Fin m) K}

/-- A matrix with such factors is invertible. -/
theorem Decomposes.isUnit {σ : Equiv.Perm (Fin m)} (h : Decomposes f B σ) : IsUnit B := by
  obtain ⟨ε, hε, hpos⟩ := singular_pos (K := K)
  have hpivot (k : Fin m) : cell f.packed k k ≠ 0 := by
    have hge := h.pivots k
    rw [hε, fin_le_fin, upperMatrix_diagonal] at hge
    exact abs_pos.mp (lt_of_lt_of_le hpos hge)
  have hdet : (B.submatrix σ id).det ≠ 0 := by
    rw [h.product, det_mul, det_lowerMatrix, det_upperMatrix, one_mul]
    exact Finset.prod_ne_zero_iff.mpr fun k _ => hpivot k
  rw [det_permute] at hdet
  exact (isUnit_iff_isUnit_det _).mpr (isUnit_iff_ne_zero.mpr (right_ne_zero_of_mul hdet))

/-- `k` steps of elimination that succeed keep both invariants, whatever the matrix. -/
theorem reduced_and_pivoted (B : Matrix (Fin m) (Fin m) K) {k : Nat} (hk : k ≤ m)
    (hf : (List.range k).foldlM eliminate ⟨flip m (columnsOf B), List.range m⟩ = .ok f) :
    Reduced (cell (flip m (columnsOf B))) m k f ∧ Pivoted m k f.packed := by
  obtain ⟨hs, -⟩ := square_flip (square_columnsOf B)
  let P (k : Nat) (f : TriangularFactors (Extended K)) : Prop :=
    Reduced (cell (flip m (columnsOf B))) m k f ∧ Pivoted m k f.packed
  have hstart : P 0 ⟨flip m (columnsOf B), List.range m⟩ :=
    ⟨reduced_start hs, fun l hl => by omega, fun l hl => by omega⟩
  refine eliminateAll_induction (P := P) hstart ?_ k hk f hf
  rintro k hk g g' ⟨hr, hp⟩ hg
  exact ⟨hr.eliminate hk hg, hp.eliminate hr.square hk hg⟩

/-- **Factors that are found** decompose the matrix. -/
theorem exists_decomposes (hf : ofColumns (columnsOf B) = .ok f) : ∃ σ, Decomposes f B σ := by
  have hsteps : (List.range m).foldlM eliminate ⟨flip m (columnsOf B), List.range m⟩ = .ok f := by
    unfold ofColumns at hf
    split at hf
    · cases hf
    · unfold ofRows at hf
      simpa [flip] using hf
  obtain ⟨hr, hp⟩ := reduced_and_pivoted B (le_refl m) hsteps
  obtain ⟨σ, hσ⟩ := exists_perm_of_order hr.order
  refine ⟨σ, hr.square, hσ, ?_, fun i l => ?_, fun k => ?_⟩
  · -- all rows are settled, so they are the products of the whole factors
    rw [← hr.leading (le_refl m)]
    ext i j
    have horder : f.order.getD i 0 = σ i := by simp [hσ]
    show B (σ i) j = cell (flip m (columnsOf B)) (f.order.getD i 0) j
    rw [horder, cell_flip_columnsOf]
  · show |lower f.packed i l| ≤ 1
    unfold lower
    split
    case isTrue hli => exact hp.multipliers l l.isLt i i.isLt hli
    case isFalse => split <;> simp
  · rw [upperMatrix_diagonal]
    exact hp.pivots k k.isLt

/-- **Where no factors are found**: at a column with independent ones in front of it. -/
theorem ofColumns_columnsOf_error {cause : FactorizationFailure}
    (h : ofColumns (columnsOf B) = .error cause) : ∃ k, ∃ hk : k < m,
      cause = .singularBasis k ∧ LinearIndependent K fun l : Fin k =>
      B.col (Fin.castLE hk.le l) := by
  have hs := square_columnsOf B
  cases ofColumns_error_iff.mp h with
  | wrongLength k column hcolumn hwrong _ =>
    have hmem : column ∈ columnsOf B := List.mem_of_getElem? hcolumn
    rw [(hs.numbers column hmem).length, hs.length] at hwrong
    exact absurd rfl hwrong
  -- the rows settled so far show that the columns in front are independent
  | noPivot k hk _ reached hsteps _ =>
    rw [hs.length] at hk hsteps
    obtain ⟨hr, -⟩ := reduced_and_pivoted B hk.le hsteps
    refine ⟨k, hk, rfl, ?_⟩
    have hcolumns : (fun l : Fin k => B.col (Fin.castLE hk.le l))
        = fun (l : Fin k) (i : Fin m) => cell (flip m (columnsOf B)) i l := by
      funext l i
      exact (cell_flip_columnsOf B i (Fin.castLE hk.le l)).symm
    rw [hcolumns]
    exact hr.linearIndependent hk.le

end Basis

end TriangularFactors

/-- **Triangular factors of a basis.**  A fresh start always comes to a result.  If it succeeds, it
    keeps no eta column and decomposes the basis, which is invertible; a singular basis is turned
    down; and for a basis that is turned down the old factors stay, and the columns in front of the
    one that is reported are independent. -/
theorem ProductForm.startOver_columnsOf [IsStrictOrderedRing K] (f : ProductForm (Extended K))
    (B : Matrix (Fin m) (Fin m) K) :
    ∃ result g, f.startOver (columnsOf B) = .ok (result, g)
      ∧ (result = .ok () → g.etas = [] ∧ IsUnit B ∧ ∃ σ, g.factors.Decomposes B σ)
      ∧ (¬IsUnit B → ∃ k, result = .error (.singularBasis k))
      ∧ ∀ cause, result = .error cause → g = f ∧ ∃ k, ∃ hk : k < m,
          cause = .singularBasis k
            ∧ LinearIndependent K fun l : Fin k => B.col (Fin.castLE hk.le l) := by
  rw [ProductForm.startOver_eq]
  unfold ProductForm.refresh
  cases hfactors : TriangularFactors.ofColumns (columnsOf B) with
  | error cause =>
    obtain ⟨k, hk, rfl, hli⟩ := TriangularFactors.ofColumns_columnsOf_error hfactors
    refine ⟨_, _, rfl, fun hok => ?_, fun _ => ⟨k, rfl⟩, fun cause hc => ?_⟩
    · cases hok
    · cases hc
      exact ⟨rfl, k, hk, rfl, hli⟩
  | ok factors =>
    obtain ⟨σ, hσ⟩ := TriangularFactors.exists_decomposes hfactors
    refine ⟨_, _, rfl, fun _ => ⟨rfl, hσ.isUnit, σ, hσ⟩, fun hsing => absurd hσ.isUnit hsing,
      fun cause hc => ?_⟩
    cases hc

/-- Rows are exchanged in both steps, the second time after a multiplier was stored; and a third row
    that is the sum of the others leaves no pivot for the last column. -/
theorem ProductForm.startOver_columnsOf_three :
    (∃ g σ, (ProductForm.identity 3 10).startOver (columnsOf !![1, 2, 4; 2, 2, 3; 4, 0, (1 : ℚ)])
        = .ok (.ok (), g)
      ∧ g.factors.order = [2, 0, 1]
      ∧ g.factors.Decomposes !![1, 2, 4; 2, 2, 3; 4, 0, (1 : ℚ)] σ)
    ∧ (∃ g, (ProductForm.identity 3 10).startOver (columnsOf !![1, 2, 4; 2, 2, 3; 3, 4, (7 : ℚ)])
        = .ok (.error (.singularBasis 2), g))
    ∧ ∃ h, LinearIndependent ℚ fun l : Fin 2 =>
        (!![1, 2, 4; 2, 2, 3; 3, 4, (7 : ℚ)] : Matrix (Fin 3) (Fin 3) ℚ).col (Fin.castLE h l) := by
  have hok : ((ProductForm.identity 3 10).startOver
      (columnsOf !![1, 2, 4; 2, 2, 3; 4, 0, (1 : ℚ)])).map (fun r => (r.1, r.2.factors.order))
        = .ok (.ok (), [2, 0, 1]) := by decide +kernel
  have hfail : ((ProductForm.identity 3 10).startOver
      (columnsOf !![1, 2, 4; 2, 2, 3; 3, 4, (7 : ℚ)])).map (fun r => (r.1, r.2.factors.order))
        = .ok (.error (.singularBasis 2), [0, 1, 2]) := by decide +kernel
  obtain ⟨result, g, hg, haccepted, -⟩ := ProductForm.startOver_columnsOf
    (ProductForm.identity 3 10) !![1, 2, 4; 2, 2, 3; 4, 0, (1 : ℚ)]
  obtain ⟨result', g', hg', -, -, hrejected⟩ := ProductForm.startOver_columnsOf
    (ProductForm.identity 3 10) !![1, 2, 4; 2, 2, 3; 3, 4, (7 : ℚ)]
  -- the two runs are evaluated, and the theorem says what their results mean
  rw [hg] at hok
  rw [hg'] at hfail
  obtain ⟨rfl, horder⟩ := Prod.mk.inj (Except.ok.inj hok)
  obtain ⟨rfl, -⟩ := Prod.mk.inj (Except.ok.inj hfail)
  obtain ⟨-, -, σ, hσ⟩ := haccepted rfl
  obtain ⟨-, k, hk, hcause, hli⟩ := hrejected _ rfl
  cases hcause
  exact ⟨⟨g, σ, hg, horder, hσ⟩, ⟨g', hg'⟩, by omega, hli⟩

end BoundedSimplex
