/-
  BoundedSimplex.Proofs.Basis.Eta — exchanging one column of a basis.

  A basis whose column `p` is exchanged for `B d` is `B E`, with `E` the identity whose
  column `p` is `d`.  The inverse of `E` is of the same kind, so the inverse of the new basis
  is the old one with one sweep of row operations.  An eta column keeps `d` without the
  entries that are negligible.

  Main results:
    * `updateCol_mulVec_inv` — the inverse after an exchange;
    * `EtaColumn.represents_of_ofColumn` — what an eta column keeps;
    * `EtaColumn.Represents.solveColumn_eq`, `EtaColumn.Represents.solveRow_eq` — its two sweeps.
-/
import BoundedSimplex.Proofs.Basis.Positions
import BoundedSimplex.Proofs.Linear.SparseVector
import Mathlib.Algebra.BigOperators.Field
import Mathlib.LinearAlgebra.Matrix.NonsingularInverse
import Mathlib.LinearAlgebra.Matrix.RowCol
import Mathlib.Tactic.FieldSimp

namespace BoundedSimplex

open Extended Matrix

variable {K : Type} [Field K] {m : Nat}

/-! ## §1.  The identity with one column replaced -/

/-- The identity whose column `p` is `d`. -/
def etaMatrix (p : Fin m) (d : Fin m → K) : Matrix (Fin m) (Fin m) K :=
  (1 : Matrix (Fin m) (Fin m) K).updateCol p d

/-- Its inverse, if the entry of `d` at `p` is not zero. -/
def etaInverse (p : Fin m) (d : Fin m → K) : Matrix (Fin m) (Fin m) K :=
  etaMatrix p fun i => if i = p then 1 / d p else -(d i / d p)

theorem etaMatrix_mulVec (p : Fin m) (d y : Fin m → K) (i : Fin m) :
    (etaMatrix p d *ᵥ y) i = (if i = p then 0 else y i) + d i * y p := by
  -- a row has its own entry unless it is the pivot's, and its share of the column
  have hterm (j : Fin m) : etaMatrix p d i j * y j
      = (if j = i then (if i = p then 0 else y j) else 0) + if j = p then d i * y j else 0 := by
    rw [etaMatrix, updateCol_apply, one_apply]
    by_cases hjp : j = p
    · by_cases hji : j = i
      · simp [hjp, ← hji]
      · simp [hjp, show ¬p = i from fun e => hji (hjp.trans e)]
    · by_cases hji : j = i
      · simp [← hji, hjp]
      · simp [hjp, hji, show ¬i = j from fun e => hji e.symm]
  show ∑ j, etaMatrix p d i j * y j = _
  rw [Finset.sum_congr rfl fun j _ => hterm j, Finset.sum_add_distrib, Finset.sum_ite_eq',
    Finset.sum_ite_eq', if_pos (Finset.mem_univ i), if_pos (Finset.mem_univ p)]

/-- Multiplying by such a matrix on the right changes one entry. -/
theorem vecMul_etaMatrix (p : Fin m) (d y : Fin m → K) (j : Fin m) :
    (y ᵥ* etaMatrix p d) j = if j = p then ∑ i, y i * d i else y j := by
  by_cases hj : j = p
  · subst hj
    simp [vecMul, dotProduct, etaMatrix]
  · rw [if_neg hj]
    have hcol : (y ᵥ* etaMatrix p d) j = (y ᵥ* (1 : Matrix (Fin m) (Fin m) K)) j := by
      show ∑ i, y i * etaMatrix p d i j = ∑ i, y i * (1 : Matrix (Fin m) (Fin m) K) i j
      exact Finset.sum_congr rfl fun i _ => by rw [etaMatrix, updateCol_ne hj]
    rw [hcol, vecMul_one]

/-- A sweep over the rows: first the entry of the pivot, then the others. -/
theorem etaInverse_mulVec (p : Fin m) (d y : Fin m → K) (i : Fin m) :
    (etaInverse p d *ᵥ y) i = if i = p then y p / d p else y i - d i * (y p / d p) := by
  rw [etaInverse, etaMatrix_mulVec]
  by_cases hi : i = p
  · rw [if_pos hi, if_pos hi, if_pos hi]
    ring
  · rw [if_neg hi, if_neg hi, if_neg hi]
    ring

/-- A sweep over the columns: all entries enter that of the pivot. -/
theorem vecMul_etaInverse (p : Fin m) (d y : Fin m → K) (j : Fin m) :
    (y ᵥ* etaInverse p d) j
      = if j = p then (y p - ∑ i, (if i = p then 0 else d i) * y i) / d p else y j := by
  rw [etaInverse, vecMul_etaMatrix]
  by_cases hj : j = p
  · rw [if_pos hj, if_pos hj]
    have hterm (i : Fin m) : y i * (if i = p then 1 / d p else -(d i / d p))
        = (if i = p then y i / d p else 0) - (if i = p then 0 else d i) * y i / d p := by
      by_cases hi : i = p
      · rw [if_pos hi, if_pos hi, if_pos hi]; ring
      · rw [if_neg hi, if_neg hi, if_neg hi]; ring
    rw [Finset.sum_congr rfl fun i _ => hterm i, Finset.sum_sub_distrib, Finset.sum_ite_eq',
      if_pos (Finset.mem_univ p), ← Finset.sum_div, sub_div]
  · rw [if_neg hj, if_neg hj]

/-- The rows of a matrix after the sweep. -/
theorem etaInverse_mul_apply (p : Fin m) (d : Fin m → K) (W : Matrix (Fin m) (Fin m) K)
    (i j : Fin m) :
    (etaInverse p d * W) i j
      = if i = p then W p j / d p else W i j - d i * (W p j / d p) :=
  etaInverse_mulVec p d (fun k => W k j) i

/-- The sweep undoes the column. -/
theorem etaInverse_mul_etaMatrix {p : Fin m} {d : Fin m → K} (hd : d p ≠ 0) :
    etaInverse p d * etaMatrix p d = 1 := by
  ext i j
  rw [etaInverse_mul_apply, etaMatrix, updateCol_apply, updateCol_apply, one_apply, one_apply]
  by_cases hj : j = p
  · subst hj
    by_cases hi : i = j
    · simp [hi, hd]
    · simp [hi, hd]
  · by_cases hi : i = p
    · subst hi
      simp [hj, show ¬i = j from fun e => hj e.symm]
    · simp [hj, hi, show ¬p = j from fun e => hj e.symm]

/-- Exchanging a column for one with the coordinates `d` multiplies by the eta matrix. -/
theorem updateCol_mulVec_eq (B : Matrix (Fin m) (Fin m) K) (p : Fin m) (d : Fin m → K) :
    B.updateCol p (B *ᵥ d) = B * etaMatrix p d := by
  ext i j
  show _ = (B i ᵥ* etaMatrix p d) j
  rw [vecMul_etaMatrix, updateCol_apply]
  rfl

/-- **The inverse after an exchange.**  The new basis is invertible iff the pivot
    entry is not zero. -/
theorem updateCol_mulVec_inv {B : Matrix (Fin m) (Fin m) K} (hB : IsUnit B) {p : Fin m}
    {d : Fin m → K} (hd : d p ≠ 0) :
    IsUnit (B.updateCol p (B *ᵥ d))
      ∧ (B.updateCol p (B *ᵥ d))⁻¹ = etaInverse p d * B⁻¹ := by
  have hdet : IsUnit B.det := (isUnit_iff_isUnit_det B).mp hB
  have hleft : etaInverse p d * B⁻¹ * B.updateCol p (B *ᵥ d) = 1 := by
    rw [updateCol_mulVec_eq, Matrix.mul_assoc, ← Matrix.mul_assoc B⁻¹, nonsing_inv_mul B hdet,
      Matrix.one_mul, etaInverse_mul_etaMatrix hd]
  exact ⟨(isUnit_iff_isUnit_det _).mpr (isUnit_det_of_left_inverse hleft), inv_eq_left_inv hleft⟩

/-! ## §2.  What an eta column keeps -/

variable [LinearOrder K]

/-- The entries of a column that count for an exchange at `p`: the pivot, and those that are not
    negligible. -/
def kept (p : Fin m) (d : Fin m → K) (i : Fin m) : K :=
  if i = p ∨ (Scalar.negligible : Extended K) < fin |d i| then d i else 0

/-- Every nonzero entry beside the pivot counts. -/
def Counts (p : Fin m) (d : Fin m → K) : Prop :=
  ∀ i, i ≠ p → d i ≠ 0 → (Scalar.negligible : Extended K) < fin |d i|

instance (p : Fin m) (d : Fin m → K) : Decidable (Counts p d) :=
  inferInstanceAs (Decidable (∀ i, i ≠ p → d i ≠ 0 → (Scalar.negligible : Extended K) < fin |d i|))

/-- The pivot is kept whatever its size. -/
theorem kept_pivot (p : Fin m) (d : Fin m → K) : kept p d p = d p := if_pos (.inl rfl)

/-- Nothing is dropped from a column whose entries all count. -/
theorem kept_eq {p : Fin m} {d : Fin m → K} (h : Counts p d) : kept p d = d := by
  funext i
  unfold kept
  split
  · rfl
  · next hi =>
    by_contra hne
    have hi' : i ≠ p := fun e => hi (.inl e)
    exact hi (.inr (h i hi' fun e => hne e.symm))

/-- The weights of the entries of a dense list that pass a test. -/
theorem weight_filter_zipIdx (test : Extended K × Nat → Bool) :
    ∀ (xs : List (Extended K)) (n : Nat), (∀ x ∈ xs, Scalar.isFinite x = true) →
      (∀ q ∈ ((xs.zipIdx n).filter test).map fun q => (q.2, q.1),
        Scalar.isFinite q.2 = true ∧ n ≤ q.1 ∧ q.1 < n + xs.length)
        ∧ ∀ k < xs.length, weight (((xs.zipIdx n).filter test).map fun q => (q.2, q.1)) (n + k)
            = if test (fin (coord xs k), n + k) then coord xs k else 0 := by
  intro xs
  induction xs with
  | nil => exact fun n _ => ⟨by simp, by simp⟩
  | cons x xs ih =>
    intro n hfin
    obtain ⟨a, rfl⟩ := isFinite_iff.mp (hfin x List.mem_cons_self)
    obtain ⟨hmem, hw⟩ := ih (n + 1) fun y hy => hfin y (List.mem_cons_of_mem _ hy)
    -- the entries behind the first one are at later places
    have hhead : weight (((xs.zipIdx (n + 1)).filter test).map fun q => (q.2, q.1)) n = 0 :=
      weight_of_forall_ne fun q hq e => by
        have := (hmem q hq).2.1
        omega
    rw [List.zipIdx_cons]
    constructor
    · intro q hq
      rw [List.length_cons]
      by_cases ht : test (fin a, n)
      · rw [List.filter_cons_of_pos ht, List.map_cons] at hq
        rcases List.mem_cons.mp hq with rfl | hq
        · exact ⟨rfl, le_refl n, by omega⟩
        · obtain ⟨h₁, h₂, h₃⟩ := hmem q hq
          exact ⟨h₁, by omega, by omega⟩
      · rw [List.filter_cons_of_neg ht] at hq
        obtain ⟨h₁, h₂, h₃⟩ := hmem q hq
        exact ⟨h₁, by omega, by omega⟩
    · intro k hk
      cases k with
      | zero =>
        simp only [Nat.add_zero, coord_cons_zero]
        by_cases ht : test (fin a, n)
        · rw [List.filter_cons_of_pos ht, List.map_cons, weight, if_pos rfl, hhead, if_pos ht,
            val_fin, add_zero]
        · rw [List.filter_cons_of_neg ht, hhead, if_neg ht]
      | succ k =>
        have hk : k < xs.length := by simpa using hk
        have htail := hw k hk
        rw [show n + 1 + k = n + (k + 1) by omega] at htail
        rw [coord_cons_succ]
        by_cases ht : test (fin a, n)
        · rw [List.filter_cons_of_pos ht, List.map_cons, weight,
            if_neg (show ¬n + (k + 1) = n by omega), zero_add, htail]
        · rw [List.filter_cons_of_neg ht, htail]

/-- Subtracting the products of the entries with a dense vector, one after the other. -/
theorem foldl_sub_weight {n : Nat} {ys : List (Extended K)} (hy : Numbers n ys) :
    ∀ (ps : List (Nat × Extended K)) (r : K), Entries n ps →
      ps.foldl (fun rest (i, d) => rest - ys.getD i 0 * d) (fin r)
        = fin (r - ∑ k ∈ Finset.range n, weight ps k * coord ys k) := by
  intro ps
  induction ps with
  | nil => intro r _; simp [weight]
  | cons q ps ih =>
    intro r hq
    obtain ⟨i, x⟩ := q
    obtain ⟨a, rfl⟩ := isFinite_iff.mp (hq.finite (i, x) List.mem_cons_self)
    have hi : i < n := hq.inRange (i, fin a) List.mem_cons_self
    rw [List.foldl_cons]
    dsimp only
    rw [hy.getD hi, fin_mul, fin_sub, ih _ ⟨fun q h => hq.finite q (List.mem_cons_of_mem _ h),
      fun q h => hq.inRange q (List.mem_cons_of_mem _ h)⟩]
    congr 1
    simp only [weight, add_mul, Finset.sum_add_distrib, ite_mul, zero_mul, val_fin]
    rw [Finset.sum_ite_eq' _ i fun k => a * coord ys k, if_pos (Finset.mem_range.mpr hi)]
    ring

/-! ## §3.  The two sweeps -/

namespace EtaColumn

/-- The eta column is that of the column `d` at `p`. -/
structure Represents (e : EtaColumn (Extended K)) (p : Fin m) (d : Fin m → K) : Prop where
  size : e.size = m
  pivot : e.pivot = p
  pivotValue : e.pivotValue = fin (d p)
  nonzero : d p ≠ 0
  entries : Entries m e.others
  weight : ∀ i : Fin m, weight e.others i = if i = p then 0 else d i

/-- The entries stand inside of the column. -/
theorem Represents.fits {e : EtaColumn (Extended K)} {p : Fin m} {d : Fin m → K}
    (h : e.Represents p d) : e.Fits m :=
  ⟨h.size, h.pivot ▸ p.isLt, h.entries.inRange⟩

/-- **What is kept of a column** with a nonzero entry at the pivot. -/
theorem represents_of_ofColumn {p : Fin m} {d : Fin m → K} (hd : d p ≠ 0) :
    ∃ e, ofColumn (p : Nat) (embed d) = .ok e ∧ e.Represents p (kept p d) := by
  have hn := numbers_embed d
  have hget : Checked.getAt (embed d) (p : Nat) = .ok (fin (d p)) := by
    rw [Checked.getAt_eq_ok, hn.getElem? p.isLt, coord_embed]
  have hz : ¬((fin (d p) : Extended K) == 0) = true := by
    rw [zero_eq, fin_beq, decide_eq_true_iff]
    exact hd
  obtain ⟨hmem, hw⟩ := weight_filter_zipIdx
    (fun (x, i) => i != (p : Nat) && decide (Scalar.magnitude x > Scalar.negligible))
    (embed d) 0 hn.finite
  have he : ofColumn (p : Nat) (embed d) = .ok ⟨(embed d).length, p, fin (d p),
      ((embed d).zipIdx.filter fun (x, i) =>
        i != (p : Nat) && decide (Scalar.magnitude x > Scalar.negligible)).map
          fun q => (q.2, q.1)⟩ := by
    unfold ofColumn
    rw [hget]
    show (Checked.require _ _ >>= _) = _
    rw [Checked.require, if_pos hz]
    rfl
  refine ⟨_, he, {
    size := length_embed d
    pivot := rfl
    pivotValue := by rw [kept_pivot]
    nonzero := by rw [kept_pivot]; exact hd
    entries := ⟨fun q hq => (hmem q hq).1, fun q hq => by
      have := (hmem q hq).2.2
      rwa [Nat.zero_add, length_embed] at this⟩
    weight := fun i => by
      have := hw i (by rw [length_embed]; exact i.isLt)
      rw [Nat.zero_add] at this
      rw [this, coord_embed]
      by_cases hi : i = p
      · simp [hi]
      · have hi' : (i : Nat) ≠ p := fun e => hi (Fin.ext e)
        simp [hi, hi', kept] }⟩

namespace Represents

variable {e : EtaColumn (Extended K)} {p : Fin m} {d : Fin m → K}

/-- **Solving `E x = y`.** -/
theorem solveColumn_eq (h : e.Represents p d) (y : Fin m → K) :
    e.solveColumn (embed y) = embed (etaInverse p d *ᵥ y) := by
  have hn := numbers_embed y
  have hx : ((embed y).getD e.pivot 0 / e.pivotValue : Extended K) = fin (y p / d p) := by
    rw [h.pivot, hn.getD p.isLt, coord_embed, h.pivotValue, fin_div _ h.nonzero]
  have hp : (p : Nat) < (embed y).length := by rw [length_embed]; exact p.isLt
  have hset := hn.set p (y p / d p)
  unfold solveColumn
  dsimp only
  rw [hx, h.pivot, zero_eq, fin_beq]
  obtain ⟨hf, hc⟩ := numbers_foldl_modify (fun a x => x - a * fin (y p / d p)) (-(y p / d p))
    (fun a x => by
      rw [fin_mul, fin_sub]
      congr 1
      ring) e.others _ h.entries hset
  -- with a zero in the place of the pivot there is nothing to be done
  by_cases hz : y p / d p = 0
  · rw [if_pos (decide_eq_true hz)]
    refine hset.ext (numbers_embed _) fun i hi => ?_
    rw [coord_set hp, coord_embed (etaInverse p d *ᵥ y) ⟨i, hi⟩, etaInverse_mulVec,
      coord_embed y ⟨i, hi⟩, hz]
    by_cases hip : (⟨i, hi⟩ : Fin m) = p
    · rw [if_pos hip, if_pos (congrArg Fin.val hip)]
    · rw [if_neg hip, if_neg fun e => hip (Fin.ext e), mul_zero, sub_zero]
  · rw [if_neg (by simpa using hz)]
    refine hf.ext (numbers_embed _) fun i hi => ?_
    rw [hc i hi, coord_set hp, coord_embed (etaInverse p d *ᵥ y) ⟨i, hi⟩, etaInverse_mulVec,
      coord_embed y ⟨i, hi⟩, h.weight ⟨i, hi⟩]
    by_cases hip : (⟨i, hi⟩ : Fin m) = p
    · rw [if_pos hip, if_pos hip, if_pos (congrArg Fin.val hip), mul_zero, add_zero]
    · rw [if_neg hip, if_neg hip, if_neg fun e => hip (Fin.ext e)]
      ring

/-- **Solving `x E = y`.** -/
theorem solveRow_eq (h : e.Represents p d) (y : Fin m → K) :
    e.solveRow (embed y) = embed (y ᵥ* etaInverse p d) := by
  have hn := numbers_embed y
  have hp : (p : Nat) < (embed y).length := by rw [length_embed]; exact p.isLt
  have hsum : ∑ k ∈ Finset.range m, BoundedSimplex.weight e.others k * coord (embed y) k
      = ∑ i : Fin m, (if i = p then 0 else d i) * y i := by
    rw [Finset.sum_range]
    exact Finset.sum_congr rfl fun i _ => by rw [h.weight, coord_embed]
  unfold solveRow
  dsimp only
  rw [h.pivot, hn.getD p.isLt, coord_embed, foldl_sub_weight hn _ _ h.entries, h.pivotValue,
    fin_div _ h.nonzero, hsum]
  refine (hn.set p _).ext (numbers_embed _) fun j hj => ?_
  rw [coord_set hp, coord_embed (y ᵥ* etaInverse p d) ⟨j, hj⟩, vecMul_etaInverse,
    coord_embed y ⟨j, hj⟩]
  by_cases hjp : (⟨j, hj⟩ : Fin m) = p
  · rw [if_pos hjp, if_pos (congrArg Fin.val hjp)]
  · rw [if_neg hjp, if_neg fun e => hjp (Fin.ext e)]

end Represents

end EtaColumn

end BoundedSimplex
