/-
  BoundedSimplex.Proofs.Basis.Inverse — what a representation of the basis inverse stands for.

  A representation stands for a matrix `W` when it answers every question as `W` would.  Both kinds
  stand for the inverse of the basis after a fresh start, and follow an exchange by the same sweep
  of row operations; the two differ in the entries of the change column that they take into account.

  Main results:
    * `BasisInverse.represents_of_refresh` — a fresh start that succeeds inverts the basis;
    * `BasisInverse.Represents.update` — an exchange with a nonzero pivot entry succeeds, and what
      it does to the matrix;
    * `BasisInverse.Represents.exchange` — so it inverts the new basis.
-/
import BoundedSimplex.Proofs.Basis.Eta
import BoundedSimplex.Proofs.Basis.Shape
import BoundedSimplex.Proofs.Basis.Substitution

namespace BoundedSimplex

open Extended Matrix

variable {K : Type} [Field K] [LinearOrder K] {m : Nat}

/-! ## §1.  The factors of a basis -/

/-- The matrix with the given columns. -/
def basisMatrix (m : Nat) (columns : List (List (Extended K))) : Matrix (Fin m) (Fin m) K :=
  .of fun i j => cell columns j i

/-- The columns of a matrix. -/
def columnsOf (B : Matrix (Fin m) (Fin m) K) : List (List (Extended K)) :=
  List.ofFn fun j => embed fun i => B i j

/-- The rows of a matrix. -/
def rowsOf (B : Matrix (Fin m) (Fin m) K) : List (List (Extended K)) :=
  List.ofFn fun i => embed fun j => B i j

/-- Lists of numbers, without infinities or undefined results. -/
def Finite (columns : List (List (Extended K))) : Prop :=
  ∀ column ∈ columns, ∀ x ∈ column, Scalar.isFinite x = true

omit [Field K] [LinearOrder K] in
@[simp] theorem length_columnsOf (B : Matrix (Fin m) (Fin m) K) : (columnsOf B).length = m := by
  simp [columnsOf]

omit [Field K] [LinearOrder K] in
@[simp] theorem length_rowsOf (B : Matrix (Fin m) (Fin m) K) : (rowsOf B).length = m := by
  simp [rowsOf]

omit [Field K] [LinearOrder K] in
/-- The rows of a matrix, as a list. -/
theorem getElem?_rowsOf (B : Matrix (Fin m) (Fin m) K) (i : Fin m) :
    (rowsOf B)[(i : Nat)]? = some (embed fun j => B i j) := by
  simp [rowsOf]

theorem cell_ofFn (rows : Fin m → Fin m → K) (i : Fin m) (j : Nat) :
    cell (List.ofFn fun i => embed (rows i)) i j = coord (embed (rows i)) j := by
  apply cell_of_getElem?
  simp

namespace TriangularFactors

variable [IsStrictOrderedRing K]

/-- **The factors of a basis solve with it**, and it is invertible. -/
theorem inverse_of_ofColumns {columns : List (List (Extended K))}
    {f : TriangularFactors (Extended K)} (hm : columns.length = m) (hfin : Finite columns)
    (hf : ofColumns columns = .ok f) :
    IsUnit (basisMatrix m columns)
      ∧ (∀ y, f.solveColumn (embed y) = embed ((basisMatrix m columns)⁻¹ *ᵥ y))
      ∧ ∀ y, f.solveRow (embed y) = embed (y ᵥ* (basisMatrix m columns)⁻¹) := by
  obtain ⟨-, hfac⟩ := factored_of_ofColumns hm hfin hf
  have hcol (y : Fin m → K) : ∃ x : Fin m → K, f.solveColumn (embed y) = embed x
      ∧ basisMatrix m columns *ᵥ x = y := by
    obtain ⟨hn, hx⟩ := solveColumn_spec hfac (numbers_embed y)
    refine ⟨_, hn.eq_embed, ?_⟩
    funext i
    rw [← coord_embed y i, ← hx i i.isLt, Finset.sum_range]
    rfl
  have hrow (y : Fin m → K) : ∃ x : Fin m → K, f.solveRow (embed y) = embed x
      ∧ x ᵥ* basisMatrix m columns = y := by
    obtain ⟨hn, hx⟩ := solveRow_spec hfac (numbers_embed y)
    refine ⟨_, hn.eq_embed, ?_⟩
    funext j
    rw [← coord_embed y j, ← hx j j.isLt, Finset.sum_range]
    rfl
  -- a system that is solvable for every right-hand side has an invertible matrix
  have hunit : IsUnit (basisMatrix m columns) :=
    mulVec_surjective_iff_isUnit.mp fun y => (hcol y).imp fun x hx => hx.2
  have hdet := (isUnit_iff_isUnit_det _).mp hunit
  refine ⟨hunit, fun y => ?_, fun y => ?_⟩
  · obtain ⟨x, hx, rfl⟩ := hcol y
    rw [hx, mulVec_mulVec, nonsing_inv_mul _ hdet, one_mulVec]
  · obtain ⟨x, hx, rfl⟩ := hrow y
    rw [hx, vecMul_vecMul, mul_nonsing_inv _ hdet, vecMul_one]

end TriangularFactors

/-! ## §2.  Rows written out -/

/-- The unit vectors of lists and of functions. -/
theorem embed_unit (i : Fin m) :
    (Scalar.unit m i : List (Extended K)) = embed (Pi.single i (1 : K)) := by
  refine (Numbers.unit m i).ext (numbers_embed _) fun j hj => ?_
  rw [coord_unit i.isLt, coord_embed (Pi.single i (1 : K)) ⟨j, hj⟩, Pi.single_apply]
  by_cases hji : j = i
  · rw [if_pos hji, if_pos (Fin.ext hji)]
  · rw [if_neg hji, if_neg fun e => hji (congrArg Fin.val e)]

/-- Asking for every row. -/
theorem map_range_unit (solve : List (Extended K) → List (Extended K))
    (W : Matrix (Fin m) (Fin m) K) (h : ∀ y, solve (embed y) = embed (y ᵥ* W)) :
    ((List.range m).map fun i => solve (Scalar.unit m i)) = rowsOf W := by
  apply List.ext_getElem?
  intro i
  by_cases hi : i < m
  · have hrow := h (Pi.single ⟨i, hi⟩ 1)
    rw [← embed_unit ⟨i, hi⟩, single_one_vecMul] at hrow
    rw [getElem?_rowsOf W ⟨i, hi⟩, List.getElem?_map, List.getElem?_range hi, Option.map_some, hrow]
    rfl
  · rw [List.getElem?_eq_none (by simpa using hi), List.getElem?_eq_none (by simpa using hi)]

/-- Asking for every row where an answer may be missing. -/
theorem mapM_range_unit (solve : List (Extended K) → Checked (List (Extended K)))
    (W : Matrix (Fin m) (Fin m) K) (h : ∀ y, solve (embed y) = .ok (embed (y ᵥ* W))) :
    ((List.range m).mapM fun i => solve (Scalar.unit m i)) = .ok (rowsOf W) := by
  rw [← map_range_unit (fun y => (solve y).toOption.getD []) W fun y => by rw [h y]; rfl]
  refine Checked.mapM_eq_ok fun i hi => ?_
  rw [embed_unit ⟨i, List.mem_range.mp hi⟩, h]
  rfl

namespace ExplicitInverse

/-- The product of two lists of numbers is that of the vectors. -/
theorem dot_embed (x y : Fin m → K) : Scalar.dot (embed x) (embed y) = fin (x ⬝ᵥ y) := by
  rw [(numbers_embed x).dot_eq (numbers_embed y), Nat.min_self, Finset.sum_range]
  congr 1
  exact Finset.sum_congr rfl fun i _ => by rw [coord_embed, coord_embed]

/-- Forward solves with an explicit inverse multiply by its rows. -/
theorem solveColumn_eq {f : ExplicitInverse (Extended K)} {W : Matrix (Fin m) (Fin m) K}
    (h : f.rows = rowsOf W) (y : Fin m → K) : f.solveColumn (embed y) = embed (W *ᵥ y) := by
  rw [solveColumn, h, rowsOf, List.map_ofFn]
  exact congrArg List.ofFn (funext fun i => dot_embed (fun j => W i j) y)

/-- Adding multiples of rows, one after the other. -/
theorem foldl_addMultiple (W : Fin m → Fin m → K) :
    ∀ (rows : List (Fin m)) (y : Fin m → K) (x : Fin m → K),
      ((rows.map fun i => embed (W i)).zip (rows.map fun i => fin (y i))).foldl
          (fun x (row, factor) => if factor == 0 then x else addMultiple x factor row) (embed x)
        = embed fun j => x j + (rows.map fun i => y i * W i j).sum := by
  intro rows y
  induction rows with
  | nil => intro x; simp
  | cons i rows ih =>
    intro x
    -- a row with coefficient zero adds nothing, so it does not matter that it is skipped
    have hstep : (if (fin (y i) : Extended K) == 0 then embed x
        else addMultiple (embed x) (fin (y i)) (embed (W i))) = embed fun j =>
          x j + y i * W i j := by
      rw [zero_eq, fin_beq]
      by_cases hz : y i = 0
      · simp [hz]
      · rw [if_neg (by simpa using hz)]
        apply List.ext_getElem (by simp [addMultiple, embed])
        intro j hj _
        simp [addMultiple, embed]
    rw [List.map_cons, List.map_cons, List.zip_cons_cons, List.foldl_cons]
    dsimp only
    rw [hstep, ih]
    congr 1
    funext j
    rw [List.map_cons, List.sum_cons, add_assoc]

/-- Backward solves combine the rows. -/
theorem solveRow_eq {f : ExplicitInverse (Extended K)} {W : Matrix (Fin m) (Fin m) K}
    (h : f.rows = rowsOf W) (y : Fin m → K) : f.solveRow (embed y) = embed (y ᵥ* W) := by
  have hsize : f.size = m := by rw [size, h]; simp [rowsOf]
  have hzero : (Scalar.zeros m : List (Extended K)) = embed (0 : Fin m → K) :=
    (Numbers.zeros m).ext (numbers_embed _) fun i hi => by
      rw [coord_zeros, coord_embed (0 : Fin m → K) ⟨i, hi⟩, Pi.zero_apply]
  have hrows : f.rows = (List.finRange m).map fun i => embed fun j => W i j := by
    rw [h, rowsOf, List.ofFn_eq_map]
  have hy : embed y = (List.finRange m).map fun i => fin (y i) := by rw [embed, List.ofFn_eq_map]
  rw [solveRow, hsize, hzero, hrows, hy, foldl_addMultiple fun i j => W i j]
  congr 1
  funext j
  rw [Pi.zero_apply, zero_add, ← List.ofFn_eq_map, List.sum_ofFn]
  rfl

/-- One elimination step is the sweep. -/
theorem reduce_eq {W : Matrix (Fin m) (Fin m) K} {p : Fin m} {d : Fin m → K} (hd : d p ≠ 0) :
    reduce (rowsOf W) p (fin (d p)) (embed d) = rowsOf (etaInverse p d * W) := by
  have hpivot : ((rowsOf W).getD p []).map (· / fin (d p)) = embed fun j => W p j / d p := by
    rw [List.getD_eq_getElem?_getD, getElem?_rowsOf, Option.getD_some, embed, List.map_ofFn]
    exact congrArg List.ofFn (funext fun j => fin_div _ hd)
  unfold reduce
  rw [hpivot]
  apply List.ext_getElem?
  intro i
  rw [List.getElem?_mapIdx]
  by_cases hi : i < m
  · have hzip : ((rowsOf W).zip (embed d))[i]?
        = some (embed fun j => W ⟨i, hi⟩ j, fin (d ⟨i, hi⟩)) := by
      rw [List.getElem?_zip_eq_some]
      refine ⟨getElem?_rowsOf W ⟨i, hi⟩, ?_⟩
      rw [(numbers_embed d).getElem? hi, coord_embed d ⟨i, hi⟩]
    rw [hzip, getElem?_rowsOf _ ⟨i, hi⟩, Option.map_some, Option.some_inj]
    simp only [etaInverse_mul_apply, reduceRow]
    -- the pivot row is divided, and every other row loses its multiple of it
    by_cases hip : (⟨i, hi⟩ : Fin m) = p
    · rw [if_pos (congrArg Fin.val hip)]
      simp only [if_pos hip]
    · rw [if_neg fun e => hip (Fin.ext e), zero_eq, fin_beq]
      simp only [if_neg hip]
      by_cases hz : d ⟨i, hi⟩ = 0
      · simp [hz]
      · rw [if_neg (by simpa using hz)]
        apply List.ext_getElem (by simp)
        intro j hj _
        simp [embed]
  · rw [List.getElem?_eq_none (by simp; omega), List.getElem?_eq_none (by simpa using hi),
      Option.map_none]

end ExplicitInverse

/-! ## §3.  Standing for a matrix -/

namespace BasisInverse

/-- The representation answers every question as the matrix does. -/
structure Represents (f : BasisInverse (Extended K)) (W : Matrix (Fin m) (Fin m) K) : Prop where
  size : f.size = m
  column : ∀ y, f.solveColumn (embed y) = .ok (embed (W *ᵥ y))
  row : ∀ y, f.solveRow (embed y) = .ok (embed (y ᵥ* W))
  rows : f.rows = .ok (rowsOf W)

/-- A vector of the right size passes. -/
theorem requireSize_embed {f : BasisInverse (Extended K)} (h : f.size = m) (y : Fin m → K) :
    f.requireSize (embed y) = .ok () := by
  rw [requireSize, Checked.require, if_pos (by rw [length_embed, h])]

/-- What the two solves of a product form do says which matrix it stands for. -/
theorem represents_product {f : ProductForm (Extended K)} {W : Matrix (Fin m) (Fin m) K}
    (hs : f.size = m) (hc : ∀ y, f.solveColumn? (embed y) = .ok (embed (W *ᵥ y)))
    (hr : ∀ y, f.solveRow? (embed y) = .ok (embed (y ᵥ* W))) : (product f).Represents W where
  size := hs
  column := fun y => by
    rw [solveColumn, requireSize_embed (f := product f) hs]
    exact hc y
  row := fun y => by
    rw [solveRow, requireSize_embed (f := product f) hs]
    exact hr y
  rows := by
    show ((List.range f.size).mapM fun i => f.solveRow? (Scalar.unit f.size i)) = _
    rw [hs]
    exact mapM_range_unit f.solveRow? W hr

/-- An explicit inverse stands for its own rows. -/
theorem represents_explicit {f : ExplicitInverse (Extended K)} {W : Matrix (Fin m) (Fin m) K}
    (h : f.rows = rowsOf W) : (explicit f).Represents W := by
  have hs : (explicit f).size = m := by
    show f.rows.length = m
    rw [h, length_rowsOf]
  refine ⟨hs, fun y => ?_, fun y => ?_, congrArg Except.ok h⟩
  · rw [solveColumn, requireSize_embed hs]
    exact congrArg Except.ok (ExplicitInverse.solveColumn_eq h y)
  · rw [solveRow, requireSize_embed hs]
    exact congrArg Except.ok (ExplicitInverse.solveRow_eq h y)

/-! ## §4.  Starting over -/

section Refresh

variable [IsStrictOrderedRing K]

/-- **A fresh start that succeeds inverts the basis.** -/
theorem represents_of_refresh {f g : BasisInverse (Extended K)} {columns : List (List (Extended K))}
    (hm : columns.length = m) (hfin : Finite columns) (h : f.refresh columns = .ok g) :
    IsUnit (basisMatrix m columns) ∧ g.Represents (basisMatrix m columns)⁻¹ := by
  cases f with
  | product f =>
    cases hf : TriangularFactors.ofColumns columns with
    | error e => simp [refresh, ProductForm.refresh, hf, bind, Except.bind, Except.map] at h
    | ok factors =>
      simp only [refresh, ProductForm.refresh, hf, bind, Except.bind, Except.map, pure, Except.pure,
        Except.ok.injEq] at h
      subst h
      -- both kinds start from the same factors; the explicit one asks them for its rows
      obtain ⟨hu, hc, hr⟩ := TriangularFactors.inverse_of_ofColumns hm hfin hf
      obtain ⟨hshaped, hsize⟩ := TriangularFactors.shaped_of_ofColumns hf
      have hlen (y : Fin m → K) : (embed y).length = factors.size := by
        rw [length_embed, hsize, hm]
      refine ⟨hu, represents_product (hsize.trans hm) (fun y => ?_) fun y => ?_⟩
      · show (factors.solveColumn? (embed y) >>= fun x => Except.ok x) = _
        rw [hshaped.solveColumn?_eq (hlen y), hc]
        rfl
      · show factors.solveRow? (embed y) = _
        rw [hshaped.solveRow?_eq (hlen y), hr]
  | explicit f =>
    cases hf : TriangularFactors.ofColumns columns with
    | error e => simp [refresh, ExplicitInverse.refresh, hf, bind, Except.bind, Except.map] at h
    | ok factors =>
      simp only [refresh, ExplicitInverse.refresh, hf, bind, Except.bind, Except.map, pure,
        Except.pure, Except.ok.injEq] at h
      subst h
      obtain ⟨hu, -, hr⟩ := TriangularFactors.inverse_of_ofColumns hm hfin hf
      refine ⟨hu, represents_explicit ?_⟩
      show ((List.range columns.length).map fun i =>
        factors.solveRow (Scalar.unit columns.length i)) = _
      rw [hm]
      exact map_range_unit factors.solveRow _ hr

end Refresh

/-! ## §5.  Following an exchange -/

/-- The column as the representation takes it into account. -/
def considered (f : BasisInverse (Extended K)) (p : Fin m) (d : Fin m → K) : Fin m → K :=
  match f with
  | product _ => kept p d
  | explicit _ => d

/-- The representation takes the whole column into account. -/
def Considers (f : BasisInverse (Extended K)) (p : Fin m) (d : Fin m → K) : Prop :=
  match f with
  | product _ => Counts p d
  | explicit _ => True

instance (f : BasisInverse (Extended K)) (p : Fin m) (d : Fin m → K) :
    Decidable (f.Considers p d) :=
  match f with
  | product _ => inferInstanceAs (Decidable (Counts p d))
  | explicit _ => .isTrue trivial

/-- What is taken into account of a column that counts in full. -/
theorem considered_eq {f : BasisInverse (Extended K)} {p : Fin m} {d : Fin m → K}
    (h : f.Considers p d) : f.considered p d = d := by
  cases f with
  | product f => exact kept_eq h
  | explicit f => rfl

omit [Field K] [LinearOrder K] in
theorem requirePosition {f : BasisInverse (Extended K)} (h : f.size = m) (p : Fin m) :
    Checked.require ((p : Nat) < f.size) (.outOfRange p f.size) = .ok () := by
  rw [Checked.require, if_pos (by rw [h]; exact p.isLt)]

/-- One more eta column is one more sweep, from either side. -/
theorem Represents.update_product {f : ProductForm (Extended K)} {W : Matrix (Fin m) (Fin m) K}
    (h : (product f).Represents W) {p : Fin m} {d : Fin m → K} (hd : d p ≠ 0) :
    ∃ g, (product f).update p (embed d) = .ok g ∧ g.Represents (etaInverse p (kept p d) * W) := by
  obtain ⟨e, he, hrep⟩ := EtaColumn.represents_of_ofColumn hd
  have hu : (product f).update p (embed d) = .ok (product { f with etas := f.etas ++ [e] }) := by
    rw [BasisInverse.update, requirePosition h.size, requireSize_embed h.size]
    show (f.update p (embed d) >>= fun g => Except.ok (product g)) = _
    rw [ProductForm.update, he]
    rfl
  have hcol (y : Fin m → K) : f.solveColumn? (embed y) = .ok (embed (W *ᵥ y)) := by
    have := h.column y
    rwa [solveColumn, requireSize_embed h.size] at this
  have hrow (y : Fin m → K) : f.solveRow? (embed y) = .ok (embed (y ᵥ* W)) := by
    have := h.row y
    rwa [solveRow, requireSize_embed h.size] at this
  refine ⟨_, hu, represents_product h.size (fun y => ?_) fun y => ?_⟩
  · -- the new column is solved with last
    obtain ⟨x, hx, hsweeps⟩ := Checked.bind_eq_ok.mp (hcol y)
    refine Checked.bind_eq_ok.mpr ⟨x, hx, ?_⟩
    rw [List.foldlM_append, hsweeps, Checked.ok_bind, List.foldlM_cons,
      hrep.fits.solveColumn?_eq (length_embed _), hrep.solveColumn_eq, mulVec_mulVec]
    rfl
  · -- and first from the other side
    have hnew : e.solveRow? (embed y) = .ok (embed (y ᵥ* etaInverse p (kept p d))) := by
      rw [hrep.fits.solveRow?_eq (length_embed _), hrep.solveRow_eq]
    show (((f.etas ++ [e]).foldrM (fun e x => e.solveRow? x) (embed y)) >>= f.factors.solveRow?) = _
    rw [List.foldrM_append, List.foldrM_cons, List.foldrM_nil, pure_bind, hnew, Checked.ok_bind,
      ← vecMul_vecMul]
    exact hrow _

/-- The rows are swept over. -/
theorem Represents.update_explicit {f : ExplicitInverse (Extended K)} {W : Matrix (Fin m) (Fin m) K}
    (h : (explicit f).Represents W) {p : Fin m} {d : Fin m → K} (hd : d p ≠ 0) :
    ∃ g, (explicit f).update p (embed d) = .ok g ∧ g.Represents (etaInverse p d * W) := by
  have hget : Checked.getAt (embed d) (p : Nat) = .ok (fin (d p)) := by
    rw [Checked.getAt_eq_ok, (numbers_embed d).getElem? p.isLt, coord_embed]
  have hz : ¬((fin (d p) : Extended K) == 0) = true := by
    rw [zero_eq, fin_beq, decide_eq_true_iff]
    exact hd
  have hrows : f.rows = rowsOf W := Except.ok.inj h.rows
  have hu : (explicit f).update p (embed d) = .ok (explicit { f with
      rows := ExplicitInverse.reduce f.rows p (fin (d p)) (embed d)
      exchanges := f.exchanges + 1 }) := by
    rw [BasisInverse.update, requirePosition h.size, requireSize_embed h.size]
    show (f.update p (embed d) >>= fun g => Except.ok (explicit g)) = _
    rw [ExplicitInverse.update, hget, Checked.ok_bind, Checked.require_of hz, Checked.ok_bind,
      ExplicitInverse.reduce?_eq (by rw [hrows, length_rowsOf]; exact p.isLt)
        (by rw [hrows, length_embed, length_rowsOf])]
    rfl
  -- one sweep over the rows is multiplication by the inverse of the eta matrix
  refine ⟨_, hu, represents_explicit ?_⟩
  show ExplicitInverse.reduce f.rows p (fin (d p)) (embed d) = _
  rw [hrows, ExplicitInverse.reduce_eq hd]

/-- **An exchange with a nonzero pivot entry succeeds** and sweeps over the inverse. -/
theorem Represents.update {f : BasisInverse (Extended K)} {W : Matrix (Fin m) (Fin m) K}
    (h : f.Represents W) {p : Fin m} {d : Fin m → K} (hd : d p ≠ 0) :
    ∃ g, f.update p (embed d) = .ok g ∧ g.Represents (etaInverse p (f.considered p d) * W) := by
  cases f with
  | product f => exact h.update_product hd
  | explicit f => exact h.update_explicit hd

/-- **An exchange keeps the inverse the inverse of the basis.** -/
theorem Represents.exchange {f : BasisInverse (Extended K)} {B : Matrix (Fin m) (Fin m) K}
    (hB : IsUnit B) (h : f.Represents B⁻¹) {p : Fin m} {d : Fin m → K} (hd : d p ≠ 0)
    (hc : f.Considers p d) :
    IsUnit (B.updateCol p (B *ᵥ d))
      ∧ ∃ g, f.update p (embed d) = .ok g ∧ g.Represents (B.updateCol p (B *ᵥ d))⁻¹ := by
  obtain ⟨hu, hinv⟩ := updateCol_mulVec_inv hB hd
  obtain ⟨g, hg, hrep⟩ := h.update hd
  refine ⟨hu, g, hg, ?_⟩
  rw [considered_eq hc] at hrep
  rwa [hinv]

end BasisInverse

end BoundedSimplex
