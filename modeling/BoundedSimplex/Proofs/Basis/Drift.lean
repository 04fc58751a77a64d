/-
  BoundedSimplex.Proofs.Basis.Drift — solving from either side after arbitrary exchanges.

  Nothing makes sure that the column of an exchange is the one that the basis needs, and the product
  form leaves out its negligible entries.  So what a representation stands for drifts away from the
  inverse of the basis.  But it drifts for both sides alike: there is one matrix that both solves
  multiply with, and costs do not depend on the side from which they are computed.

  Main results:
    * `represents_product_identity` — the factors of the identity leave every right-hand side alone;
    * `Drifted.exists_represents` — the matrix of a representation with any past;
    * `Represents.price_eq` — costs from multipliers and costs from the columns of the tableau;
    * `solves_adjoint` — the two solves after any past.
-/
import BoundedSimplex.Pricing
import BoundedSimplex.Proofs.Basis.Inverse
import BoundedSimplex.Proofs.Linear.SystemMatrix
import Mathlib.Algebra.Field.Rat
import Mathlib.Algebra.Order.Ring.Rat

namespace BoundedSimplex

open Extended Matrix

variable {K : Type} [Field K] [LinearOrder K] {m : Nat}

/-! ## §1.  The identity -/

namespace TriangularFactors

/-- The unit vectors are listed in order. -/
theorem getElem?_units {i : Nat} (hi : i < m) :
    ((List.range m).map (Scalar.unit m : Nat → List (Extended K)))[i]?
      = some (Scalar.unit m i) := by
  simp [hi]

/-- The rows of the identity. -/
theorem cell_units {i : Nat} (hi : i < m) (j : Nat) :
    cell ((List.range m).map (Scalar.unit m : Nat → List (Extended K))) i j
      = if j = i then 1 else 0 := by
  rw [cell_of_getElem? (getElem?_units hi), coord_unit hi]

/-- Both factors of the identity are the identity. -/
theorem factored_identity (m : Nat) :
    Factored (fun i j => if j = i then (1 : K) else 0) m (identity m) where
  square := .of_getElem? (by simp [identity]) fun i hi => ⟨_, getElem?_units hi, .unit m i⟩
  order := by rfl
  pivots i hi := by
    show cell ((List.range m).map (Scalar.unit m)) i i ≠ 0
    rw [cell_units hi, if_pos rfl]
    exact one_ne_zero
  product i hi j hj := by
    have horder : (identity m : TriangularFactors (Extended K)).order.getD i 0 = i := by
      simp [identity, hi]
    have hlower (l : Nat) : lower ((List.range m).map (Scalar.unit m)) i l
        = if l = i then (1 : K) else 0 := by
      unfold lower
      rw [cell_units hi]
      split_ifs <;> rfl
    have hupper : upper ((List.range m).map (Scalar.unit m)) i j
      = if j = i then (1 : K) else 0 := by
      unfold upper
      rw [cell_units hi]
      split_ifs <;> first | rfl | omega
    show (if j = _ then (1 : K) else 0)
      = ∑ l ∈ Finset.range m, lower ((List.range m).map (Scalar.unit m)) i l
          * upper ((List.range m).map (Scalar.unit m)) l j + _
    have hdone : ¬(m ≤ i ∧ m ≤ j) := by omega
    -- row `i` of the lower factor meets the upper one on the diagonal only
    rw [horder, if_neg hdone, add_zero, Finset.sum_eq_single i]
    · rw [hlower, if_pos rfl, one_mul, hupper]
    · intro l _ hl
      rw [hlower, if_neg hl, zero_mul]
    · intro hmem
      exact absurd (Finset.mem_range.mpr hi) hmem

/-- Factors of the identity give a column back as it is. -/
theorem solveColumn_identity {y : List (Extended K)} (hy : Numbers m y) :
    (identity m).solveColumn y = y := by
  obtain ⟨hn, hx⟩ := solveColumn_spec (factored_identity m) hy
  apply hn.ext hy
  intro i hi
  rw [← hx i hi, Finset.sum_eq_single i]
  · rw [if_pos rfl, one_mul]
  · intro j _ hj
    rw [if_neg hj, zero_mul]
  · intro hmem
    exact absurd (Finset.mem_range.mpr hi) hmem

/-- And so they do with a row. -/
theorem solveRow_identity {y : List (Extended K)} (hy : Numbers m y) :
    (identity m).solveRow y = y := by
  obtain ⟨hn, hx⟩ := solveRow_spec (factored_identity m) hy
  apply hn.ext hy
  intro j hj
  rw [← hx j hj, Finset.sum_eq_single j]
  · rw [if_pos rfl, mul_one]
  · intro i _ hi
    rw [if_neg (Ne.symm hi), mul_zero]
  · intro hmem
    exact absurd (Finset.mem_range.mpr hj) hmem

end TriangularFactors

namespace BasisInverse

/-- The product form starts out as the inverse of the identity. -/
theorem represents_product_identity (m threshold : Nat) :
    (product (.identity m threshold)).Represents (1 : Matrix (Fin m) (Fin m) K) := by
  have hshaped := shaped_product_identity (α := Extended K) m threshold
  have hsize : (ProductForm.identity m threshold : ProductForm (Extended K)).size = m :=
    TriangularFactors.size_identity m
  have hlength (y : Fin m → K) : (embed y).length = m := length_embed y
  refine represents_product hsize (fun y => ?_) fun y => ?_
  · rw [one_mulVec, (ProductForm.Shaped.solveColumn?_eq hshaped ((hlength y).trans hsize.symm)).1]
    exact congrArg Except.ok (TriangularFactors.solveColumn_identity (numbers_embed y))
  · rw [vecMul_one, (ProductForm.Shaped.solveRow?_eq hshaped ((hlength y).trans hsize.symm)).1]
    exact congrArg Except.ok (TriangularFactors.solveRow_identity (numbers_embed y))

/-- And so does the explicit inverse. -/
theorem represents_explicit_identity (m threshold : Nat) :
    (explicit (.identity m threshold)).Represents (1 : Matrix (Fin m) (Fin m) K) := by
  refine represents_explicit ?_
  have hunits := map_range_unit id (1 : Matrix (Fin m) (Fin m) K) fun y => by rw [vecMul_one]; rfl
  exact hunits

/-! ## §2.  Representations with any past -/

/-- A representation of `m` rows that started from the identity or from columns that were accepted,
    and was told of exchanges since, whatever their columns. -/
inductive Drifted (m : Nat) : BasisInverse (Extended K) → Prop
  | product (threshold : Nat) : Drifted m (.product (.identity m threshold))
  | explicit (threshold : Nat) : Drifted m (.explicit (.identity m threshold))
  | refreshed {f g : BasisInverse (Extended K)} {columns : List (List (Extended K))}
      (length : columns.length = m) (finite : Finite columns)
      (accepted : f.startOver columns = .ok (.ok (), g)) : Drifted m g
  | exchanged {f g : BasisInverse (Extended K)} {p : Nat} {column : List (Extended K)}
      (before : Drifted m f) (finite : ∀ x ∈ column, Scalar.isFinite x = true)
      (updated : f.update p column = .ok g) : Drifted m g

/-- What an exchange asks for. -/
theorem of_update_eq_ok {f g : BasisInverse (Extended K)} {p : Nat} {column : List (Extended K)}
    (h : f.update p column = .ok g) :
    p < f.size ∧ column.length = f.size ∧ ∃ x, column[p]? = some x ∧ ¬(x == 0) = true := by
  obtain ⟨_, hp, h⟩ := Checked.bind_eq_ok.mp h
  obtain ⟨_, hlength, h⟩ := Checked.bind_eq_ok.mp h
  refine ⟨Checked.require_eq_ok.mp hp, Checked.require_eq_ok.mp hlength, ?_⟩
  -- either kind reads the pivot entry and refuses a zero
  cases f with
  | product f =>
    obtain ⟨_, h, -⟩ := Checked.bind_eq_ok.mp h
    obtain ⟨e, he, -⟩ := Checked.bind_eq_ok.mp h
    obtain ⟨x, hx, he⟩ := Checked.bind_eq_ok.mp he
    obtain ⟨_, hne, -⟩ := Checked.bind_eq_ok.mp he
    exact ⟨x, Checked.getAt_eq_ok.mp hx, Checked.require_eq_ok.mp hne⟩
  | explicit f =>
    obtain ⟨_, h, -⟩ := Checked.bind_eq_ok.mp h
    obtain ⟨x, hx, h⟩ := Checked.bind_eq_ok.mp h
    obtain ⟨_, hne, -⟩ := Checked.bind_eq_ok.mp h
    exact ⟨x, Checked.getAt_eq_ok.mp hx, Checked.require_eq_ok.mp hne⟩

/-- **An exchange that was accepted** sweeps over the matrix with the entries that count. -/
theorem Represents.of_update {f g : BasisInverse (Extended K)} {W : Matrix (Fin m) (Fin m) K}
    (h : f.Represents W) {p : Nat} {column : List (Extended K)}
    (hfin : ∀ x ∈ column, Scalar.isFinite x = true) (hg : f.update p column = .ok g) :
    ∃ i : Fin m, (i : Nat) = p
      ∧ g.Represents (etaInverse i (f.considered i fun k => coord column k) * W) := by
  obtain ⟨hp, hlength, x, hx, hne⟩ := of_update_eq_ok hg
  rw [h.size] at hp hlength
  have hcolumn : Numbers m column := ⟨hlength, hfin⟩
  have hpivot : coord column p ≠ 0 := by
    rw [hcolumn.getElem? hp] at hx
    cases hx
    rwa [zero_eq, fin_beq, decide_eq_true_iff] at hne
  obtain ⟨g', hg', hrep⟩ := h.update (p := ⟨p, hp⟩) (d := fun i => coord column i) hpivot
  rw [← hcolumn.eq_embed, hg] at hg'
  cases hg'
  exact ⟨⟨p, hp⟩, rfl, hrep⟩

variable [IsStrictOrderedRing K]

/-- **There is a matrix that a representation stands for**, whatever it was told of. -/
theorem Drifted.exists_represents {f : BasisInverse (Extended K)} (h : Drifted m f) :
    ∃ W : Matrix (Fin m) (Fin m) K, f.Represents W := by
  induction h with
  | product threshold => exact ⟨1, represents_product_identity m threshold⟩
  | explicit threshold => exact ⟨1, represents_explicit_identity m threshold⟩
  | refreshed length finite accepted =>
    exact ⟨_, (represents_of_refresh length finite (startOver_eq_ok_iff.mp accepted)).2⟩
  | exchanged before finite updated ih =>
    obtain ⟨W, hW⟩ := ih
    obtain ⟨i, -, hrep⟩ := hW.of_update finite updated
    exact ⟨_, hrep⟩

end BasisInverse

/-! ## §3.  Costs from either side -/

/-- The reduced costs, each one from the column of the tableau: `-(c · B⁻¹ A_v)`. -/
def Pricing.priceByColumns {α : Type} [Scalar α] (view : Pricing.View α) (basicCosts : List α) :
    Checked (List α) :=
  view.nonBasic.mapM fun v => do
    return -(Scalar.dot basicCosts (← view.inverse.solveColumn (← view.matrix.column v)))

/-- **Costs from multipliers** are the costs from the columns of the tableau. -/
theorem BasisInverse.Represents.price_eq {view : Pricing.View (Extended K)}
    {W : Matrix (Fin m) (Fin m) K} (h : view.inverse.Represents W)
    (hmatrix : view.matrix.WellFormed) (hrows : view.matrix.rowCount = m)
    (hvars : ∀ v ∈ view.nonBasic, v < view.matrix.columnCount) (c : Fin m → K) :
    ∃ costs, Pricing.price view (embed c) = .ok costs
      ∧ Pricing.priceByColumns view (embed c) = .ok costs := by
  subst hrows
  -- both kinds of costs are products with column `v` of the matrix
  have hcolumn (v : Nat) (hv : v ∈ view.nonBasic) : (do
      return -(← (← view.matrix.sparseColumn v).dot (embed (c ᵥ* W))) : Checked (Extended K))
        = .ok (-fin (c ᵥ* W ⬝ᵥ fun i => view.matrix.coeff i v)) := by
    obtain ⟨column, hcolumn, hrep⟩ := hmatrix.sparseColumn_eq (hvars v hv)
    have hdot := hrep.dot_eq (numbers_embed (c ᵥ* W))
    rw [hcolumn, Checked.ok_bind, hdot, Finset.sum_range]
    simp only [coord_embed]
    rw [dotProduct_comm]
    rfl
  have hrow (v : Nat) (hv : v ∈ view.nonBasic) : (do
      return -(Scalar.dot (embed c) (← view.inverse.solveColumn (← view.matrix.column v)))
        : Checked (Extended K))
        = .ok (-fin (c ᵥ* W ⬝ᵥ fun i => view.matrix.coeff i v)) := by
    obtain ⟨column, hcolumn, hn, hcoord⟩ := hmatrix.column_eq (hvars v hv)
    have hcoeff : (fun i : Fin view.matrix.rowCount => coord column i)
        = fun i : Fin view.matrix.rowCount => view.matrix.coeff i v := funext fun i => hcoord i
    rw [hcolumn, Checked.ok_bind, hn.eq_embed, h.column, Checked.ok_bind, hcoeff,
      ExplicitInverse.dot_embed, dotProduct_mulVec]
    rfl
  refine ⟨view.nonBasic.map fun v => -fin (c ᵥ* W ⬝ᵥ fun i => view.matrix.coeff i v), ?_, ?_⟩
  · rw [Pricing.price, h.row, Checked.ok_bind]
    exact Checked.mapM_eq_ok hcolumn
  · exact Checked.mapM_eq_ok hrow

namespace BasisInverse

variable [IsStrictOrderedRing K]

/-- **The two solves always use one and the same matrix**, which is the one whose rows are given
    out, whatever columns the representation was told of and whichever of their entries it left
    out.  So it makes no difference from which side a product is computed, nor are there two kinds
    of reduced costs.  Any further exchange whose pivot entry is not zero is accepted and sweeps
    over that matrix with the entries that count. -/
theorem solves_adjoint {f : BasisInverse (Extended K)} (h : Drifted m f) :
    ∃ W : Matrix (Fin m) (Fin m) K, f.rows = .ok (rowsOf W)
      ∧ (∀ y, f.solveColumn (embed y) = .ok (embed (W *ᵥ y)))
      ∧ (∀ y, f.solveRow (embed y) = .ok (embed (y ᵥ* W)))
      ∧ (∀ y z : Fin m → K, ∃ x w, f.solveRow (embed y) = .ok x ∧ f.solveColumn (embed z) = .ok w
          ∧ Scalar.dot x (embed z) = Scalar.dot (embed y) w)
      ∧ (∀ view : Pricing.View (Extended K), view.inverse = f → view.matrix.WellFormed →
          view.matrix.rowCount = m → (∀ v ∈ view.nonBasic, v < view.matrix.columnCount) →
            ∀ c : Fin m → K, ∃ costs, Pricing.price view (embed c) = .ok costs
              ∧ Pricing.priceByColumns view (embed c) = .ok costs)
      ∧ ∀ (p : Fin m) (d : Fin m → K), d p ≠ 0 → ∃ g, f.update p (embed d) = .ok g ∧ Drifted m g
          ∧ g.rows = .ok (rowsOf (etaInverse p (f.considered p d) * W)) := by
  obtain ⟨W, hW⟩ := h.exists_represents
  -- everything follows from `W` being the same for rows and columns
  refine ⟨W, hW.rows, hW.column, hW.row, ?_, ?_, ?_⟩
  · intro y z
    refine ⟨_, _, hW.row y, hW.column z, ?_⟩
    rw [ExplicitInverse.dot_embed, ExplicitInverse.dot_embed, dotProduct_mulVec]
  · rintro view rfl hmatrix hrows hvars c
    exact hW.price_eq hmatrix hrows hvars c
  · intro p d hd
    obtain ⟨g, hg, hrep⟩ := hW.update hd
    exact ⟨g, hg, h.exchanged (numbers_embed d).finite hg, hrep.rows⟩

/-- The entry beside the pivot is left out, so this is not the inverse of
    `!![2, 0; 1 / 10 ^ 11, 1]`; but both solves leave it out. -/
theorem adjoint_without_tiny_entry : ∃ f : BasisInverse (Extended ℚ),
    (product (.identity 2 10)).update 0 [fin 2, fin (1 / 10 ^ 11)] = .ok f
      ∧ f.rows = .ok [[fin (1 / 2), fin 0], [fin 0, fin 1]]
      ∧ ∀ y z : Fin 2 → ℚ, ∃ x w, f.solveRow (embed y) = .ok x ∧ f.solveColumn (embed z) = .ok w
          ∧ Scalar.dot x (embed z) = Scalar.dot (embed y) w := by
  have hrun : ((product (.identity 2 10)).update 0 [fin (2 : ℚ), fin (1 / 10 ^ 11)]).toOption.bind
      (·.rows.toOption) = some [[fin (1 / 2), fin 0], [fin 0, fin 1]] := by decide +kernel
  cases hf : (product (.identity 2 10)).update 0 [fin (2 : ℚ), fin (1 / 10 ^ 11)] with
  | error cause =>
    rw [hf] at hrun
    cases hrun
  | ok f =>
    rw [hf] at hrun
    -- one update takes the identity to `f`, with the small entry dropped
    have hdrifted : Drifted 2 f :=
      .exchanged (.product 10) (by decide +kernel) hf
    obtain ⟨W, hrows, -, -, hadjoint, -⟩ := solves_adjoint hdrifted
    refine ⟨f, rfl, ?_, hadjoint⟩
    change f.rows.toOption = _ at hrun
    rw [hrows] at hrun ⊢
    exact congrArg Except.ok (Option.some.inj hrun)

end BasisInverse

end BoundedSimplex
