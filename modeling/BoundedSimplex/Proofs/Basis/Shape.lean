/-
  BoundedSimplex.Proofs.Basis.Shape — the sizes of the parts of a basis inverse.

  Whatever the numbers are, a representation of the inverse of `m` columns answers with `m`
  numbers.  For the factors that takes a square, an order that names its rows, and eta columns that
  fit to it; for the written-out inverse it takes as many entries in every row as there are rows.
  Both are kept by every exchange and established by a fresh start.  In that shape no step looks for
  a position that is not there.

  Main results:
    * `Shaped.exists_solveColumn`, `Shaped.exists_solveRow` — every system of the right
      size has an answer;
    * `Shaped.solveColumn`, `Shaped.solveRow` — the sizes of the solutions;
    * `Shaped.update`, `shaped_of_refresh` — exchanges and fresh starts;
    * `startOver_eq` — a fresh start takes the new representation or keeps the old one;
    * `refresh_error_iff` — whether a fresh start is turned down depends on the columns alone.
-/
import BoundedSimplex.Proofs.Basis.Positions

namespace BoundedSimplex

variable {α : Type} [Scalar α]

/-! ## §1.  The written-out inverse -/

namespace ExplicitInverse

/-- An exchange looks for the pivot row, and for a row per entry of the column. -/
theorem reduce?_eq {rows : List (List α)} {i : Nat} (hi : i < rows.length) {c : α} {column : List α}
    (hc : column.length = rows.length) :
    reduce? rows i c column = .ok (reduce rows i c column) := by
  unfold reduce? reduce
  rw [Checked.getAt_eq_getD hi [], Checked.ok_bind, Checked.zip?_eq hc.le,
    ← List.zip_swap rows column]
  refine congrArg Except.ok (List.ext_getElem? fun k => ?_)
  rw [List.getElem?_mapIdx, List.getElem?_mapIdx, List.getElem?_map]
  cases (rows.zip column)[k]? with
  | none => rfl
  | some p => rfl

/-- A sweep over the rows leaves a square. -/
theorem squareRows_reduce {rows : List (List α)} (h : SquareRows rows) {i : Nat}
    (hi : i < rows.length) {c : α} {column : List α} (hc : column.length = rows.length) :
    SquareRows (reduce rows i c column) ∧ (reduce rows i c column).length = rows.length := by
  have hlen : (reduce rows i c column).length = rows.length := by
    rw [reduce, List.length_mapIdx, List.length_zip, hc, Nat.min_self]
  have hpivot := (h.getD hi).2
  refine ⟨fun row hrow => ?_, hlen⟩
  rw [hlen]
  rw [reduce, List.mem_mapIdx] at hrow
  obtain ⟨k, hk, rfl⟩ := hrow
  have hold : ((rows.zip column)[k]).1.length = rows.length :=
    h _ (List.of_mem_zip (List.getElem_mem hk)).1
  -- the pivot row is scaled, the other rows are kept or lowered by a multiple of it
  dsimp only
  unfold reduceRow
  split
  · rw [List.length_map, hpivot]
  · split
    · exact hold
    · rw [List.length_zipWith, List.length_map, hold, hpivot, Nat.min_self]

theorem length_solveRow {f : ExplicitInverse α} (h : SquareRows f.rows) (y : List α) :
    (f.solveRow y).length = f.size := by
  have hps : ∀ p ∈ f.rows.zip y, p.1.length = f.size := fun p hp => h p.1 (List.of_mem_zip hp).1
  have hx : (Scalar.zeros f.size : List α).length = f.size := Scalar.length_zeros _
  unfold solveRow
  generalize f.rows.zip y = ps at hps ⊢
  generalize (Scalar.zeros f.size : List α) = x at hx ⊢
  induction ps generalizing x with
  | nil => exact hx
  | cons p ps ih =>
    refine ih (fun q hq => hps q (List.mem_cons_of_mem _ hq)) _ ?_
    dsimp only
    split
    · exact hx
    · rw [addMultiple, List.length_zipWith, hx, hps p List.mem_cons_self, Nat.min_self]

/-- A fresh start takes the new rows or keeps the old ones. -/
theorem startOver_eq (f : ExplicitInverse α) (columns : List (List α)) :
    f.startOver columns = .ok (match f.refresh columns with
      | .ok g => (.ok (), g)
      | .error cause => (.error cause, f)) := by
  unfold startOver refresh
  rw [TriangularFactors.ofColumns?_eq]
  cases hfac : TriangularFactors.ofColumns columns with
  | error cause => rfl
  | ok factors =>
    obtain ⟨hshaped, hsize⟩ := TriangularFactors.shaped_of_ofColumns hfac
    have hrows : (List.range columns.length).mapM
          (fun i => factors.solveRow? (Scalar.unit columns.length i))
        = .ok ((List.range columns.length).map fun i =>
            factors.solveRow (Scalar.unit columns.length i)) :=
      Checked.mapM_eq_ok fun i _ => hshaped.solveRow?_eq ((Scalar.length_unit _ i).trans hsize.symm)
    rw [Checked.ok_bind]
    dsimp only
    rw [hrows]
    rfl

end ExplicitInverse

/-! ## §2.  Factors and eta columns -/

namespace ProductForm

/-- The factors are in shape, and every eta column fits to them. -/
structure Shaped (f : ProductForm α) : Prop where
  factors : f.factors.Shaped
  etas : ∀ e ∈ f.etas, e.Fits f.size

variable {f : ProductForm α} {y : List α}

/-- The eta columns change no length, and each of them finds the positions that it looks for. -/
theorem Shaped.solveColumn?_eq (h : f.Shaped) (hy : y.length = f.size) :
    f.solveColumn? y = .ok (f.solveColumn y) ∧ (f.solveColumn y).length = f.size := by
  unfold solveColumn? solveColumn
  rw [h.factors.solveColumn?_eq hy, Checked.ok_bind]
  refine Checked.foldlM_eq_ok (P := fun x : List α => x.length = f.size) ?_
    (TriangularFactors.length_solveColumn h.factors.length y)
  intro e he x hx
  exact ⟨(h.etas e he).solveColumn?_eq hx, (e.length_solveColumn x).trans hx⟩

/-- A row that is long enough is solved for, whatever the eta columns. -/
theorem Shaped.solveRow?_eq (h : f.Shaped) (hy : y.length = f.size) :
    f.solveRow? y = .ok (f.solveRow y) ∧ (f.solveRow y).length = f.size := by
  have hstep : ∀ e ∈ f.etas, ∀ x : List α, x.length = f.size →
      e.solveRow? x = .ok (e.solveRow x) ∧ (e.solveRow x).length = f.size :=
    fun e he x hx => ⟨(h.etas e he).solveRow?_eq hx, (e.length_solveRow x).trans hx⟩
  obtain ⟨hsweeps, hlen⟩ := Checked.foldrM_eq_ok hstep hy
  unfold solveRow? solveRow
  rw [hsweeps, Checked.ok_bind]
  exact ⟨h.factors.solveRow?_eq hlen,
    (TriangularFactors.length_solveRow _ _).trans h.factors.length⟩

/-- A fresh start takes the new factors or keeps the old ones. -/
theorem startOver_eq (f : ProductForm α) (columns : List (List α)) :
    f.startOver columns = .ok (match f.refresh columns with
      | .ok g => (.ok (), g)
      | .error cause => (.error cause, f)) := by
  unfold startOver refresh
  rw [TriangularFactors.ofColumns?_eq]
  cases TriangularFactors.ofColumns columns with
  | error cause => rfl
  | ok factors => rfl

end ProductForm

/-! ## §3.  Both representations -/

namespace BasisInverse

/-- The parts of the representation fit together. -/
def Shaped : BasisInverse α → Prop
  | product f => f.Shaped
  | explicit f => SquareRows f.rows

theorem shaped_product_identity (m threshold : Nat) :
    (product (.identity m threshold) : BasisInverse α).Shaped :=
  ⟨TriangularFactors.shaped_identity m, fun _ h => absurd h List.not_mem_nil⟩

theorem shaped_explicit_identity (m threshold : Nat) :
    (explicit (.identity m threshold) : BasisInverse α).Shaped :=
  TriangularFactors.squareRows_units m

variable {f g : BasisInverse α} {x y : List α}

/-- **A system of the right size has an answer**, and that has the right size. -/
theorem Shaped.exists_solveColumn (hf : f.Shaped) (hy : y.length = f.size) :
    ∃ x, f.solveColumn y = .ok x ∧ x.length = f.size := by
  unfold BasisInverse.solveColumn requireSize
  rw [Checked.require_of hy, Checked.ok_bind]
  cases f with
  | product f => exact ⟨_, ProductForm.Shaped.solveColumn?_eq hf hy⟩
  | explicit f => exact ⟨_, rfl, List.length_map _⟩

/-- The backward solve does not end for a vector of the right size. -/
theorem Shaped.exists_solveRow (hf : f.Shaped) (hy : y.length = f.size) :
    ∃ x, f.solveRow y = .ok x ∧ x.length = f.size := by
  unfold BasisInverse.solveRow requireSize
  rw [Checked.require_of hy, Checked.ok_bind]
  cases f with
  | product f => exact ⟨_, ProductForm.Shaped.solveRow?_eq hf hy⟩
  | explicit f => exact ⟨_, rfl, ExplicitInverse.length_solveRow hf y⟩

/-- Other sizes have none. -/
theorem length_of_solveColumn (h : f.solveColumn y = .ok x) : y.length = f.size :=
  Checked.require_eq_ok.mp (Checked.bind_eq_ok.mp h).choose_spec.1

theorem length_of_solveRow (h : f.solveRow y = .ok x) : y.length = f.size :=
  Checked.require_eq_ok.mp (Checked.bind_eq_ok.mp h).choose_spec.1

/-- A forward solve that did not end had a vector of the right size. -/
theorem Shaped.solveColumn (hf : f.Shaped) (h : f.solveColumn y = .ok x) :
    y.length = f.size ∧ x.length = f.size := by
  have hy := length_of_solveColumn h
  obtain ⟨x', hx', hlen⟩ := hf.exists_solveColumn hy
  cases h.symm.trans hx'
  exact ⟨hy, hlen⟩

/-- A backward solve that did not end had a vector of the right size. -/
theorem Shaped.solveRow (hf : f.Shaped) (h : f.solveRow y = .ok x) :
    y.length = f.size ∧ x.length = f.size := by
  have hy := length_of_solveRow h
  obtain ⟨x', hx', hlen⟩ := hf.exists_solveRow hy
  cases h.symm.trans hx'
  exact ⟨hy, hlen⟩

/-- An exchange keeps the size. -/
theorem Shaped.update (hf : f.Shaped) {i : Nat} {column : List α} (h : f.update i column = .ok g) :
    g.Shaped ∧ g.size = f.size := by
  obtain ⟨_, hi, h⟩ := Checked.bind_eq_ok.mp h
  obtain ⟨_, hc, h⟩ := Checked.bind_eq_ok.mp h
  have hi := Checked.require_eq_ok.mp hi
  have hc := Checked.require_eq_ok.mp hc
  cases f with
  | product f =>
    obtain ⟨f', hf', h⟩ := Checked.bind_eq_ok.mp h
    obtain ⟨eta, heta, hf'⟩ := Checked.bind_eq_ok.mp hf'
    cases hf'
    cases h
    refine ⟨⟨hf.factors, fun e he => ?_⟩, rfl⟩
    -- the new eta column has the length of the change column, which was checked
    rcases List.mem_append.mp he with he | he
    · exact hf.etas e he
    · obtain rfl := List.mem_singleton.mp he
      have hfits := EtaColumn.fits_ofColumn heta
      rwa [hc] at hfits
  | explicit f =>
    obtain ⟨f', hf', h⟩ := Checked.bind_eq_ok.mp h
    obtain ⟨c, -, hf'⟩ := Checked.bind_eq_ok.mp hf'
    obtain ⟨_, _, hf'⟩ := Checked.bind_eq_ok.mp hf'
    rw [ExplicitInverse.reduce?_eq hi hc, Checked.ok_bind] at hf'
    cases hf'
    cases h
    exact ExplicitInverse.squareRows_reduce hf hi hc

/-- An exchange with a column of the right size goes through unless its pivot is zero. -/
theorem Shaped.exists_update (hf : f.Shaped) {i : Nat} {column : List α} (hi : i < f.size)
    (hc : column.length = f.size) {pivot : α} (hp : column[i]? = some pivot)
    (hne : ¬(pivot == 0) = true) : ∃ g, f.update i column = .ok g := by
  have hpivot : Checked.getAt column i = .ok pivot := Checked.getAt_eq_ok.mpr hp
  unfold BasisInverse.update requireSize
  rw [Checked.require_of hi, Checked.ok_bind, Checked.require_of hc, Checked.ok_bind]
  cases f with
  | product f =>
    dsimp only
    unfold ProductForm.update EtaColumn.ofColumn
    rw [hpivot, Checked.ok_bind, Checked.require_of hne, Checked.ok_bind]
    exact ⟨_, rfl⟩
  | explicit f =>
    dsimp only
    unfold ExplicitInverse.update
    rw [hpivot, Checked.ok_bind, Checked.require_of hne, Checked.ok_bind,
      ExplicitInverse.reduce?_eq hi hc]
    exact ⟨_, rfl⟩

/-- **A fresh start** takes the new representation, or keeps the old one if the columns have
    no usable inverse. -/
theorem startOver_eq (f : BasisInverse α) (columns : List (List α)) :
    f.startOver columns = .ok (match f.refresh columns with
      | .ok g => (.ok (), g)
      | .error cause => (.error cause, f)) := by
  cases f with
  | product f =>
    unfold startOver refresh
    dsimp only
    rw [ProductForm.startOver_eq]
    cases f.refresh columns with
    | error cause => rfl
    | ok g => rfl
  | explicit f =>
    unfold startOver refresh
    dsimp only
    rw [ExplicitInverse.startOver_eq]
    cases f.refresh columns with
    | error cause => rfl
    | ok g => rfl

/-- A fresh start that goes through. -/
theorem startOver_eq_ok_iff {columns : List (List α)} :
    f.startOver columns = .ok (.ok (), g) ↔ f.refresh columns = .ok g := by
  rw [startOver_eq]
  cases f.refresh columns with
  | error cause => simp
  | ok g' => simp

/-- A fresh start that is turned down. -/
theorem startOver_eq_error_iff {columns : List (List α)} {cause : FactorizationFailure} :
    f.startOver columns = .ok (.error cause, g) ↔ f.refresh columns = .error cause ∧ f = g := by
  rw [startOver_eq]
  cases f.refresh columns with
  | error cause' => simp
  | ok g' => simp

/-- A fresh start has the size of the columns it starts from. -/
theorem shaped_of_refresh {columns : List (List α)} (h : f.refresh columns = .ok g) :
    g.Shaped ∧ g.size = columns.length := by
  cases f with
  | product f =>
    rw [refresh, ProductForm.refresh] at h
    cases hfac : TriangularFactors.ofColumns columns with
    | error e =>
      rw [hfac] at h
      cases h
    | ok factors =>
      rw [hfac] at h
      cases h
      have ⟨hshaped, hsize⟩ := TriangularFactors.shaped_of_ofColumns hfac
      exact ⟨⟨hshaped, fun _ he => absurd he List.not_mem_nil⟩, hsize⟩
  | explicit f =>
    rw [refresh, ExplicitInverse.refresh] at h
    cases hfac : TriangularFactors.ofColumns columns with
    | error e =>
      rw [hfac] at h
      cases h
    | ok factors =>
      rw [hfac] at h
      cases h
      have ⟨hshaped, hsize⟩ := TriangularFactors.shaped_of_ofColumns hfac
      -- the explicit inverse has a row for each column
      have hlen : ((List.range columns.length).map fun i =>
          factors.solveRow (Scalar.unit columns.length i)).length = columns.length := by
        rw [List.length_map, List.length_range]
      refine ⟨fun row hrow => ?_, hlen⟩
      obtain ⟨i, -, rfl⟩ := List.mem_map.mp hrow
      rw [hlen]
      exact (TriangularFactors.length_solveRow _ _).trans (hshaped.length.trans hsize)

/-- The columns are turned down or not, whatever represents the inverse so far. -/
theorem refresh_error_iff {columns : List (List α)} {cause : FactorizationFailure} :
    f.refresh columns = .error cause ↔ TriangularFactors.ofColumns columns = .error cause := by
  cases hfac : TriangularFactors.ofColumns columns with
  | error e =>
    cases f with
    | product f =>
      simp only [refresh, ProductForm.refresh, hfac, bind, Except.bind, Except.map,
        Except.error.injEq]
    | explicit f =>
      simp only [refresh, ExplicitInverse.refresh, hfac, bind, Except.bind, Except.map,
        Except.error.injEq]
  | ok factors =>
    cases f with
    | product f =>
      simp only [refresh, ProductForm.refresh, hfac, bind, Except.bind, Except.map, pure,
        Except.pure, reduceCtorEq]
    | explicit f =>
      simp only [refresh, ExplicitInverse.refresh, hfac, bind, Except.bind, Except.map, pure,
        Except.pure, reduceCtorEq]

end BasisInverse

end BoundedSimplex
