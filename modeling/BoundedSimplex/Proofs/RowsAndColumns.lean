/-
  BoundedSimplex.Proofs.RowsAndColumns — the row of a basic variable and the change columns agree.

  The row of a basic variable comes from the row of the inverse and the sparse columns of the
  matrix; a change column comes from the inverse and a dense column.  Both are read off the same
  product of the inverse and the matrix, so an entry of the row is the negative of the entry of
  the change column.  The row is an equation that follows from those of the tableau, whatever
  numbers solve them.

  The two forms of a column are the same in every run: whatever is done, no operation writes into
  one of them alone.

  Main results:
    * `Operated.coherent` — the forms of the matrix agree after every run;
    * `Represented.solvedRow_eq` — the row of a basic variable, computed;
    * `solved_row_and_change_columns` — its equation, and its coefficients by the change columns.
-/
import BoundedSimplex.Proofs.Session
import BoundedSimplex.Proofs.Tableau.Anchored
import BoundedSimplex.Proofs.Tableau.Following

namespace BoundedSimplex

open Extended Matrix

/-! ## §1.  The forms of a matrix -/

variable {K : Type} [Field K] [LinearOrder K]

/-- Forms that agree and hold finite numbers are those of a matrix over the field. -/
theorem SystemMatrix.Coherent.wellFormed {a : SystemMatrix (Extended K)} (h : a.Coherent)
    (hfin : ∀ x ∈ a.dense, Scalar.isFinite x = true) : a.WellFormed := by
  obtain ⟨A, hA⟩ := h
  have hnumbers : Numbers (a.columnCount * a.rowCount) a.dense := ⟨hA.dense.length, hfin⟩
  refine represents_iff.mpr (hA.congr_eq fun i hi j hj => ?_)
  have hentry := hA.dense.of_getElem? hi hj (hnumbers.getElem? (place_lt hi hj))
  rw [coeff, if_pos hi]
  exact (eq_of_matches hentry).symm

/-- **The forms of the matrix agree after every run.** -/
theorem Tableau.Operated.coherent {α : Type} [Scalar α] [LawfulZero α] {kind : StepKind α}
    {t : Tableau α} (h : Operated kind t) : t.matrix.Coherent := h.anchored.coherent

variable {t : Tableau (Extended K)}

namespace Tableau

/-! ## §2.  The row of a basic variable -/

/-- The matrix and the split are in order, and the representation stands for the inverse of the
    basis.  Nothing is asked of the right-hand side, the bounds and the values. -/
structure Represented (t : Tableau (Extended K)) : Prop where
  matrix : t.matrix.WellFormed
  split : t.split.WellFormed t.rowCount t.varCount
  unit : IsUnit t.toState.basis
  inverse : t.inverse.Represents t.toState.basis⁻¹

/-- After a run with finite coefficients it is enough that the representation is
    that of the basis. -/
theorem Operated.represented {kind : StepKind (Extended K)} (h : Operated kind t)
    (hb : t.hasBasis = true) (hfin : ∀ x ∈ t.matrix.dense, Scalar.isFinite x = true)
    (hu : IsUnit t.toState.basis) (hinv : t.inverse.Represents t.toState.basis⁻¹) :
    t.Represented := by
  obtain ⟨σ, hshape⟩ := h.shaped
  exact ⟨h.coherent.wellFormed hfin, hshape.split hb, hu, hinv⟩

namespace Represented

/-- The tableau with zeros in all other places. -/
abbrev blanked (t : Tableau (Extended K)) : Tableau (Extended K) :=
  { t with
    rightHandSide := Scalar.zeros t.rowCount
    bounds := .free t.varCount
    basicValues := Scalar.zeros t.rowCount
    nonBasicValues := Scalar.zeros t.nonBasicCount }

/-- It is solvable, and solves the same systems. -/
theorem solvable (h : t.Represented) : (blanked t).Solvable where
  state :=
    { matrix := h.matrix
      rhs := .zeros t.rowCount
      bounds := Bounds.WellFormed.free t.varCount
      split := h.split
      basic := .zeros t.rowCount
      nonBasic := .zeros t.nonBasicCount }
  unit := h.unit
  inverse := h.inverse

/-- **The row of a basic variable** has an outcome, which comes from the row of the inverse. -/
theorem solvedRow_eq (h : t.Represented) {i : Nat} (hi : i < t.rowCount) :
    ∃ rho, Numbers t.rowCount rho
      ∧ (∀ k < t.rowCount,
        t.toState.weighed (coord rho) (t.split.basicVar k) = if k = i then 1 else 0)
      ∧ t.solvedRow i = .ok
        { basicIndex := i
          solvedFor := some (t.split.basicVar i)
          scalar := Scalar.dot rho t.rightHandSide
          entries := (List.range t.nonBasicCount).map fun j => (t.split.nonBasicVar j,
            fin (-t.toState.weighed (coord rho) (t.split.nonBasicVar j))) } := by
  have hunit : Numbers t.rowCount (Scalar.unit t.rowCount i : List (Extended K)) :=
    .unit t.rowCount i
  -- The row of the inverse is the solution of a system with a unit vector.
  obtain ⟨rho, hrho⟩ : ∃ rho, t.inverse.solveRow (Scalar.unit t.rowCount i) = .ok rho := by
    rw [hunit.eq_embed]
    exact ⟨_, h.inverse.row _⟩
  obtain ⟨hn, hbasic⟩ := h.solvable.solveRow_spec hunit hrho
  have hentries := mapM_nonBasic h.solvable.state hn fun v d => (v, -d)
  refine ⟨rho, hn, fun k hk => ?_, ?_⟩
  · rw [← coord_unit hi k]
    exact hbasic k hk
  · unfold solvedRow
    rw [Checked.require, if_pos hi, hrho]
    show ((t.split.nonBasic.mapM fun v => do
        return (v, -(← (← t.matrix.sparseColumn v).dot rho)) : Checked _) >>= _) = _
    rw [hentries]
    show (t.split.slotAt i >>= _) = _
    rw [BasisSplit.slotAt, Checked.getAt_eq_ok.mpr (h.split.basic_at hi).1]
    rfl

end Represented

end Tableau

/-- The right-hand side of a row under values of the variables on it. -/
theorem SolvedRow.evaluate_eq {row : SolvedRow (Extended K)} {n : Nat} {scalar : K}
    {name : Nat → Nat} {c : Nat → K} (hscalar : row.scalar = fin scalar)
    (hentries : row.entries = (List.range n).map fun j => (name j, fin (c j)))
    {value : Nat → Checked (Extended K)} {x : Nat → K}
    (hvalue : ∀ j < n, value (name j) = .ok (fin (x (name j)))) :
    row.evaluate value = .ok (fin (scalar + ∑ j ∈ Finset.range n, c j * x (name j))) := by
  -- The products, entry by entry, and their sum.
  have hproducts : (row.entries.mapM fun p => return p.2 * (← value p.1))
      = .ok ((List.range n).map fun j => fin (c j * x (name j))) := by
    rw [hentries, List.mapM_map]
    refine Checked.mapM_eq_ok fun j hj => ?_
    show (value (name j) >>= fun y => Except.ok (fin (c j) * y)) = _
    rw [hvalue j (List.mem_range.mp hj)]
    rfl
  refine Checked.bind_eq_ok.mpr ⟨_, hproducts, ?_⟩
  show Except.ok (row.scalar + Scalar.sum _) = _
  rw [hscalar, (Numbers.map_range n fun j => c j * x (name j)).sum_eq, fin_add]
  congr 3
  exact Finset.sum_congr rfl fun j hj =>
    coord_map_range (Finset.mem_range.mp hj) fun j => c j * x (name j)

/-! ## §3.  Rows and columns -/

/-- The numbers satisfy the equations: the right-hand side is what the rows make of them. -/
def State.Meets (s : State (Extended K)) (x : Nat → K) : Prop :=
  s.rightHandSide = (List.range s.rowCount).map fun i =>
    fin (∑ v ∈ Finset.range s.varCount, s.matrix.coeff i v * x v)

namespace Tableau.Represented

/-- The equation of a row of the inverse, for numbers that satisfy the equations. -/
theorem solved_for (h : t.Represented) {i : Nat} (hi : i < t.rowCount) {rho : List (Extended K)}
    (hn : Numbers t.rowCount rho) (hbasic : ∀ k < t.rowCount,
      t.toState.weighed (coord rho) (t.split.basicVar k) = if k = i then 1 else 0)
    {x : Nat → K} (hx : t.toState.Meets x) :
    ∃ scalar, Scalar.dot rho t.rightHandSide = fin scalar
      ∧ scalar + ∑ j ∈ Finset.range t.nonBasicCount,
          -t.toState.weighed (coord rho) (t.split.nonBasicVar j) * x (t.split.nonBasicVar j)
        = x (t.split.basicVar i) := by
  have hb : t.rightHandSide = _ := hx
  have hcoord (k : Nat) (hk : k < t.rowCount) : coord t.rightHandSide k
      = ∑ v ∈ Finset.range t.varCount, t.matrix.coeff k v * x v := by
    rw [hb]
    exact coord_map_range hk fun k => ∑ v ∈ Finset.range t.varCount, t.matrix.coeff k v * x v
  have hright : Numbers t.rowCount t.rightHandSide := by
    rw [hb]
    exact .map_range t.rowCount fun i => ∑ v ∈ Finset.range t.varCount, t.matrix.coeff i v * x v
  refine ⟨_, hn.dot_eq hright, ?_⟩
  -- the basic variables but the one of the row drop out of the combined equation
  have hleft : ∑ k ∈ Finset.range t.rowCount, t.toState.weighed (coord rho) (t.split.basicVar k)
      * x (t.split.basicVar k) = x (t.split.basicVar i) := by
    rw [Finset.sum_eq_single_of_mem i (Finset.mem_range.mpr hi) fun k hk hki => by
      rw [hbasic k (Finset.mem_range.mp hk), if_neg hki, zero_mul], hbasic i hi,
        if_pos rfl, one_mul]
  have hsplit := h.split.sum_vars fun v => t.toState.weighed (coord rho) v * x v
  rw [hleft] at hsplit
  have hcombined := State.sum_weighed_mul t.toState (coord rho) x
  have hscalar : ∑ k ∈ Finset.range t.rowCount, coord rho k * coord t.rightHandSide k
      = ∑ v ∈ Finset.range t.varCount, t.toState.weighed (coord rho) v * x v := by
    rw [hcombined]
    exact Finset.sum_congr rfl fun k hk => by rw [hcoord k (Finset.mem_range.mp hk)]
  rw [Nat.min_self, hscalar, hsplit]
  simp only [neg_mul, Finset.sum_neg_distrib]
  exact add_neg_cancel_right _ _

/-- An entry of the row of the inverse times the matrix is the entry of the change column. -/
theorem change_column (h : t.Represented) {i : Nat} (hi : i < t.rowCount) {rho : List (Extended K)}
    (hbasic : ∀ k < t.rowCount,
      t.toState.weighed (coord rho) (t.split.basicVar k) = if k = i then 1 else 0)
    {v : Nat} (hv : v < t.varCount) :
    ∃ column d, t.matrix.column v = .ok column ∧ t.inverse.solveColumn column = .ok d
      ∧ d[i]? = some (fin (t.toState.weighed (coord rho) v)) := by
  obtain ⟨column, hcolumn, hn, -⟩ := h.matrix.column_eq hv
  obtain ⟨d, hd, -⟩ := h.solvable.solveColumn_spec (show Numbers t.rowCount column from hn)
  obtain ⟨-, hisColumn⟩ := h.solvable.isColumn hcolumn hd
  refine ⟨column, d, hcolumn, hd, ?_⟩
  have hentry : t.toState.weighed (coord rho) v = coord d i :=
    State.weighed_unit hisColumn hi hbasic
  rw [hentry]
  exact hisColumn.1.getElem? hi

end Tableau.Represented

/-- **Two views of the same product.**  After a run with finite coefficients whose representation is
    that of the basis, every basic variable has a row.  The right-hand side of the row is the value
    of the basic variable under all numbers that satisfy the equations, and the coefficient at a
    non-basic position is the negative of the entry in the change column of the variable there. -/
theorem solved_row_and_change_columns {kind : Tableau.StepKind (Extended K)}
    (hrun : Tableau.Operated kind t) (hb : t.hasBasis = true)
    (hfin : ∀ x ∈ t.matrix.dense, Scalar.isFinite x = true)
    (hu : IsUnit t.toState.basis) (hinv : t.inverse.Represents t.toState.basis⁻¹) {i : Nat}
    (hi : i < t.rowCount) :
    ∃ row lhs, t.solvedRow i = .ok row ∧ t.split.basicAt i = .ok lhs ∧ row.solvedFor = some lhs
      ∧ (∀ (x : Nat → K) (value : Nat → Checked (Extended K)), t.toState.Meets x →
        (∀ v < t.varCount, value v = .ok (fin (x v))) → row.evaluate value = .ok (fin (x lhs)))
      ∧ row.entries.length = t.nonBasicCount
      ∧ ∀ j < t.nonBasicCount, ∃ v column d c, t.split.nonBasicAt j = .ok v
        ∧ t.matrix.column v = .ok column ∧ t.inverse.solveColumn column = .ok d
        ∧ d[i]? = some (fin c) ∧ row.coefficient j = .ok (fin (-c))
        ∧ row.entries[j]? = some (v, fin (-c)) := by
  have h := hrun.represented hb hfin hu hinv
  obtain ⟨rho, hn, hbasic, hrow⟩ := h.solvedRow_eq hi
  refine ⟨_, t.split.basicVar i, hrow, h.split.basicAt_eq hi, rfl,
    fun x value hx hvalue => ?_, by simp, fun j hj => ?_⟩
  · obtain ⟨scalar, hscalar, hsolved⟩ := h.solved_for hi hn hbasic hx
    refine Eq.trans (SolvedRow.evaluate_eq hscalar rfl fun j hj => ?_)
      (congrArg (Except.ok ∘ fin) hsolved)
    exact hvalue _ (h.split.nonBasicVar_lt hj)
  -- The entry of the row and that of the change column come from one row of the inverse.
  · have hv := h.split.nonBasicVar_lt hj
    obtain ⟨column, d, hcolumn, hd, hentry⟩ := h.change_column hi hbasic hv
    have hget : ((List.range t.nonBasicCount).map fun j => (t.split.nonBasicVar j,
        (fin (-t.toState.weighed (coord rho) (t.split.nonBasicVar j)) : Extended K)))[j]?
          = some (t.split.nonBasicVar j,
            fin (-t.toState.weighed (coord rho) (t.split.nonBasicVar j))) := by
      simp [hj]
    refine ⟨_, column, d, _, h.split.nonBasicAt_eq hj, hcolumn, hd, hentry, ?_, hget⟩
    unfold SolvedRow.coefficient
    rw [Checked.getAt_eq_ok.mpr hget]
    rfl

/-- In `x + y + z + w = 10` the variable `z` is merged into `y`, the equation
    `3 x - z + x + 0 w = 2` is added, and `y` enters for `w`, an exchange that is kept as an eta
    column.  The new variable is `-7 + 9/2 x + 1/2 w` for all numbers that satisfy the equations. -/
theorem row_after_growth : ∃ (t : Tableau (Extended ℚ)) (row : SolvedRow (Extended ℚ)),
    t.merges.isMerged 2 = true ∧ t.rowCount = 2 ∧ t.inverse.exchanges = 1
    ∧ t.solvedRow 1 = .ok row ∧ row.solvedFor = some 4 ∧ row.scalar = fin (-7)
    ∧ row.entries = [(0, fin (9 / 2)), (3, fin (1 / 2)), (2, fin 0)]
    ∧ (∀ (x : Nat → ℚ) (value : Nat → Checked (Extended ℚ)), t.toState.Meets x →
      (∀ v < t.varCount, value v = .ok (fin (x v))) → row.evaluate value = .ok (fin (x 4)))
    ∧ ∃ column d, t.matrix.column 3 = .ok column ∧ t.inverse.solveColumn column = .ok d
      ∧ d[1]? = some (fin (-(1 / 2) : ℚ)) := by
  have hrun : (do
      let t ← (Tableau.create (α := Extended ℚ) { boundTolerance := fin 0 }).run [.setSize 1 4,
        .setCoefficients [fin 1, fin 1, fin 1, fin 1], .setRightHandSide [fin 10],
        .setLower 0 (fin 0), .setUpper 0 (fin 4), .setLower 1 (fin 1), .setLower 2 (fin 0),
        .setLower 3 (fin 0)]
      let (r, s) ← t.startFrom [3]
      let (q, m) ← s.merge 2 1
      let (p, u) ← m.addEquation ⟨[⟨fin 3, 0⟩, ⟨fin (-1), 2⟩, ⟨fin 1, 0⟩, ⟨fin 0, 3⟩], fin 2⟩
      let w ← u.run [.selectEntering 1, .computeColumn, .standardRatioTest]
      let b ← w.performPivot
      let row ← b.solvedRow 1
      Checked.require (r = Except.ok () ∧ q = Except.ok () ∧ p = Except.ok 4
        ∧ t.settings.boundTolerance = fin 0 ∧ w.KeepsColumn
        ∧ (∀ x ∈ b.matrix.dense, Scalar.isFinite x = true) ∧ b.merges.isMerged 2 = true
        ∧ b.rowCount = 2 ∧ b.nonBasicCount = 3 ∧ b.inverse.exchanges = 1 ∧ row.solvedFor = some 4
        ∧ row.scalar = fin (-7) ∧ row.entries = [(0, fin (9 / 2)), (3, fin (1 / 2)), (2, fin 0)])
        .inconsistent) = .ok () := by decide +kernel
  obtain ⟨t, ht, hrun⟩ := Checked.bind_eq_ok.mp hrun
  obtain ⟨⟨r, s⟩, hs, hrun⟩ := Checked.bind_eq_ok.mp hrun
  obtain ⟨⟨q, m⟩, hm, hrun⟩ := Checked.bind_eq_ok.mp hrun
  obtain ⟨⟨p, u⟩, hu, hrun⟩ := Checked.bind_eq_ok.mp hrun
  obtain ⟨w, hw, hrun⟩ := Checked.bind_eq_ok.mp hrun
  obtain ⟨b, hb, hrun⟩ := Checked.bind_eq_ok.mp hrun
  obtain ⟨row, hrow, hrun⟩ := Checked.bind_eq_ok.mp hrun
  obtain ⟨rfl, rfl, rfl, hτ, hkeeps, hfin, hmerged, hrows, hcount, hexchanges, hlhs, hscalar,
    hentries⟩ := Checked.require_eq_ok.mp hrun
  have hconf : t.Configured := (Tableau.Configured.created _).run (by decide +kernel) ht
  have hfinite : LinearEquation.IsFinite
      (⟨[⟨fin 3, 0⟩, ⟨fin (-1), 2⟩, ⟨fin 1, 0⟩, ⟨fin 0, 3⟩], fin 2⟩ :
        LinearEquation (Extended ℚ)) := by
    refine ⟨⟨2, rfl⟩, fun e he => ?_⟩
    simp only [List.mem_cons, List.not_mem_nil, or_false] at he
    rcases he with rfl | rfl | rfl | rfl <;> exact ⟨_, rfl⟩
  -- the representation, through the session
  have hstart : Reachable 0 ⟨s, .clear, []⟩ := .startedFrom hconf hτ hs
  have hgrown := (hstart.step (.merged hm)).step (.extended hfinite hu)
  have hsel : Tableau.Selected u w :=
    ⟨.selectEntering 1, .standardRatioTest, trivial, trivial, .inl hw⟩
  have hsound := (hgrown.step (.pivoted hsel hkeeps hb)).valid.sound
  -- the run
  have hstarted : Tableau.Operated Tableau.anyStep s := (Tableau.operated_of_startFrom hconf hs).2
  have hdone : s.perform (.merge 2 1) = .ok (.done, m) := by
    rw [Tableau.perform, hm]
    rfl
  have hfolded : Tableau.Operated Tableau.anyStep m :=
    hstarted.performed (fun _ h => by cases h) trivial hdone
  have hdone : m.perform (.addEquation ⟨[⟨fin 3, 0⟩, ⟨fin (-1), 2⟩, ⟨fin 1, 0⟩, ⟨fin 0, 3⟩], fin 2⟩)
      = .ok (.variable 4, u) := by
    rw [Tableau.perform, hu]
    rfl
  have hextended : Tableau.Operated Tableau.anyStep u :=
    hfolded.performed (fun _ h => by cases h) trivial hdone
  have hselected : Tableau.Operated Tableau.anyStep w := hextended.runForward (by simp) hw
  have hdone : w.perform .performPivot = .ok (.done, b) := by
    rw [Tableau.perform, hb]
    rfl
  have hoperated : Tableau.Operated Tableau.anyStep b :=
    hselected.performed (fun _ h => by cases h) trivial hdone
  obtain ⟨row', lhs, hrow', -, hlhs', hevaluate, -, hcolumns⟩ :=
    solved_row_and_change_columns hoperated hsound.hasBasis hfin hsound.unit hsound.inverse
      (show 1 < b.rowCount by omega)
  obtain rfl : row = row' := Except.ok.inj (hrow.symm.trans hrow')
  obtain rfl : 4 = lhs := Option.some.inj (hlhs.symm.trans hlhs')
  obtain ⟨v, column, d, c, -, hcolumn, hd, hentry, -, hget⟩ := hcolumns 1 (by omega)
  rw [hentries] at hget
  obtain ⟨rfl, hc⟩ := Prod.mk.inj (Option.some.inj hget)
  have hc : c = -(1 / 2) := by
    injection hc with hc
    linarith
  exact ⟨b, row, hmerged, hrows, hexchanges, hrow, hlhs, hscalar, hentries, hevaluate,
    column, d, hcolumn, hd, hc ▸ hentry⟩

end BoundedSimplex
