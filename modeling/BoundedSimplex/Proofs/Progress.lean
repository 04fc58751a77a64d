/-
  BoundedSimplex.Proofs.Progress — reading and solving without breaking a contract.

  A contract is about positions and sizes, and about zeros that would be divided by.  Where the
  parts of a state fit together, everything that is read from them is there, whatever the
  arithmetic.  Only folding a column asks for more than dimensions: it goes through the entries of
  the sparse column, and the dense one has to be cleared by that, so both must hold the same numbers
  (`SystemMatrix.Coherent`).

  Main results:
    * `Tableau.exists_extendMatrix` — writing the row of an equation;
    * `State.Shaped.exists_remainder`, `exists_basisColumns`, `exists_allStandings` — the state;
    * `Pricing.exists_compute`, `exists_follow` — costs.
-/
import BoundedSimplex.Proofs.NumberSet
import BoundedSimplex.Proofs.Operated

namespace BoundedSimplex

variable {α : Type} [Scalar α]

/-! ## §1.  The matrix -/

/-- The row of an equation whose variables exist is written next to what is there already, and the
    forms of the matrix agree again. -/
theorem Tableau.exists_extendMatrix [LawfulZero α] {m n : Nat} {a : SystemMatrix α}
    (ha : a.Shaped m n) (h : a.Coherent) {e : LinearEquation α}
    (he : ∀ term ∈ e.terms, term.var < n) :
    ∃ b, extendMatrix a e n = .ok b ∧ b.Shaped (m + 1) (n + 1) ∧ b.Coherent := by
  obtain ⟨wide, hwide, hgrown⟩ := h.exists_grown
  have hshaped : wide.appendColumn.Shaped (m + 1) (n + 1) := (ha.appendRow hwide).appendColumn
  have hrow : a.rowCount < m + 1 := Nat.lt_succ_of_le ha.rowCount.le
  -- Each write is inside the new shape, and keeps it.
  have hset {b : SystemMatrix α} (hb : b.Shaped (m + 1) (n + 1) ∧ b.Coherent) {j : Nat}
      (hj : j < n + 1) (x : α) :
      ∃ c, b.set a.rowCount j x = .ok c ∧ c.Shaped (m + 1) (n + 1) ∧ c.Coherent :=
    have hc := hb.1.set_eq_write hrow hj x
    ⟨_, hc, hb.1.set hc, hb.2.set hc⟩
  have hadd : ∀ term ∈ e.terms, ∀ b : SystemMatrix α, b.Shaped (m + 1) (n + 1) ∧ b.Coherent →
      ∃ c, b.addEntry a.rowCount term.var term.coefficient = .ok c
        ∧ c.Shaped (m + 1) (n + 1) ∧ c.Coherent := by
    intro term hterm b hb
    have hj : term.var < n + 1 := Nat.lt_succ_of_lt (he term hterm)
    rw [SystemMatrix.addEntry, hb.1.get_eq_entry hrow hj]
    exact hset hb hj _
  obtain ⟨filled, hfilled, hkept⟩ := Checked.exists_foldlM hadd ⟨hshaped, hgrown⟩
  have hlast : n = wide.appendColumn.columnCount - 1 := by
    rw [hshaped.columnCount, Nat.add_sub_cancel]
  unfold extendMatrix
  rw [hwide, Checked.ok_bind]
  dsimp only
  rw [Checked.require_of hlast, Checked.ok_bind, hfilled]
  exact hset hkept (Nat.lt_succ_self n) (-1)

/-! ## §2.  States -/

namespace State.Shaped

variable {s : State α}

/-- A lower bound can be read. -/
theorem exists_lower (hs : s.Shaped) {v : Nat} (hv : v < s.varCount) :
    ∃ l, s.bounds.lower v = .ok l :=
  Checked.exists_getAt (hs.bounds.lowers.symm ▸ hv)

/-- So can an upper bound. -/
theorem exists_upper (hs : s.Shaped) {v : Nat} (hv : v < s.varCount) :
    ∃ u, s.bounds.upper v = .ok u :=
  Checked.exists_getAt (hs.bounds.uppers.symm ▸ hv)

/-- The value in a row can be read. -/
theorem exists_basicValue (hs : s.Shaped) {i : Nat} (hi : i < s.rowCount) :
    ∃ x, Checked.getAt s.basicValues i = .ok x :=
  Checked.exists_getAt (hs.basicValues.symm ▸ hi)

/-- So can a non-basic value. -/
theorem exists_nonBasicValue (hs : s.Shaped) {j : Nat} (hj : j < s.nonBasicCount) :
    ∃ x, Checked.getAt s.nonBasicValues j = .ok x :=
  Checked.exists_getAt (hs.nonBasicValues.symm ▸ hj)

/-- And the status of a row. -/
theorem exists_recorded (hs : s.Shaped) {i : Nat} (hi : i < s.rowCount) :
    ∃ standing, Checked.getAt s.standings i = .ok standing :=
  Checked.exists_getAt (hs.standings.symm ▸ hi)

variable (hs : s.Shaped) (hsplit : s.split.WellFormed s.rowCount s.varCount)
include hs hsplit

/-- The standing of a row. -/
theorem exists_standingAt (τ : α) {i : Nat} (hi : i < s.rowCount) :
    ∃ standing, s.standingAt τ i = .ok standing := by
  have hv := hsplit.basicVar_lt hi
  rw [State.standingAt, hsplit.basicAt_eq hi, Checked.ok_bind]
  exact Checked.exists_bind (hs.exists_basicValue hi) fun _ _ =>
    Checked.exists_bind (hs.exists_lower hv) fun _ _ =>
      Checked.exists_bind (hs.exists_upper hv) fun _ _ => ⟨_, rfl⟩

/-- All statuses can be computed. -/
theorem exists_allStandings (τ : α) : ∃ ss, s.allStandings τ = .ok ss :=
  Checked.exists_mapM fun _ hi => hs.exists_standingAt hsplit τ (List.mem_range.mp hi)

/-- The columns of the basis. -/
theorem exists_basisColumns : ∃ columns, s.basisColumns = .ok columns := by
  refine Checked.exists_mapM fun slot hslot => ?_
  obtain ⟨i, hi, rfl⟩ := List.mem_iff_getElem.mp hslot
  obtain ⟨v, hv, hlt, -⟩ := hsplit.basic.of_getElem? (List.getElem?_eq_getElem hi)
  rw [hv]
  obtain ⟨c, hc, -⟩ := hs.matrix.exists_column hlt
  exact ⟨c, hc⟩

/-- What the basic variables have to make up for. -/
theorem exists_remainder : ∃ ys, s.remainder = .ok ys ∧ ys.length = s.rowCount := by
  refine Checked.exists_foldlM (P := fun ys : List α => ys.length = s.rowCount)
    (fun part hpart ys hys => ?_)
    hs.rightHandSide
  obtain ⟨j, hj, hv⟩ := List.mem_iff_getElem.mp (List.of_mem_zip hpart).1
  have hlt : part.1 < s.varCount :=
    (hsplit.nonBasic.of_getElem? (hv ▸ List.getElem?_eq_getElem hj)).1
  unfold State.subtractPart
  split
  · exact ⟨ys, rfl, hys⟩
  · obtain ⟨v, hv, hshaped⟩ := hs.matrix.exists_sparseColumn hlt
    have hzs := hshaped.inRange.addTo_eq (hys.trans hshaped.length.symm) (-part.2)
    rw [hv]
    exact ⟨_, hzs, (SparseVector.length_addTo hzs).trans hys⟩

end State.Shaped

/-! ## §3.  Costs -/

namespace Pricing

variable {p : Pricing α} {m n : Nat}

/-- Prices can be computed from row vectors of the right length. -/
theorem exists_price {view : View α} (hm : view.matrix.Shaped m n) (hf : view.inverse.Shaped)
    (hsize : view.inverse.size = m) (hv : ∀ v ∈ view.nonBasic, v < n) {xs : List α}
    (hx : xs.length = m) : ∃ costs, price view xs = .ok costs := by
  obtain ⟨y, hy, hlen⟩ := hf.exists_solveRow (hx.trans hsize.symm)
  refine Checked.exists_bind_of_ok hy (Checked.exists_mapM fun v hvar => ?_)
  obtain ⟨column, hc, hshaped⟩ := hm.exists_sparseColumn (hv v hvar)
  have hdot := hshaped.inRange.dot_eq ((hlen.trans hsize).trans hshaped.length.symm)
  rw [hc, Checked.ok_bind, hdot]
  exact ⟨_, rfl⟩

/-- Costs can be computed from parts that fit together, whatever they come from. -/
theorem exists_compute {view : View α} (hm : view.matrix.Shaped m n) (hf : view.inverse.Shaped)
    (hsize : view.inverse.size = m) (hs : view.standings.length = m)
    (hv : ∀ v ∈ view.nonBasic, v < n) : ∃ q, p.compute view = .ok q := by
  refine Checked.exists_bind (Checked.exists_require (hs.trans hsize.symm)) fun _ _ => ?_
  cases p.rule with
  | infeasibility =>
    exact Checked.exists_bind (exists_price hm hf hsize hv ((List.length_map _).trans hs))
      fun _ _ => ⟨_, rfl⟩
  | fixed costs => exact ⟨_, rfl⟩
  | weighted weights =>
    exact Checked.exists_bind (exists_price hm hf hsize hv ((Scalar.length_fit _ _).trans hsize))
      fun _ _ => ⟨_, rfl⟩

/-- Costs follow an exchange between a row and a position that exist. -/
theorem exists_follow {e : Exchange α}
    (hi : p.rule = .infeasibility → p.stale = false → e.leaving < p.basicCosts.length)
    (hrow : p.stale = false → p.costs.length = e.row.entries.length)
    (hj : e.entering < e.row.entries.length) : ∃ r, p.follow e = .ok r := by
  unfold follow
  cases hrule : p.rule with
  | fixed costs => exact ⟨_, rfl⟩
  | weighted weights => exact ⟨_, rfl⟩
  | infeasibility =>
    cases hstale : p.stale with
    | true => exact ⟨_, rfl⟩
    | false =>
      have hlen := hrow hstale
      -- Costs follow only while they are current; then the rows and columns have the
      -- lengths checked.
      exact Checked.exists_bind (Checked.exists_require hlen) fun _ _ =>
        Checked.exists_bind (Checked.exists_getAt (hi hrule hstale)) fun _ _ =>
          Checked.exists_bind (Checked.exists_getAt (hlen.symm ▸ hj)) fun _ _ => ⟨_, rfl⟩

end Pricing

end BoundedSimplex
