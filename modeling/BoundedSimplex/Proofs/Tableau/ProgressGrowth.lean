/-
  BoundedSimplex.Proofs.Tableau.ProgressGrowth — equations and merges that cannot break a contract.

  An equation over variables that exist can be added, also where some of them were merged.  Two
  non-basic variables can be merged as long as neither is read through another one.  Both may still
  fail, for the basis may turn out to have no usable inverse; that is a reply.

  Main results:
    * `exists_addEquation` — a new equation;
    * `exists_merge` — a merge.
-/
import BoundedSimplex.Proofs.Tableau.Anchored
import BoundedSimplex.Proofs.Tableau.Progress
import BoundedSimplex.Proofs.Watching

namespace BoundedSimplex

variable {α : Type} [Scalar α]

/-! ## §1.  Equations -/

namespace LinearEquation

variable {e : LinearEquation α} {n : Nat}

theorem exists_residual {value : Nat → Checked α} (hvalue : ∀ v < n, ∃ x, value v = .ok x)
    (he : ∀ term ∈ e.terms, term.var < n) : ∃ x, e.residual value = .ok x :=
  Checked.exists_bind (Checked.exists_mapM fun term hterm =>
    Checked.exists_bind (hvalue _ (he term hterm)) fun _ _ => ⟨_, rfl⟩) fun _ _ => ⟨_, rfl⟩

theorem exists_residualBounds {lower upper : Nat → Checked α} (hl : ∀ v < n, ∃ x, lower v = .ok x)
    (hu : ∀ v < n, ∃ x, upper v = .ok x) (he : ∀ term ∈ e.terms, term.var < n) :
    ∃ r, e.residualBounds lower upper = .ok r := by
  refine Checked.exists_foldlM_of_forall (fun term hterm interval => ?_) _
  have hvar := he term hterm
  unfold extendInterval
  split
  · exact ⟨interval, rfl⟩
  · refine Checked.exists_bind (hl _ hvar) fun _ _ => Checked.exists_bind (hu _ hvar) fun _ _ => ?_
    split <;> exact ⟨_, rfl⟩

omit [Scalar α] in
/-- Reading merged variables through others leads to variables that exist. -/
theorem lt_of_mem_rename {g : Merges} (hg : g.Within n) (he : ∀ term ∈ e.terms, term.var < n) :
    ∀ term ∈ (e.rename g.resolve).terms, term.var < n := by
  intro term hterm
  obtain ⟨term', hterm', rfl⟩ := List.mem_map.mp hterm
  exact hg.resolve_lt (he term' hterm')

end LinearEquation

namespace Tableau

variable {solved : Prop} {σ : Settings α} {t u : Tableau α}

/-- One more row and one more variable. -/
theorem exists_extendState [LawfulZero α] (ht : t.Shaped solved σ) (hb : t.hasBasis = true)
    (ha : t.toState.Anchored) {e : LinearEquation α} (he : ∀ term ∈ e.terms, term.var < t.varCount)
    (l b x : α) : ∃ r, t.extendState e l b x = .ok r := by
  obtain ⟨matrix, hm, hshaped, -⟩ := exists_extendMatrix ht.state.matrix ha.coherent he
  have hsplit := ht.split hb
  rw [← show t.split.positions.length = t.varCount from hsplit.places] at hm
  refine Checked.exists_bind_of_ok hm ?_
  refine Checked.exists_bind (ht.state.bounds.exists_push l b) fun bounds hbounds => ?_
  -- All lists of the rows grow by one.
  have hgrown := ht.state.grow hsplit hshaped (ht.state.bounds.push hbounds) e.scalar x
  refine Checked.exists_bind (exists_classifyAt hgrown ?_ ?_) fun _ _ => ⟨_, rfl⟩
  · show t.split.pushBasic.WellFormed matrix.rowCount matrix.columnCount
    rw [hshaped.rowCount, hshaped.columnCount]
    exact hsplit.pushBasic.1
  · show matrix.rowCount - 1 < matrix.rowCount
    rw [hshaped.rowCount]
    exact Nat.lt_succ_self _

/-- **A new equation** over variables that exist. -/
theorem exists_addEquation [LawfulZero α] (ht : t.Shaped solved σ) (hb : t.hasBasis = true)
    (ha : t.toState.Anchored) {e : LinearEquation α}
    (he : ∀ term ∈ e.terms, term.var < t.varCount) :
    ∃ r, t.addEquation e = .ok r := by
  have hfind : (e.terms.find? fun term => t.varCount ≤ term.var) = none :=
    List.find?_eq_none.mpr fun term hterm => by simpa using he term hterm
  have hsplit := ht.split hb
  have hvars := e.lt_of_mem_rename ha.linked he
  refine Checked.exists_bind (Checked.exists_require hb) fun _ _ => ?_
  simp only [hfind]
  refine Checked.exists_bind (LinearEquation.exists_residualBounds
    (fun v hv => ht.state.exists_lower hv) (fun v hv => ht.state.exists_upper hv) hvars)
      fun bounds _ => ?_
  obtain ⟨l, b⟩ := bounds
  refine Checked.exists_bind (LinearEquation.exists_residual
    (fun v hv => ⟨_, ht.state.storedValue_held hsplit hv⟩) hvars) fun x _ => ?_
  -- up to here the equation was only read; from here on the tableau has one row more
  have hstart := (silent_remark t (.addingEquation (e.rename t.merges.resolve))).shaped ht
  refine Checked.exists_bind (exists_extendState hstart hb ha hvars l b x) fun w hw => ?_
  obtain ⟨aux, w⟩ := w
  have hbasis : w.hasBasis = true := by
    obtain ⟨_, _, _, -, -, -, -, rfl⟩ := of_extendState hw
    exact hb
  have htold := ((((silent_count w.clearPlan.invalidatePrices .addedRows).trans
    (silent_tellSize _)).trans (silent_tellLower _ aux l)).trans
    (silent_tellUpper _ aux b)).trans (silent_tellValue _ aux x)
  refine Checked.exists_bind (exists_refactor (htold.shaped (hstart.extendState hb hw)) hbasis)
    fun r _ => ?_
  obtain ⟨r, v⟩ := r
  cases r <;> exact ⟨_, rfl⟩

/-- A new equation is a row and a variable, so there are as many non-basic
    positions as before it. -/
theorem addEquation_costs (ht : t.Shaped solved σ) {e : LinearEquation α} {r : Except Failure Nat}
    (h : t.addEquation e = .ok (r, u)) :
    u.pricing.costs = t.pricing.costs ∧ u.nonBasicCount = t.nonBasicCount := by
  obtain ⟨_, _, h⟩ := Checked.bind_eq_ok.mp h
  split at h
  · cases h
    exact ⟨rfl, rfl⟩
  · obtain ⟨⟨l, b⟩, _, h⟩ := Checked.bind_eq_ok.mp h
    obtain ⟨x, _, h⟩ := Checked.bind_eq_ok.mp h
    obtain ⟨⟨aux, w⟩, hw, h⟩ := Checked.bind_eq_ok.mp h
    obtain ⟨⟨r', v⟩, hv, h⟩ := Checked.bind_eq_ok.mp h
    obtain ⟨matrix, bounds, standing, hm, -, -, -, rfl⟩ := of_extendState hw
    have hmatrix := extendMatrix_shaped ht.state.matrix hm
    -- Neither the costs nor the number of non-basic variables have changed: a row and its variable.
    have hcosts : v.pricing.costs = t.pricing.costs :=
      (congrArg Pricing.costs (refactor_sameCosts hv).pricing).trans rfl
    have hcount : v.nonBasicCount = t.nonBasicCount := by
      refine (refactor_sameSystem hv).1.nonBasicCount.trans ?_
      show matrix.columnCount - matrix.rowCount = t.varCount - t.rowCount
      rw [hmatrix.columnCount, hmatrix.rowCount, Nat.add_sub_add_right]
    cases r' <;> cases h <;> exact ⟨hcosts, hcount⟩

/-! ## §2.  Merges -/

section Merge

variable (ht : t.Shaped solved σ) (hb : t.hasBasis = true) (hsize : t.inverse.size = t.rowCount)
  {source target : Nat}
include ht hb hsize

/-- The bounds of one variable are handed on to another. -/
theorem exists_intersectBounds (hs : source < t.varCount) (hg : target < t.varCount) :
    ∃ u, t.intersectBounds source target = .ok u := by
  have hlower {v : Nat} (hv : v < t.varCount) : ∃ l, t.lowerBound v = .ok l :=
    Checked.exists_bind (Checked.exists_require hv) fun _ _ => ht.state.exists_lower hv
  -- whether the lower bound was raised or not, the upper one is next
  have hcut {w : Tableau α} (hw : w.Shaped solved σ) (hsame : Spares t w) : ∃ u, (do
      let upper ← w.upperBound source
      if upper < (← w.upperBound target) then w.tightenUpper target upper else return w :
        Checked (Tableau α)) = .ok u := by
    have hvars : w.varCount = t.varCount := hsame.varCount
    have hrows : w.rowCount = t.rowCount := hsame.rowCount
    have hupper {v : Nat} (hv : v < w.varCount) : ∃ x, w.upperBound v = .ok x :=
      Checked.exists_bind (Checked.exists_require hv) fun _ _ => hw.state.exists_upper hv
    rw [← hvars] at hs hg
    refine Checked.exists_bind (hupper hs) fun x _ => Checked.exists_bind (hupper hg) fun x' _ => ?_
    split
    · exact exists_tightenUpper hw (hsame.hasBasis.trans hb)
        ((congrArg BasisInverse.size hsame.inverse).trans (hsize.trans hrows.symm)) hg x
    · exact ⟨w, rfl⟩
  refine Checked.exists_bind (hlower hs) fun l _ => Checked.exists_bind (hlower hg) fun l' _ => ?_
  split
  · exact Checked.exists_bind (exists_tightenLower ht hb hsize hg l)
      fun w hw => hcut (ht.tightenLower hw) (tightenLower_spares ht hw)
  · exact hcut ht (Silent.refl t).spares

omit hsize in
theorem exists_freeze {v : Nat} (hv : v < t.varCount) (hrole : t.split.isBasic v = false) :
    ∃ u, t.freeze v = .ok u := by
  have hsplit := ht.split hb
  refine Checked.exists_bind_of_ok (hsplit.positionOf_eq hv) ?_
  refine Checked.exists_bind
    (ht.state.exists_nonBasicValue (hsplit.of_not_isBasic hv hrole).1) fun x _ =>
      Checked.exists_bind (exists_setLower ht hv x) fun w hw => ?_
  have hvars : w.varCount = t.varCount := (setLower_spares hw).varCount
  exact exists_setUpper (ht.setLower hw) (hvars.symm ▸ hv) x

omit hsize in
/-- Folding columns needs two variables that are not read through others. -/
theorem exists_fold [LawfulZero α] (ha : t.toState.Anchored) (hs : source < t.varCount)
    (hg : target < t.varCount) (hrole : t.split.isBasic source = false)
    (hstands : t.merges.Stands source) (hstands' : t.merges.Stands target) (hne : source ≠ target) :
    ∃ u, t.fold source target = .ok u ∧ u.hasBasis = true ∧ u.inverse = t.inverse
      ∧ u.rowCount = t.rowCount := by
  -- The columns can be added, and the merge recorded, since both variables stand.
  obtain ⟨matrix, hm, -⟩ := ha.coherent.exists_mergeColumns hs hg hne
  obtain ⟨merges, hrecord⟩ := Merges.exists_record hstands hstands' hne
  have hshaped := ht.state.matrix.mergeColumns hm
  have hfolded := (ht.withMatrix hshaped).withMerges merges
  have hvars : source < matrix.columnCount := hshaped.columnCount.symm ▸ hs
  obtain ⟨u, hu⟩ := exists_freeze hfolded hb hvars hrole
  have hsame := freeze_spares hu
  refine ⟨u, Checked.bind_eq_ok.mpr ⟨matrix, hm, Checked.bind_eq_ok.mpr ⟨merges, hrecord, hu⟩⟩,
    hsame.hasBasis.trans hb, hsame.inverse, ?_⟩
  rw [State.rowCount, hsame.matrix]
  exact hshaped.rowCount

/-- **A merge** of two non-basic variables. -/
theorem exists_merge [LawfulZero α] (ha : t.toState.Anchored) (hs : source < t.varCount)
    (hg : target < t.varCount) (hrole : t.split.isBasic source = false)
    (hrole' : t.split.isBasic target = false) (hstands : t.merges.Stands source)
    (hstands' : t.merges.Stands target) (hne : source ≠ target) :
    ∃ r, t.merge source target = .ok r := by
  refine Checked.exists_bind (Checked.exists_require hb) fun _ _ =>
    Checked.exists_bind (Checked.exists_require hne) fun _ _ => ?_
  have hfailure : (t.mergeFailure? source).or (t.mergeFailure? target) = none :=
    Option.or_eq_none_iff.mpr
      ⟨mergeFailure?_eq_none.mpr ⟨hs, hrole⟩, mergeFailure?_eq_none.mpr ⟨hg, hrole'⟩⟩
  simp only [hfailure]
  have hremark := silent_remark t (.merging source target)
  have hstart := hremark.shaped ht
  refine Checked.exists_bind (exists_intersectBounds hstart hb hsize hs hg) fun w hw => ?_
  have hshaped := hstart.intersectBounds hw
  have hsame := hremark.spares.trans (intersectBounds_spares hstart hw)
  have hvars : w.varCount = t.varCount := hsame.varCount
  have hrows : w.rowCount = t.rowCount := hsame.rowCount
  obtain ⟨v, hv, hbasis, hinverse, hrows'⟩ := exists_fold hshaped (hsame.hasBasis.trans hb)
    (hsame.toSameSystem.anchored ha) (hvars.symm ▸ hs) (hvars.symm ▸ hg) (hsame.split.symm ▸ hrole)
    (hsame.merges.symm ▸ hstands) (hsame.merges.symm ▸ hstands') hne
  refine Checked.exists_bind_of_ok hv ?_
  -- a merge ends with a fresh inverse and fresh values
  have hcount := (silent_count v .mergedColumns).shaped (hshaped.fold hv)
  refine Checked.exists_bind (exists_refactor hcount hbasis) fun r hr => ?_
  obtain ⟨r, x⟩ := r
  have hrefactored := hcount.refactor hr
  cases r with
  | error cause => exact ⟨_, rfl⟩
  | ok _ =>
    exact Checked.exists_bind (exists_computeValues hrefactored.1
      ((refactor_sameSystem hr).2.2.trans hbasis) (hrefactored.2 rfl)) fun _ _ => ⟨_, rfl⟩

end Merge

/-- A merge lets the costs be, current or not. -/
theorem merge_costs (ht : t.Shaped solved σ) {source target : Nat} {r : Except Failure Unit}
    (h : t.merge source target = .ok (r, u)) :
    u.pricing.costs = t.pricing.costs ∧ u.nonBasicCount = t.nonBasicCount := by
  obtain ⟨-, -, ⟨_, -, -, rfl⟩ | ⟨-, w, v, r', x, hw, hv, hx, hend⟩⟩ := merge_cases h
  · exact ⟨rfl, rfl⟩
  obtain ⟨matrix, hm, hv⟩ := Checked.bind_eq_ok.mp hv
  obtain ⟨merges, _, hfreeze⟩ := Checked.bind_eq_ok.mp hv
  have hremark := silent_remark t (.merging source target)
  have hstart := hremark.shaped ht
  have hsame := hremark.spares.trans (intersectBounds_spares hstart hw)
  have hfrozen := freeze_spares hfreeze
  have hmatrix := (hstart.intersectBounds hw).state.matrix.mergeColumns hm
  -- The folded column stays, so the number of non-basic variables does.
  have hcosts : x.pricing.costs = t.pricing.costs :=
    ((congrArg Pricing.costs (refactor_sameCosts hx).pricing).trans hfrozen.costs).trans hsame.costs
  have hcount : x.nonBasicCount = t.nonBasicCount := by
    refine (((refactor_sameSystem hx).1.nonBasicCount.trans
      hfrozen.toSameSystem.nonBasicCount).trans
      ?_).trans hsame.toSameSystem.nonBasicCount
    show matrix.columnCount - matrix.rowCount = w.varCount - w.rowCount
    rw [hmatrix.columnCount, hmatrix.rowCount]
  rcases hend with ⟨_, -, -, rfl⟩ | ⟨-, -, hy⟩
  · exact ⟨hcosts, hcount⟩
  · have hvalues := (computeValues_spares hy).1
    exact ⟨hvalues.costs.trans hcosts, hvalues.toSameSystem.nonBasicCount.trans hcount⟩

end Tableau

end BoundedSimplex
