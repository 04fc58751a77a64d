/-
  BoundedSimplex.Proofs.Tableau.Growth — adding an equation keeps a tableau sound.

  The new row is the equation less the new variable, which stands for the residual and has its
  value.  So the new row holds, and the old ones are what they were.

  Main results:
    * `extendMatrix_spec` — the matrix with the new row;
    * `addEquation_state` — what an equation that was accepted leaves behind, in any arithmetic;
    * `addEquation_spec` — an equation that was accepted keeps a tableau sound.
-/
import BoundedSimplex.Proofs.Linear.LinearEquation
import BoundedSimplex.Proofs.Tableau.Values
import BoundedSimplex.Tableau.Growth
import Mathlib.Tactic.LinearCombination

namespace BoundedSimplex.Tableau

open Extended

variable {K : Type} [Field K] [LinearOrder K] {t u : Tableau (Extended K)}

/-! ## §1.  The matrix -/

/-- Filling a row term by term.  The other rows stay, and the row takes the
    products of the terms in. -/
theorem fill_spec {m n p i : Nat} :
    ∀ {ts : List (Term (Extended K))} {a b : SystemMatrix (Extended K)} {A : Nat → Nat → K},
      (∀ t ∈ ts, ∃ c, t.coefficient = fin c) → (∀ t ∈ ts, t.var < p) → a.Represents m n A →
      ts.foldlM (fun b t => b.addEntry i t.var t.coefficient) a = .ok b →
      ∃ B, b.Represents m n B ∧ (∀ k l, k ≠ i ∨ p ≤ l → B k l = A k l)
        ∧ ∀ s : Nat → K, ∑ l ∈ Finset.range p, B i l * s l
          = ∑ l ∈ Finset.range p, A i l * s l
            + (ts.map fun t => t.coefficient.val * s t.var).sum := by
  intro ts
  induction ts with
  | nil =>
    intro a b A _ _ ha h
    cases h
    exact ⟨A, ha, fun _ _ _ => rfl, fun s => by simp⟩
  | cons t ts ih =>
    intro a b A hfin hvars ha h
    rw [List.foldlM_cons] at h
    obtain ⟨a', ha', h⟩ := Checked.bind_eq_ok.mp h
    obtain ⟨c, hc⟩ := hfin t List.mem_cons_self
    have hvar := hvars t List.mem_cons_self
    rw [hc] at ha'
    obtain ⟨-, -, hrep⟩ := ha.of_addEntry ha'
    obtain ⟨B, hB, hold, hnew⟩ := ih (fun t' ht' => hfin t' (List.mem_cons_of_mem t ht'))
      (fun t' ht' => hvars t' (List.mem_cons_of_mem t ht')) hrep h
    refine ⟨B, hB, fun k l hkl => ?_, fun s => ?_⟩
    · rw [hold k l hkl, if_neg]
      rintro ⟨rfl, rfl⟩
      omega
    -- The term adds to one entry of the row.
    · have hterm (l : Nat) : (if i = i ∧ l = t.var then A i l + c else A i l) * s l
          = if l = t.var then A i t.var * s t.var + c * s t.var else A i l * s l := by
        by_cases hl : l = t.var
        · rw [if_pos ⟨rfl, hl⟩, if_pos hl, hl]
          ring
        · rw [if_neg fun h => hl h.2, if_neg hl]
      rw [hnew s, Finset.sum_congr rfl fun l _ => hterm l, State.sum_replace hvar, List.map_cons,
        List.sum_cons, hc, val_fin]
      ring

/-- The steps to the matrix with the new row.  The new variable has to be the one after the last. -/
theorem of_extendMatrix {α : Type} [Scalar α] {a b : SystemMatrix α}
    {e : LinearEquation α} {aux : Nat} (h : extendMatrix a e aux = .ok b) :
    aux = a.columnCount ∧ ∃ grown filled, a.appendRow = .ok grown
      ∧ e.terms.foldlM (fun b t => b.addEntry a.rowCount t.var t.coefficient) grown.appendColumn
        = .ok filled
      ∧ filled.set a.rowCount aux (-1) = .ok b := by
  obtain ⟨grown, hgrown, h⟩ := Checked.bind_eq_ok.mp h
  obtain ⟨_, hlast, h⟩ := Checked.bind_eq_ok.mp h
  obtain ⟨filled, hfilled, h⟩ := Checked.bind_eq_ok.mp h
  refine ⟨?_, grown, filled, hgrown, hfilled, h⟩
  rw [Checked.require_eq_ok.mp hlast, ← SystemMatrix.columnCount_of_appendRow hgrown]
  rfl

/-- **The matrix with the new row.** -/
theorem extendMatrix_spec {a b : SystemMatrix (Extended K)} (ha : a.WellFormed)
    {e : LinearEquation (Extended K)} (he : e.IsFinite)
    (hvars : ∀ t ∈ e.terms, t.var < a.columnCount) {aux : Nat} (h : extendMatrix a e aux = .ok b) :
    b.WellFormed ∧ b.rowCount = a.rowCount + 1 ∧ b.columnCount = a.columnCount + 1
      ∧ (∀ i < a.rowCount, ∀ j < a.columnCount, b.coeff i j = a.coeff i j)
      ∧ (∀ i < a.rowCount, b.coeff i a.columnCount = 0)
      ∧ b.coeff a.rowCount a.columnCount = -1
      ∧ ∀ s : Nat → K, ∑ j ∈ Finset.range a.columnCount, b.coeff a.rowCount j * s j
          = e.weigh s := by
  obtain ⟨rfl, grown, filled, hgrown, hfilled, h⟩ := of_extendMatrix h
  obtain ⟨grown', hgrown', hrow⟩ := SystemMatrix.Represents.appendRow ha fun j _ =>
    ha.coeff_eq_zero fun h => Nat.lt_irrefl _ h.1
  cases hgrown.symm.trans hgrown'
  have hcolumn := hrow.appendColumn fun i _ => ha.coeff_eq_zero fun h => Nat.lt_irrefl _ h.2
  obtain ⟨B, hB, hold, hnew⟩ := fill_spec he.terms hvars hcolumn hfilled
  rw [one_eq, fin_neg] at h
  obtain ⟨-, -, hb⟩ := hB.of_set h
  -- The new column is zero before its entry is set.
  have hlast (i : Nat) : B i a.columnCount = 0 := by
    rw [hold i _ (.inr (le_refl _))]
    exact ha.coeff_eq_zero fun h => Nat.lt_irrefl _ h.2
  refine ⟨hb.wellFormed, hb.rowCount, hb.columnCount, fun i hi j hj => ?_, fun i hi => ?_, ?_,
    fun s => ?_⟩
  · rw [hb.coeff_eq (by omega) (by omega), if_neg (by omega), hold i j (.inl (by omega))]
  · rw [hb.coeff_eq (by omega) (by omega), if_neg (by omega), hlast]
  · rw [hb.coeff_eq (by omega) (by omega), if_pos ⟨rfl, rfl⟩]
  · have hrow (j : Nat) (hj : j < a.columnCount) : b.coeff a.rowCount j = B a.rowCount j := by
      rw [hb.coeff_eq (by omega) (by omega), if_neg (by omega)]
    have hzero (j : Nat) : a.coeff a.rowCount j = 0 :=
      ha.coeff_eq_zero fun h => Nat.lt_irrefl _ h.1
    rw [Finset.sum_congr rfl fun j hj => by rw [hrow j (Finset.mem_range.mp hj)], hnew s,
      Finset.sum_eq_zero fun j _ => by rw [hzero, zero_mul], zero_add]
    rfl

/-! ## §2.  The state -/

/-- One more row, which holds, and one more variable; the other rows are as far off as before. -/
structure Extends (t u : State (Extended K)) : Prop where
  wellFormed : u.WellFormed
  rowCount : u.rowCount = t.rowCount + 1
  varCount : u.varCount = t.varCount + 1
  settled : u.settled = t.settled
  residual : ∀ i < t.rowCount, u.residual i = t.residual i
  newResidual : u.residual t.rowCount = 0

/-- The new row holds if the new variable has the value of the residual. -/
theorem extends_of_push {s s' : State (Extended K)} (hs : s.WellFormed)
    {e : LinearEquation (Extended K)} (he : e.IsFinite) (hvars : ∀ t ∈ e.terms, t.var < s.varCount)
    (hmatrix : extendMatrix s.matrix e s.varCount = .ok s'.matrix)
    {l u : Extended K} (hl : l < Scalar.infinity) (hu : -Scalar.infinity < u)
    (hbounds : s.bounds.push l u = .ok s'.bounds) (hsplit : s'.split = s.split.pushBasic)
    (hrhs : s'.rightHandSide = s.rightHandSide ++ [e.scalar])
    (hbasic : s'.basicValues = s.basicValues ++ [fin (e.weigh s.stored - e.scalar.val)])
    (hnon : s'.nonBasicValues = s.nonBasicValues) (hsettled : s'.settled = s.settled) :
    Extends s s' := by
  obtain ⟨hm, hrow, hcol, hold, hzero, hone, hweigh⟩ := extendMatrix_spec hs.matrix he hvars hmatrix
  obtain ⟨hb, -⟩ := hs.bounds.push hl hu hbounds
  obtain ⟨hp, hvar, hlast, hother⟩ := hs.split.pushBasic
  obtain ⟨b, he'⟩ := he.scalar
  have hrow : s'.rowCount = s.rowCount + 1 := hrow
  have hcol : s'.varCount = s.varCount + 1 := hcol
  have hnonBasic : s'.nonBasicCount = s.nonBasicCount := by
    rw [State.nonBasicCount, State.nonBasicCount, hrow, hcol]
    omega
  have hwf : s'.WellFormed := by
    refine ⟨hm, ?_, by rw [hcol]; exact hb, by rw [hrow, hcol, hsplit]; exact hp, ?_, ?_⟩
    · rw [hrow, hrhs, he']
      exact hs.rhs.append (Numbers.singleton b)
    · rw [hrow, hbasic]
      exact hs.basic.append (Numbers.singleton _)
    · rw [hnonBasic, hnon]
      exact hs.nonBasic
  have hcoordBasic (k : Nat) (hk : k < s.rowCount) : coord s'.basicValues k
    = coord s.basicValues k := by
    rw [hbasic, coord_append_left (by rw [hs.basic.length]; exact hk)]
  have hcoordNew : coord s'.basicValues s.rowCount = e.weigh s.stored - e.scalar.val := by
    rw [hbasic, ← hs.basic.length, coord_append_length]
  -- the left-hand side of a row, by the old variables and the new one
  have hleft (i : Nat) : s'.residual i
      = ∑ k ∈ Finset.range s.rowCount, s'.matrix.coeff i (s.split.basicVar k)
      * coord s.basicValues k
        + s'.matrix.coeff i s.varCount * (e.weigh s.stored - e.scalar.val)
        + ∑ j ∈ Finset.range s.nonBasicCount,
            s'.matrix.coeff i (s.split.nonBasicVar j) * coord s.nonBasicValues j
        - coord s'.rightHandSide i := by
    rw [hwf.residual_eq, hrow, hnonBasic, Finset.sum_range_succ, hsplit, hlast, hcoordNew, hnon]
    congr 3
    refine Finset.sum_congr rfl fun k hk => ?_
    rw [hvar k (Finset.mem_range.mp hk), hcoordBasic k (Finset.mem_range.mp hk)]
  refine ⟨hwf, hrow, hcol, hsettled, fun i hi => ?_, ?_⟩
  · rw [hleft i, hs.residual_eq, show s'.matrix.coeff i s.varCount = 0 from hzero i hi, zero_mul,
      add_zero, hrhs, coord_append_left (by rw [hs.rhs.length]; exact hi)]
    congr 2
    · refine Finset.sum_congr rfl fun k hk => ?_
      rw [hold i hi _ (hs.split.basicVar_lt (Finset.mem_range.mp hk))]
    · refine Finset.sum_congr rfl fun j hj => ?_
      rw [hold i hi _ (hs.split.nonBasicVar_lt (Finset.mem_range.mp hj))]
  · have hscalar : coord s'.rightHandSide s.rowCount = e.scalar.val := by
      rw [hrhs, he', ← hs.rhs.length, coord_append_length, val_fin]
    have hsum := hweigh s.stored
    rw [show s.matrix.columnCount = s.varCount from rfl, hs.split.sum_vars] at hsum
    rw [hleft, show s'.matrix.coeff s.rowCount s.varCount = -1 from hone, hscalar]
    have hbasicSum : ∑ k ∈ Finset.range s.rowCount,
          s'.matrix.coeff s.rowCount (s.split.basicVar k) * s.stored (s.split.basicVar k)
        = ∑ k ∈ Finset.range s.rowCount,
          s'.matrix.coeff s.rowCount (s.split.basicVar k) * coord s.basicValues k :=
      Finset.sum_congr rfl fun k hk => by rw [hs.stored_basicVar (Finset.mem_range.mp hk)]
    have hotherSum : ∑ j ∈ Finset.range s.nonBasicCount,
          s'.matrix.coeff s.rowCount (s.split.nonBasicVar j) * s.stored (s.split.nonBasicVar j)
        = ∑ j ∈ Finset.range s.nonBasicCount,
          s'.matrix.coeff s.rowCount (s.split.nonBasicVar j) * coord s.nonBasicValues j :=
      Finset.sum_congr rfl fun j hj => by rw [hs.stored_nonBasicVar (Finset.mem_range.mp hj)]
    have hsum' : ∑ k ∈ Finset.range s.rowCount,
          s'.matrix.coeff s.rowCount (s.split.basicVar k) * coord s.basicValues k
        + ∑ j ∈ Finset.range s.nonBasicCount,
          s'.matrix.coeff s.rowCount (s.split.nonBasicVar j) * coord s.nonBasicValues j
        = e.weigh s.stored := by
      rw [← hbasicSum, ← hotherSum]
      exact hsum
    linear_combination hsum'

/-! ## §3.  The equation -/

/-- The standings after a variable was added whose standing is recorded. -/
theorem freshStandings_concat {s s' : State (Extended K)} (hs : s.WellFormed)
    (hrow : s'.rowCount = s.rowCount + 1) (hsplit : s'.split = s.split.pushBasic)
    {x l u τ : Extended K} (hl : l < Scalar.infinity) (hu : -Scalar.infinity < u)
    (hbasic : s'.basicValues = s.basicValues ++ [x]) (hbounds : s.bounds.push l u = .ok s'.bounds)
    (hst : s.standings = freshStandings s τ) :
    (s.standings ++ [Standing.between]).set s.rowCount (s'.standing τ s.rowCount)
      = freshStandings s' τ := by
  obtain ⟨-, hvar, -, -⟩ := hs.split.pushBasic
  obtain ⟨-, hbound, -⟩ := hs.bounds.push hl hu hbounds
  have hlen : s.standings.length = s.rowCount := by rw [hst, List.length_map, List.length_range]
  -- The new status is the last one; the others are those of values and bounds that have not moved.
  have hlast : (List.range s'.rowCount).map (s'.standing τ)
      = (List.range s.rowCount).map (s'.standing τ) ++ [s'.standing τ s.rowCount] := by
    rw [hrow, List.range_succ, List.map_append, List.map_singleton]
  show _ = (List.range s'.rowCount).map (s'.standing τ)
  rw [hlast, ← hlen, List.set_append_right _ _ (le_refl _), Nat.sub_self, hlen]
  show s.standings ++ [s'.standing τ s.rowCount] = _
  congr 1
  rw [hst]
  refine List.map_congr_left fun k hk => ?_
  have hk := List.mem_range.mp hk
  obtain ⟨hlow, hupp⟩ := hbound _ (hs.split.basicVar_lt hk)
  show Standing.classify _ _ _ _ = Standing.classify _ _ _ _
  rw [hsplit, hvar k hk, hlow, hupp, hbasic, coord_append_left (by rw [hs.basic.length]; exact hk)]

/-- `u` is `s` with a row for `e` and a new basic variable, whose bounds and value are what the
    equation makes of those of the others.  Standings are taken up to `τ`. -/
structure AddsRow {α : Type} [Scalar α] (s u : State α) (e : LinearEquation α) (τ l b x : α) :
    Prop where
  interval : e.residualBounds s.bounds.lower s.bounds.upper = .ok (l, b)
  value : e.residual s.storedValue = .ok x
  matrix : extendMatrix s.matrix e s.varCount = .ok u.matrix
  bounds : s.bounds.push l b = .ok u.bounds
  split : u.split = s.split.pushBasic
  rightHandSide : u.rightHandSide = s.rightHandSide ++ [e.scalar]
  basicValues : u.basicValues = s.basicValues ++ [x]
  nonBasicValues : u.nonBasicValues = s.nonBasicValues
  standings : ∃ standing, u.standingAt τ (u.rowCount - 1) = .ok standing
    ∧ u.standings = (s.standings ++ [Standing.between]).set (u.rowCount - 1) standing
  settled : u.settled = s.settled
  merges : u.merges = s.merges

/-- The parts of a state that a new equation changes. -/
theorem of_extendState {α : Type} [Scalar α] {t w : Tableau α} {e : LinearEquation α} {l b x : α}
    {aux : Nat} (h : t.extendState e l b x = .ok (aux, w)) :
    ∃ matrix bounds standing, extendMatrix t.matrix e t.varCount = .ok matrix
      ∧ t.bounds.push l b = .ok bounds
      ∧ w.standingAt t.settings.boundTolerance (matrix.rowCount - 1) = .ok standing
      ∧ aux = t.varCount
      ∧ w = { t with
          matrix, bounds
          split := t.split.pushBasic
          rightHandSide := t.rightHandSide ++ [e.scalar]
          basicValues := t.basicValues ++ [x]
          standings := (t.standings ++ [Standing.between]).set (matrix.rowCount - 1) standing
          multipliers := t.multipliers ++ [0] } := by
  obtain ⟨matrix, hmatrix, h⟩ := Checked.bind_eq_ok.mp h
  obtain ⟨bounds, hbounds, h⟩ := Checked.bind_eq_ok.mp h
  obtain ⟨v, hv, h⟩ := Checked.bind_eq_ok.mp h
  obtain ⟨standing, hstanding, hv⟩ := Checked.bind_eq_ok.mp hv
  obtain ⟨ss, hset, hv⟩ := Checked.bind_eq_ok.mp hv
  obtain ⟨-, rfl⟩ := Checked.setAt_eq_ok.mp hset
  cases hv
  cases h
  -- the split and the matrix agree about the new variable
  have hlast : t.split.positions.length = t.varCount := (of_extendMatrix hmatrix).1
  rw [hlast] at hmatrix
  exact ⟨matrix, bounds, standing, hmatrix, hbounds, hstanding, hlast, rfl⟩

/-- **An equation that was accepted**, in any arithmetic.  The inverse was computed afresh. -/
theorem addEquation_state {α : Type} [Scalar α] {t u : Tableau α} {e : LinearEquation α} {aux : Nat}
    (h : t.addEquation e = .ok (.ok aux, u)) :
    aux = t.varCount ∧ u.settings = t.settings ∧ u.hasBasis = true ∧ u.pricing.stale = true
      ∧ (∃ l b x, AddsRow t.toState u.toState (e.rename t.merges.resolve)
          t.settings.boundTolerance l b x)
      ∧ ∃ w : Tableau α, w.toState = u.toState ∧ w.refactor = .ok (.ok (), u) := by
  obtain ⟨_, hb, h⟩ := Checked.bind_eq_ok.mp h
  split at h
  · cases h
  obtain ⟨⟨l, b⟩, hinterval, h⟩ := Checked.bind_eq_ok.mp h
  obtain ⟨x, hx, h⟩ := Checked.bind_eq_ok.mp h
  obtain ⟨⟨new, w⟩, hw, h⟩ := Checked.bind_eq_ok.mp h
  obtain ⟨⟨r, v⟩, hrefactor, h⟩ := Checked.bind_eq_ok.mp h
  obtain ⟨matrix, bounds, standing, hmatrix, hbounds, hstanding, rfl, rfl⟩ := of_extendState hw
  cases r with
  | error cause => cases h
  | ok _ =>
    cases h
    have hend := hrefactor
    obtain ⟨inverse, ⟨_, _, rfl⟩, -⟩ := refactor_spec hrefactor
    refine ⟨rfl, rfl, Checked.require_eq_ok.mp hb, rfl, ⟨l, b, x, ?_⟩, _, ?_, hend⟩
    · exact ⟨hinterval, hx, hmatrix, hbounds, rfl, rfl, rfl, rfl,
        ⟨standing, hstanding, rfl⟩, rfl, rfl⟩
    · rfl

section AddsRow

variable {s u : State (Extended K)} {e : LinearEquation (Extended K)} {τ l b x : Extended K}

/-- The terms of an equation that was accepted name variables, and the new value is the residual. -/
theorem AddsRow.value_eq (h : AddsRow s u e τ l b x) (hs : s.WellFormed) (he : e.IsFinite) :
    x = fin (e.weigh s.stored - e.scalar.val) ∧ ∀ t ∈ e.terms, t.var < s.varCount := by
  refine LinearEquation.residual_spec he (fun v y hy => ?_) h.value
  have hv : v < s.varCount := by
    obtain ⟨i, hi, -⟩ := Checked.bind_eq_ok.mp hy
    exact (hs.split.lt_of_positionOf hi).1
  rw [hs.storedValue_eq hv] at hy
  cases hy
  exact ⟨hv, rfl⟩

/-- The standing of the new row is that of the new value. -/
theorem AddsRow.standing_eq (h : AddsRow s u e τ l b x) (hext : Extends s u) :
    u.standings = (s.standings ++ [Standing.between]).set s.rowCount (u.standing τ s.rowCount) := by
  obtain ⟨standing, hstanding, hst⟩ := h.standings
  rw [hext.rowCount, Nat.add_sub_cancel] at hstanding hst
  rw [hext.wellFormed.standingAt_eq τ (hext.rowCount ▸ Nat.lt_succ_self _)] at hstanding
  cases hstanding
  exact hst

variable [IsStrictOrderedRing K]

/-- The bounds of the new variable are proper, and the equations of the old ones are as
    far off as before. -/
theorem AddsRow.extends (h : AddsRow s u e τ l b x) (hs : s.WellFormed) (he : e.IsFinite) :
    l < Scalar.infinity ∧ -Scalar.infinity < b ∧ Extends s u := by
  obtain ⟨hx, hterms⟩ := h.value_eq hs he
  obtain ⟨hl, hb⟩ := LinearEquation.residualBounds_spec he
    (fun v y hy => hs.bounds.lowers.of_getElem? (Checked.getAt_eq_ok.mp hy))
    (fun v y hy => hs.bounds.uppers.of_getElem? (Checked.getAt_eq_ok.mp hy)) h.interval
  exact ⟨hl, hb, extends_of_push hs he hterms h.matrix hl hb h.bounds h.split h.rightHandSide
    (hx ▸ h.basicValues) h.nonBasicValues h.settled⟩

end AddsRow

section Add

variable [IsStrictOrderedRing K]

/-- **An equation that was accepted** makes one more row, which holds. -/
theorem sound_of_addEquation (hs : t.toState.WellFormed)
    (hst : t.standings = freshStandings t.toState t.settings.boundTolerance)
    {e : LinearEquation (Extended K)} (he : e.IsFinite) {aux : Nat}
    (h : t.addEquation e = .ok (.ok aux, u)) :
    u.Sound ∧ Extends t.toState u.toState ∧ u.settings = t.settings := by
  obtain ⟨-, hsettings, hbasis, -, ⟨l, b, x, hadds⟩, w, hw, hrefactor⟩ := addEquation_state h
  obtain ⟨hl, hb, hext⟩ := hadds.extends hs (he.rename _)
  obtain ⟨-, -, hsolvable⟩ := solvable_of_refactor (hw ▸ hext.wellFormed) hrefactor
  refine ⟨⟨hsolvable, ?_, hbasis⟩, hext, hsettings⟩
  rw [hsettings, hadds.standing_eq hext]
  exact freshStandings_concat hs hext.rowCount hadds.split hl hb hadds.basicValues hadds.bounds hst

theorem addEquation_spec (ht : t.Sound) {e : LinearEquation (Extended K)}
    (he : e.IsFinite) {aux : Nat} (h : t.addEquation e = .ok (.ok aux, u)) :
    u.Sound ∧ Extends t.toState u.toState ∧ u.settings = t.settings :=
  sound_of_addEquation ht.state ht.standings he h

end Add

end BoundedSimplex.Tableau
