/-
  BoundedSimplex.Proofs.Initialization — starting from a list of basic variables.

  In exact arithmetic a start from a list whose columns are accepted is accepted: the variables that
  are not basic are put on their bounds, the others solve the equations, and the check at the end
  finds nothing.  The basic values are the only solution and the costs have the only multipliers, so
  the order of the list shows in nothing but the order of the rows.

  Main results:
    * `Solvable.stored_unique` — solutions that agree off the basis;
    * `Startable.exists_startFrom`, `Startable.startsOut` — a start that is accepted,
      and what it leads to;
    * `StartsOut.reorder` — lists with the same variables;
    * `startFrom_contract` — the outcomes of a start, and what they depend on.
-/
import BoundedSimplex.Proofs.Consistent
import BoundedSimplex.Proofs.RowsAndColumns
import BoundedSimplex.Proofs.SettingOut
import BoundedSimplex.Proofs.Tableau.Following

namespace BoundedSimplex

open BasisSplit Extended Matrix

variable {K : Type} [Field K] [LinearOrder K]

/-! ## §1.  The only solution -/

/-- **Solutions that agree off the basis** agree on it. -/
theorem Tableau.Solvable.stored_unique {t : Tableau (Extended K)} (h : t.Solvable) {z : Nat → K}
    (hother : ∀ v < t.varCount, t.split.isBasic v = false → z v = t.toState.stored v)
    (hrows : ∀ i < t.rowCount, ∑ v ∈ Finset.range t.varCount, t.matrix.coeff i v * z v
      = ∑ v ∈ Finset.range t.varCount, t.matrix.coeff i v * t.toState.stored v)
    {v : Nat} (hv : v < t.varCount) : z v = t.toState.stored v := by
  have hsplit := h.state.split
  -- the basis maps both lists of basic values to the same left-hand sides
  have hmul : t.toState.basis *ᵥ (fun k : Fin t.rowCount => z (t.split.basicVar k))
      = t.toState.basis *ᵥ fun k : Fin t.rowCount => t.toState.stored (t.split.basicVar k) := by
    funext i
    have hothers : ∑ j ∈ Finset.range (t.varCount - t.rowCount),
        t.matrix.coeff i (t.split.nonBasicVar j) * z (t.split.nonBasicVar j)
          = ∑ j ∈ Finset.range (t.varCount - t.rowCount),
            t.matrix.coeff i (t.split.nonBasicVar j)
              * t.toState.stored (t.split.nonBasicVar j) := by
      refine Finset.sum_congr rfl fun j hj => ?_
      have hj := Finset.mem_range.mp hj
      rw [hother _ (hsplit.nonBasicVar_lt hj) (hsplit.isBasic_nonBasicVar hj)]
    have hrow := hrows i i.isLt
    rw [hsplit.sum_vars, hsplit.sum_vars, hothers, add_left_inj, Finset.sum_range,
      Finset.sum_range] at hrow
    exact hrow
  cases hb : t.split.isBasic v with
  | false => exact hother v hv hb
  | true =>
    obtain ⟨hi, hvar⟩ := hsplit.of_isBasic hv hb
    have hentry := congrFun (mulVec_injective_of_isUnit h.unit hmul) ⟨_, hi⟩
    rwa [hvar] at hentry

namespace Tableau

variable {t u w : Tableau (Extended K)} {vs : List Nat}

/-! ## §2.  A start that is accepted -/

/-- A tableau in shape, with finite numbers and proper bounds. -/
structure Startable (t : Tableau (Extended K)) : Prop where
  shaped : t.Shaped False t.settings
  matrix : t.matrix.WellFormed
  rightHandSide : Numbers t.rowCount t.rightHandSide
  bounds : t.bounds.WellFormed t.varCount

/-- What a start from a list leads to.  The variables of the list are basic, in its order, and the
    others have their starting values; the equations hold, the standings are those of the values,
    and the costs are the ones that would be computed. -/
structure StartsOut (t : Tableau (Extended K)) (vs : List Nat)
    (u : Tableau (Extended K)) : Prop where
  arranged : u.split.Arranged t.rowCount t.varCount vs
  nonBasicValues : u.nonBasicValues = u.split.nonBasic.map fun v => fin (t.bounds.startOf v)
  residual : ∀ i < u.rowCount, u.toState.residual i = 0
  sound : u.Sound
  settled : u.settled = true
  stale : u.pricing.stale = false
  costs : ∃ p, u.pricing.compute u.pricingView = .ok p ∧ p.costs = u.pricing.costs
  problem : SameProblem t u
  merges : u.merges = t.merges

/-- Nothing merged, and nothing selected. -/
def unmerged (t : Tableau (Extended K)) : Tableau (Extended K) :=
  { t with merges := .none, plan := .none }

/-- Dropping merges and selection does not spoil the shape or the problem. -/
theorem Startable.unmerged (ht : t.Startable) : t.unmerged.Startable :=
  ⟨(ht.shaped.withMerges .none).clearPlan, ht.matrix, ht.rightHandSide, ht.bounds⟩

/-- What can be started is what the completion of a setup asks for, whatever it
    claims about a basis. -/
theorem Startable.prepared (ht : t.Startable) (hasBasis : Bool) :
    Prepared { t.unmerged with hasBasis } :=
  ⟨ht.matrix, ht.rightHandSide, ht.bounds, ht.shaped.state.places, rfl, rfl⟩

/-- What was merged or selected does not matter. -/
theorem startFrom_unmerged (t : Tableau (Extended K)) (vs : List Nat) :
    Agree StartAgree (t.unmerged.startFrom vs) (t.startFrom vs) :=
  SameProblem.startFrom (t := t.unmerged) (u := t) ⟨rfl, rfl, rfl, rfl, rfl⟩ (.refl t.inverse) vs

/-- Merges have no part in soundness. -/
theorem StartedAlike.sound (h : StartedAlike t u) (ht : t.Sound) : u.Sound := by
  obtain ⟨hs, hf, hσ, hb, -, -, -⟩ := h
  obtain ⟨s, _, _, _, _, _, _, _, _, _⟩ := u
  obtain ⟨_, rfl⟩ : ∃ merges, s = { t.toState with merges } := ⟨_, hs⟩
  dsimp only at hf hσ hb
  subst hf hσ hb
  have hstate := ht.state
  exact ⟨⟨⟨hstate.matrix, hstate.rhs, hstate.bounds, hstate.split, hstate.basic, hstate.nonBasic⟩,
    ht.unit, ht.inverse⟩, ht.standings, ht.hasBasis⟩

section Accepted

variable [IsStrictOrderedRing K]

theorem Startable.exists_startFrom_unmerged (ht : t.Startable)
    (hvs : FillsRows t.rowCount t.varCount vs) {columns : List (List (Extended K))}
    (hcolumns : vs.mapM t.matrix.column = .ok columns) {inverse : BasisInverse (Extended K)}
    (hinverse : t.inverse.refresh columns = .ok inverse) :
    ∃ u, t.unmerged.startFrom vs = .ok (.ok (), u) := by
  obtain ⟨split, values, hsplit, hvalues, hstart⟩ :=
    exists_startFrom_eq_launch ht.unmerged.shaped hvs
  have hlen : values.length = t.unmerged.nonBasicCount :=
    (Checked.length_of_mapM hvalues).trans hsplit.wellFormed.nonBasic.length
  have hshaped := ht.unmerged.shaped.vacated hsplit.wellFormed hsplit.marked hlen
  obtain ⟨w, hw⟩ := exists_refactor_of_refresh
    (t := { t.unmerged with hasBasis := false }.vacated split values)
    ((basisColumns_of_arranged hsplit).trans hcolumns) hinverse
  obtain ⟨v, u, hv, hu, hushaped, -, -, -, hlaunch⟩ := hshaped.exists_launch hsplit.wellFormed hw
  have hvalues := hvalues
  rw [ht.unmerged.bounds.mapM_startValue hsplit.wellFormed] at hvalues
  cases hvalues
  have hstarted := started_of_refactor (ht.prepared false) hsplit.wellFormed hw hv hu
  have hτ : (0 : K) ≤ ((1 : Nat) : K) / ((Nat.pow 10 6 : Nat) : K) := by positivity
  -- The check at the end passes: no residual is left, so the tolerance is not used up.
  have hcheck : u.isConsistent 1e-6 = .ok true := by
    unfold isConsistent
    rw [if_pos hstarted.sound.hasBasis]
    exact hstarted.sound.state.isConsistent_of_residual hushaped.state.marked hstarted.residual
      hstarted.sound.standings hτ
  refine ⟨u, ?_⟩
  rw [hstart, hlaunch, requireConsistent_eq_ok (.inr hcheck)]
  rfl

/-- **A start from a list whose columns are accepted** is accepted. -/
theorem Startable.exists_startFrom (ht : t.Startable) (hvs : FillsRows t.rowCount t.varCount vs)
    {columns : List (List (Extended K))} (hcolumns : vs.mapM t.matrix.column = .ok columns)
    {inverse : BasisInverse (Extended K)} (hinverse : t.inverse.refresh columns = .ok inverse) :
    ∃ u, t.startFrom vs = .ok (.ok (), u) := by
  obtain ⟨w, hw⟩ := ht.exists_startFrom_unmerged hvs hcolumns hinverse
  obtain ⟨u, hu, -⟩ := StartAgree.accepted_right (startFrom_unmerged t vs) hw
  exact ⟨u, hu⟩

/-- **What a start leads to.** -/
theorem Startable.startsOut (ht : t.Startable) (h : t.startFrom vs = .ok (.ok (), u)) :
    t.StartsOut vs u := by
  obtain ⟨harranged, hmerges⟩ := arranged_of_startFrom ht.shaped h
  obtain ⟨w, hw, halike⟩ := StartAgree.accepted_left (startFrom_unmerged t vs) h
  have hstarted := startFrom_spec (ht.prepared t.hasBasis) hw
  have hsound := halike.sound hstarted.sound
  obtain ⟨p, hrule, hcompute⟩ := hstarted.priced
  -- costs that are computed once more are the same
  have hagree := Pricing.compute_agree (p := p) rfl w.pricingView
  rw [hcompute] at hagree
  obtain ⟨hwrule, -, -, -⟩ := Agree.ok_iff.mp hagree
  have hview : u.pricingView = w.pricingView := by
    unfold pricingView
    rw [halike.state, halike.inverse]
  have hrules : u.pricing.rule = p.rule := halike.rule.trans hwrule
  refine ⟨harranged, ?_, fun i hi => ?_, hsound, ?_, ?_, ?_, ⟨?_, ?_, ?_, ?_, ?_⟩, hmerges⟩
  · have hbounds : w.bounds = t.bounds := hstarted.bounds
    have hcount : u.varCount - u.rowCount = w.nonBasicCount := by rw [halike.state]; rfl
    have hvalues : u.nonBasicValues = w.nonBasicValues := by rw [halike.state]
    have hsplit : u.split = w.split := by rw [halike.state]
    rw [hvalues, hstarted.sound.state.nonBasic.eq_map_range, hsound.state.split.nonBasic_eq,
      List.map_map, hcount]
    refine List.map_congr_left fun j hj => congrArg fin ?_
    rw [hstarted.values j (List.mem_range.mp hj), hbounds, hsplit]
  · have hrow : u.rowCount = w.rowCount := by rw [halike.state]; rfl
    rw [halike.state]
    exact hstarted.residual i (hrow ▸ hi)
  · rw [halike.state]
    exact hstarted.settled
  · exact halike.stale.trans (Pricing.length_compute hcompute).1
  · have hagree := Pricing.compute_agree hrules w.pricingView
    rw [hcompute, ← hview] at hagree
    generalize hr : u.pricing.compute u.pricingView = r at hagree
    cases hagree with
    | ok related => exact ⟨_, rfl, related.2.2.1.trans halike.costs.symm⟩
  · exact (congrArg State.matrix halike.state).trans hstarted.matrix
  · exact (congrArg State.rightHandSide halike.state).trans hstarted.rhs
  · exact (congrArg State.bounds halike.state).trans hstarted.bounds
  · exact halike.settings.trans hstarted.settings
  · exact hrules.trans hrule

end Accepted

/-! ## §3.  The order of the list -/

/-- A status is recorded for each row. -/
theorem Sound.length_standings (ht : t.Sound) : t.standings.length = t.rowCount := by
  rw [ht.standings, List.length_map, List.length_range]

/-- The recorded standing of a basic variable is that of its value. -/
theorem Sound.standing_at (ht : t.Sound) {v : Nat} (hv : v < t.varCount)
    (hb : t.split.isBasic v = true) :
    t.standings[t.split.place v]? = some (.classify (fin (t.toState.stored v)) (t.bounds.lowerOf v)
      (t.bounds.upperOf v) t.settings.boundTolerance) := by
  obtain ⟨hi, hvar⟩ := ht.state.split.of_isBasic hv hb
  rw [ht.standings, List.getElem?_map, List.getElem?_range hi, State.stored, if_pos hb]
  show some (t.toState.standing _ (t.split.place v)) = _
  rw [State.standing, hvar]

/-- What is answered about a basic variable is the status of its value. -/
theorem Sound.standingOf_eq (ht : t.Sound) {v : Nat} (hv : v < t.varCount)
    (hb : t.split.isBasic v = true) :
    t.standingOf v = .ok (.classify (fin (t.toState.stored v)) (t.bounds.lowerOf v)
      (t.bounds.upperOf v) t.settings.boundTolerance) :=
  Checked.bind_eq_ok.mpr ⟨(), Checked.require_eq_ok.mpr hb, Checked.bind_eq_ok.mpr
    ⟨_, ht.state.split.positionOf_eq hv, Checked.getAt_eq_ok.mpr (ht.standing_at hv hb)⟩⟩

/-- The same start but for the order of the rows: every variable has the same value and
    standing, and every non-basic position the same variable, value and, unless each row has a
    weight, the same cost. -/
structure StartedInOrder (t u : Tableau (Extended K)) : Prop where
  isBasic : ∀ v, u.split.isBasic v = t.split.isBasic v
  storedValue : ∀ v, u.storedValue v = t.storedValue v
  value : u.merges = t.merges → ∀ v, u.value v = t.value v
  standingOf : ∀ v, u.standingOf v = t.standingOf v
  nonBasic : u.split.nonBasic = t.split.nonBasic
  nonBasicValues : u.nonBasicValues = t.nonBasicValues
  costs : (∀ weights, t.pricing.rule ≠ .weighted weights) → u.pricing.costs = t.pricing.costs

namespace StartsOut

/-- A non-basic variable has its starting value. -/
theorem stored_of_not_isBasic (hu : t.StartsOut vs u) {v : Nat} (hv : v < u.varCount)
    (hb : u.split.isBasic v = false) : u.toState.stored v = t.bounds.startOf v := by
  have hsplit := hu.sound.state.split
  obtain ⟨hj, hvar⟩ := hsplit.of_not_isBasic hv hb
  rw [State.stored, if_neg (by simp [hb])]
  refine coord_of_getElem? ?_
  rw [hu.nonBasicValues, List.getElem?_map, (hsplit.nonBasic_at hj).1, hvar]
  rfl

section Reorder

variable {t' u' : Tableau (Extended K)} {ws : List Nat} (hu : t.StartsOut vs u)
  (hu' : t'.StartsOut ws u') (h : SameProblem t t') (hperm : vs.Perm ws)
include hu hu'

include h in
/-- Two starts of one problem have the problem in common. -/
theorem sameProblem : SameProblem u u' where
  matrix := hu'.problem.matrix.trans (h.matrix.trans hu.problem.matrix.symm)
  rightHandSide :=
    hu'.problem.rightHandSide.trans (h.rightHandSide.trans hu.problem.rightHandSide.symm)
  bounds := hu'.problem.bounds.trans (h.bounds.trans hu.problem.bounds.symm)
  settings := hu'.problem.settings.trans (h.settings.trans hu.problem.settings.symm)
  rule := hu'.problem.rule.trans (h.rule.trans hu.problem.rule.symm)

include hperm

/-- Lists with the same members mark the same variables as basic. -/
theorem isBasic_eq (v : Nat) : u'.split.isBasic v = u.split.isBasic v :=
  Bool.eq_iff_iff.mpr <| (hu'.arranged.isBasic_iff v).trans <|
    hperm.mem_iff.symm.trans (hu.arranged.isBasic_iff v).symm

include h

/-- The non-basic variables are in the order of their numbers, whatever the order of the list. -/
theorem nonBasic_eq : u'.split.nonBasic = u.split.nonBasic := by
  rw [hu'.arranged.nonBasic, hu.arranged.nonBasic, h.varCount]
  refine List.filter_congr fun v _ => ?_
  rw [decide_eq_decide, hperm.mem_iff]

/-- Every variable has the same value: the non-basic ones their starting values, and the others
    those that the equations leave them. -/
theorem stored_eq {v : Nat} (hv : v < u.varCount) : u'.toState.stored v = u.toState.stored v := by
  have hp := hu.sameProblem hu' h
  have hrow := hp.rowCount
  have hvar := hp.varCount
  refine hu.sound.toSolvable.stored_unique (fun w hw hb => ?_) (fun i hi => ?_) hv
  · rw [hu.stored_of_not_isBasic hw hb, hu'.stored_of_not_isBasic (hvar.symm ▸ hw)
      ((hu.isBasic_eq hu' hperm w).trans hb), h.bounds]
  · have hleft := sub_eq_zero.mp (hu.residual i hi)
    have hright := sub_eq_zero.mp (hu'.residual i (hrow.symm ▸ hi))
    rw [hp.matrix, hp.rightHandSide, hvar] at hright
    exact hright.trans hleft.symm

/-- The value of every basic variable has the same standing. -/
theorem classify_eq {v : Nat} (hv : v < u.varCount) :
    Standing.classify (fin (u'.toState.stored v)) (u'.bounds.lowerOf v) (u'.bounds.upperOf v)
        u'.settings.boundTolerance
      = .classify (fin (u.toState.stored v)) (u.bounds.lowerOf v) (u.bounds.upperOf v)
        u.settings.boundTolerance := by
  have hp := hu.sameProblem hu' h
  rw [hu.stored_eq hu' h hperm hv, hp.bounds, hp.settings]

/-- The costs of one start are those of the standings of the other one. -/
theorem priced {basicCosts basicCosts' costs : List (Extended K)}
    (hbasic : basicCosts = u.standings.map Standing.cost)
    (hbasic' : basicCosts' = u'.standings.map Standing.cost)
    (hpriced : u'.toState.Priced basicCosts' costs) : u.toState.Priced basicCosts costs := by
  have hp := hu.sameProblem hu' h
  have hrow := hp.rowCount
  have hvar := hp.varCount
  have hcount : u'.nonBasicCount = u.nonBasicCount := by
    rw [State.nonBasicCount, State.nonBasicCount, hrow, hvar]
  have hweigh (y : Nat → K) (v : Nat) : u'.toState.weighed y v = u.toState.weighed y v := by
    rw [State.weighed, State.weighed, hrow, hp.matrix]
  obtain ⟨y, hrows, hothers⟩ := hpriced.multipliers
  refine ⟨?_, hcount ▸ hpriced.reduced, y, fun k hk => ?_, fun j hj => ?_⟩
  · rw [hbasic]
    exact hu.sound.length_standings ▸ numbers_cost u.standings
  · -- the variable of this row has another row in the other start
    have hsplit := hu.sound.state.split
    have hv := hsplit.basicVar_lt hk
    have hb := hsplit.isBasic_basicVar hk
    have hv' : u.split.basicVar k < u'.varCount := hvar.symm ▸ hv
    have hb' := (hu.isBasic_eq hu' hperm (u.split.basicVar k)).trans hb
    obtain ⟨hk', hvar'⟩ := hu'.sound.state.split.of_isBasic hv' hb'
    have hstanding := hu.sound.standing_at hv hb
    have hcost := hrows _ hk'
    rw [hsplit.place_basicVar hk] at hstanding
    rw [hvar', hweigh, hbasic'] at hcost
    rw [hcost, hbasic, coord, coord, List.getD_eq_getElem?_getD, List.getD_eq_getElem?_getD,
      List.getElem?_map, List.getElem?_map, hstanding, hu'.sound.standing_at hv' hb',
      hu.classify_eq hu' h hperm hv]
  · rw [hothers j (hcount.symm ▸ hj), hweigh, BasisSplit.nonBasicVar, hu.nonBasic_eq hu' h hperm]
    rfl

/-- Unless each row has a weight of its own, the costs do not depend on the order of the rows. -/
theorem costs_eq (hrule : ∀ weights, u.pricing.rule ≠ .weighted weights) :
    u'.pricing.costs = u.pricing.costs := by
  have hp := hu.sameProblem hu' h
  have hrow := hp.rowCount
  obtain ⟨p, hcompute, hcosts⟩ := hu.costs
  obtain ⟨p', hcompute', hcosts'⟩ := hu'.costs
  rw [← hcosts, ← hcosts']
  cases hrule₀ : u.pricing.rule with
  | infeasibility =>
    obtain ⟨-, hbasic, hpriced⟩ :=
      compute_spec hu.sound.toSolvable hu.sound.length_standings hrule₀ hcompute
    obtain ⟨-, hbasic', hpriced'⟩ := compute_spec hu'.sound.toSolvable hu'.sound.length_standings
      (hp.rule.trans hrule₀) hcompute'
    exact hu.sound.toSolvable.priced_unique (hu.priced hu' h hperm hbasic hbasic' hpriced') hpriced
  | fixed costs =>
    obtain ⟨_, -, hcompute⟩ := Checked.bind_eq_ok.mp hcompute
    obtain ⟨_, -, hcompute'⟩ := Checked.bind_eq_ok.mp hcompute'
    rw [hrule₀] at hcompute
    rw [hp.rule, hrule₀] at hcompute'
    cases hcompute
    cases hcompute'
    show Scalar.fit u'.split.nonBasic.length costs = Scalar.fit u.split.nonBasic.length costs
    rw [hu.nonBasic_eq hu' h hperm]
  | weighted weights => exact absurd hrule₀ (hrule weights)

/-- **The order of the list** decides the order of the rows, and nothing else. -/
theorem reorder : u.StartedInOrder u' := by
  have hp := hu.sameProblem hu' h
  have hvar := hp.varCount
  have hbasic := hu.isBasic_eq hu' hperm
  have hplaces : u'.split.positions.length = u.split.positions.length := by
    rw [hu.sound.state.split.places, hu'.sound.state.split.places]
    exact hvar
  -- Variables that exist by their values; the others are refused on both sides.
  have hstored (v : Nat) : u'.storedValue v = u.storedValue v := by
    by_cases hv : v < u.varCount
    · rw [hu.sound.state.storedValue_eq hv, hu'.sound.state.storedValue_eq (hvar.symm ▸ hv),
        hu.stored_eq hu' h hperm hv]
    · have hout : u.split.positions[v]? = none :=
        List.getElem?_eq_none (hu.sound.state.split.places.le.trans (not_lt.mp hv))
      have hout' : u'.split.positions[v]? = none :=
        List.getElem?_eq_none (hplaces.le.trans (List.getElem?_eq_none_iff.mp hout))
      unfold State.storedValue BasisSplit.positionOf BasisSplit.placeOf Checked.getAt
      rw [hout, hout', hplaces]
      rfl
  refine ⟨hbasic, hstored, fun hmerges v => ?_, fun v => ?_, hu.nonBasic_eq hu' h hperm, ?_,
    hu.costs_eq hu' h hperm⟩
  · unfold State.value State.requireVariable
    rw [hvar, hmerges]
    simp only [hstored]
  · by_cases hb : u.split.isBasic v = true
    · have hv : v < u.varCount := hu.sound.state.split.places ▸ hu.arranged.marked v hb
      rw [hu.sound.standingOf_eq hv hb, hu'.sound.standingOf_eq (hvar.symm ▸ hv)
        ((hbasic v).trans hb), hu.classify_eq hu' h hperm hv]
    · unfold State.standingOf State.requireBasic
      rw [hbasic, Checked.require, if_neg hb]
      rfl
  · rw [hu'.nonBasicValues, hu.nonBasicValues, hu.nonBasic_eq hu' h hperm, h.bounds]

end Reorder

end StartsOut

/-! ## §4.  All of it -/

/-- Finite coefficients and right-hand sides; no lower bound is `∞` and no upper bound is `-∞`. -/
structure FiniteProblem (t : Tableau (Extended K)) : Prop where
  coefficients : ∀ x ∈ t.matrix.dense, Scalar.isFinite x = true
  rightHandSide : ∀ x ∈ t.rightHandSide, Scalar.isFinite x = true
  lowers : ∀ l ∈ t.bounds.lowers, l < (Scalar.infinity : Extended K)
  uppers : ∀ u ∈ t.bounds.uppers, -(Scalar.infinity : Extended K) < u

theorem FiniteProblem.congr (ht : t.FiniteProblem) (h : SameProblem t u) : u.FiniteProblem where
  coefficients := h.matrix ▸ ht.coefficients
  rightHandSide := h.rightHandSide ▸ ht.rightHandSide
  lowers := h.bounds ▸ ht.lowers
  uppers := h.bounds ▸ ht.uppers

/-- After any run. -/
theorem Operated.startable {kind : StepKind (Extended K)} (ht : Operated kind t)
    (hp : t.FiniteProblem) :
    t.Startable := by
  obtain ⟨σ, hshape⟩ := ht.shaped
  obtain rfl := hshape.settings
  have hb := hshape.state.bounds
  refine ⟨hshape, ht.coherent.wellFormed hp.coefficients,
    ⟨hshape.state.rightHandSide, hp.rightHandSide⟩, ?_⟩
  have hlist (xs : List (Extended K)) (P : Extended K → Prop) (hlen : xs.length = t.varCount)
      (hxs : ∀ x ∈ xs, P x) : Listed t.varCount (fun _ => P) xs :=
    ⟨hlen, fun v hv => ⟨_, List.getElem?_eq_getElem (hlen ▸ hv), hxs _ (List.getElem_mem _)⟩⟩
  refine ⟨hlist _ _ hb.lowers hp.lowers, hlist _ _ hb.uppers hp.uppers, fun v hv => ?_⟩
  rw [Bool.eq_iff_iff, hb.exact Bool.false_ne_true, decide_eq_true_iff, Bounds.lowerOf,
    Bounds.upperOf, List.getD_eq_getElem?_getD, List.getD_eq_getElem?_getD,
    List.getElem?_eq_getElem (hb.lowers ▸ hv), List.getElem?_eq_getElem (hb.uppers ▸ hv)]
  simp

/-- **Starting from a list of basic variables**, after any run.

    In any arithmetic the answer comes from the first unknown variable, else from the number of
    different variables, else from the columns in the order of the list; if these are accepted, the
    check at the end decides.  Marking and giving rows one by one and completing the setup is the
    same, and of everything done before only the problem and the kind of the inverse count.

    In exact arithmetic a list whose columns are accepted is accepted.  Then its variables are basic
    in its order, the others are listed in increasing order and start on a bound or at zero, the
    equations hold, and standings and costs are up to date; another order of the list changes the
    order of the rows only. -/
theorem startFrom_contract :
    (∀ {α : Type} [Scalar α] (t : Tableau α), Operated anyStep t → ∀ vs : List Nat,
      t.StartAnswers vs
      ∧ (FillsRows t.rowCount t.varCount vs → t.hasBasis = false →
        t.split = blank t.rowCount t.varCount → ∀ ops : List (Operation α), GivesRows vs ops →
          ∃ w, t.run ops = .ok w ∧ w.start = t.startFrom vs)
      ∧ ∀ u : Tableau α, SameProblem t u → t.inverse.SameKind u.inverse →
        Agree StartAgree (t.startFrom vs) (u.startFrom vs))
    ∧ ∀ {K : Type} [Field K] [LinearOrder K] [IsStrictOrderedRing K] (t : Tableau (Extended K)),
      Operated anyStep t → t.FiniteProblem → ∀ vs : List Nat,
        (FillsRows t.rowCount t.varCount vs → ∀ columns, vs.mapM t.matrix.column = .ok columns →
          ∀ inverse, t.inverse.refresh columns = .ok inverse →
          ∃ u, t.startFrom vs = .ok (.ok (), u))
        ∧ ∀ u, t.startFrom vs = .ok (.ok (), u) → t.StartsOut vs u
          ∧ ∀ (t' : Tableau (Extended K)) (ws : List Nat) (u' : Tableau (Extended K)),
            Operated anyStep t' → SameProblem t t' → vs.Perm ws →
            t'.startFrom ws = .ok (.ok (), u') →
              u.StartedInOrder u' := by
  constructor
  · intro α _ t ht vs
    obtain ⟨σ, hshape⟩ := ht.shaped
    exact ⟨startAnswers hshape vs, fun hvs hb hsplit _ =>
      exists_run_start_eq_startFrom hvs hb hsplit, fun u hu hkind => hu.startFrom hkind vs⟩
  · intro K _ _ _ t ht hp vs
    have hstart := ht.startable hp
    refine ⟨fun hvs columns hcolumns inverse => hstart.exists_startFrom hvs hcolumns,
      fun u hu => ?_⟩
    have hout := hstart.startsOut hu
    refine ⟨hout, fun t' ws u' ht' hsame hperm hu' => ?_⟩
    exact hout.reorder ((ht'.startable (hp.congr hsame)).startsOut hu') hsame hperm

/-- A list whose columns are accepted may end in the check, where numbers are rounded.  Weights for
    the rows go by the order of the list: in `x + y + z = 10` and `x - y + w = 5` with weights 1 and
    2 the reduced cost of `y` is 1 if `z` has the first row, and -1 if `w` has. -/
theorem limits_of_startFrom :
    (∃ t : Tableau Float, Operated anyStep t ∧ FillsRows t.rowCount t.varCount [1]
      ∧ (∃ columns inverse, [1].mapM t.matrix.column = .ok columns
        ∧ t.inverse.refresh columns = .ok inverse)
      ∧ t.startFrom [1] = .error .inconsistent)
    ∧ ∃ t u u' : Tableau (Extended ℚ), Operated anyStep t ∧ t.FiniteProblem
      ∧ t.startFrom [2, 3] = .ok (.ok (), u) ∧ t.startFrom [3, 2] = .ok (.ok (), u')
      ∧ u.pricing.costs = [fin (-3), fin 1] ∧ u'.pricing.costs = [fin (-3), fin (-1)] := by
  refine ⟨start_ends_in_check, ?_⟩
  have hrun : (do
      let t ← (create (α := Extended ℚ) {}).run [.setSize 2 4,
        .setCoefficients [fin 1, fin 1, fin 1, fin 0, fin 1, fin (-1), fin 0, fin 1],
        .setRightHandSide [fin 10, fin 5], .setLower 0 (fin 0), .setLower 1 (fin 0),
        .usePricing (.weighted [fin 1, fin 2])]
      let (r, u) ← t.startFrom [2, 3]
      let (r', u') ← t.startFrom [3, 2]
      Checked.require ((∀ x ∈ t.matrix.dense, Scalar.isFinite x = true)
        ∧ (∀ x ∈ t.rightHandSide, Scalar.isFinite x = true)
        ∧ (∀ l ∈ t.bounds.lowers, l < Scalar.infinity)
        ∧ (∀ u ∈ t.bounds.uppers, -Scalar.infinity < u) ∧ r = Except.ok () ∧ r' = Except.ok ()
        ∧ u.pricing.costs = [fin (-3), fin 1] ∧ u'.pricing.costs
            = [fin (-3), fin (-1)]) .inconsistent)
      = .ok () := by decide +kernel
  obtain ⟨t, ht, hrun⟩ := Checked.bind_eq_ok.mp hrun
  obtain ⟨⟨r, u⟩, hu, hrun⟩ := Checked.bind_eq_ok.mp hrun
  obtain ⟨⟨r', u'⟩, hu', hrun⟩ := Checked.bind_eq_ok.mp hrun
  obtain ⟨hfinite, hrhs, hlowers, huppers, rfl, rfl, hcosts, hcosts'⟩ :=
    Checked.require_eq_ok.mp hrun
  have hoperated : Operated anyStep t := (Operated.created _).runForward (by simp) ht
  exact ⟨t, u, u', hoperated, ⟨hfinite, hrhs, hlowers, huppers⟩, hu, hu', hcosts, hcosts'⟩

/-- In `x + y + z = 10` and `x - y + w = 5`, first with `z` and `w` basic, then with `x` and
    `y`, in both orders. -/
theorem starts_in_both_orders :
    ∃ t s u u' : Tableau (Extended ℚ), Operated anyStep t ∧ t.FiniteProblem
    ∧ t.startFrom [2, 3] = .ok (.ok (), s) ∧ t.StartsOut [2, 3] s ∧ Operated anyStep s
    ∧ t.startFrom [0, 4, 5] = .ok (.error (.unknownVariable 4 4), t)
    ∧ (∃ w, t.run [.markBasic 1, .markBasic 0, .assignRow 1 1, .assignRow 0 0] = .ok w
      ∧ w.start = .ok (.ok (), u))
    ∧ (∃ v, s.startFrom [0, 1] = .ok (.ok (), v) ∧ StartedAlike u v)
    ∧ s.startFrom [1, 0] = .ok (.ok (), u') ∧ u.StartedInOrder u'
    ∧ u.basicValues = [fin (15 / 2), fin (5 / 2)]
    ∧ u'.basicValues = [fin (5 / 2), fin (15 / 2)] := by
  have hrun : (do
      let t ← (create (α := Extended ℚ) {}).run [.setSize 2 4,
        .setCoefficients [fin 1, fin 1, fin 1, fin 0, fin 1, fin (-1), fin 0, fin 1],
        .setRightHandSide [fin 10, fin 5], .setLower 0 (fin 0), .setLower 1 (fin 0)]
      let (r, s) ← t.startFrom [2, 3]
      let columns ← [0, 1].mapM t.matrix.column
      let (r', u) ← t.startFrom [0, 1]
      let (r'', u') ← s.startFrom [1, 0]
      Checked.require (t.rowCount = 2 ∧ t.varCount = 4 ∧ t.hasBasis = false
        ∧ t.split.basicSet = IndexSet.empty ∧ t.split.basic = [none, none] ∧ t.split.nonBasic = []
        ∧ t.split.positions = [none, none, none, none]
        ∧ (∀ x ∈ t.matrix.dense, Scalar.isFinite x = true)
        ∧ (∀ x ∈ t.rightHandSide, Scalar.isFinite x = true)
        ∧ (∀ l ∈ t.bounds.lowers, l < Scalar.infinity)
        ∧ (∀ u ∈ t.bounds.uppers, -Scalar.infinity < u) ∧ r = Except.ok ()
        ∧ t.inverse.SameKind s.inverse ∧ (t.inverse.refresh columns).isOk = true ∧ r' = Except.ok ()
        ∧ r'' = Except.ok () ∧ u.basicValues = [fin (15 / 2), fin (5 / 2)]
        ∧ u'.basicValues = [fin (5 / 2), fin (15 / 2)]) .inconsistent) = .ok () := by decide +kernel
  obtain ⟨t, ht, hrun⟩ := Checked.bind_eq_ok.mp hrun
  obtain ⟨⟨r, s⟩, hs, hrun⟩ := Checked.bind_eq_ok.mp hrun
  obtain ⟨columns, hcolumns, hrun⟩ := Checked.bind_eq_ok.mp hrun
  obtain ⟨⟨r', u⟩, hu, hrun⟩ := Checked.bind_eq_ok.mp hrun
  obtain ⟨⟨r'', u'⟩, hu', hrun⟩ := Checked.bind_eq_ok.mp hrun
  obtain ⟨hrow, hvar, hb, hset, hbasic, hnonBasic, hpositions, hfinite, hrhs, hlowers,
    huppers, rfl, hkind, hrefresh, rfl, rfl, hx, hx'⟩ := Checked.require_eq_ok.mp hrun
  have hconf : t.Configured := (Configured.created _).run (by decide +kernel) ht
  obtain ⟨-, hoperated⟩ := operated_of_startFrom hconf hs
  have hproblem : t.FiniteProblem := ⟨hfinite, hrhs, hlowers, huppers⟩
  have hfills : FillsRows t.rowCount t.varCount [0, 1] := ⟨by simp [hvar], by simp, by simp [hrow]⟩
  have hblank : t.split = blank t.rowCount t.varCount := by
    have hsplit : t.split = ⟨t.split.basicSet, t.split.basic, t.split.nonBasic,
      t.split.positions⟩ := rfl
    rw [hsplit, hset, hbasic, hnonBasic, hpositions, hrow, hvar]
    rfl
  have horders : [1, 0].Perm [0, 1] ∧ [(1, 1), (0, 0)].Perm [0, 1].zipIdx :=
    ⟨List.Perm.swap _ _ _, List.Perm.swap _ _ _⟩
  have hops : GivesRows [0, 1] ([.markBasic 1, .markBasic 0, .assignRow 1 1, .assignRow 0 0] :
    List (Operation (Extended ℚ))) := givesRows_of_perm horders.1 horders.2
  obtain ⟨inverse, hinverse⟩ : ∃ inverse, t.inverse.refresh columns = .ok inverse := by
    cases hinverse : t.inverse.refresh columns with
    | ok inverse => exact ⟨inverse, rfl⟩
    | error cause =>
      rw [hinverse] at hrefresh
      cases hrefresh
  have hstarts (vs : List Nat) := (startFrom_contract.2 t hconf.operated hproblem vs).2
  obtain ⟨-, hmarks, hlives⟩ := startFrom_contract.1 t hconf.operated [0, 1]
  obtain ⟨hs₀, -⟩ := hstarts [2, 3] s hs
  obtain ⟨-, horder⟩ := hstarts [0, 1] u hu
  obtain ⟨u₀, hu₀⟩ :=
    (startFrom_contract.2 t hconf.operated hproblem [0, 1]).1 hfills columns hcolumns
    inverse hinverse
  obtain rfl : u = u₀ := by
    cases hu.symm.trans hu₀
    rfl
  have hunknown := (startFrom_contract.1 t hconf.operated [0, 4, 5]).1.unknownVariable [0] 4 [5] rfl
    (by simp [hvar]) (by simp [hvar])
  rw [hvar] at hunknown
  obtain ⟨w, hw, hstart⟩ := hmarks hfills hb hblank _ hops
  obtain ⟨v, hv, halike⟩ := StartAgree.accepted_right (hlives s hs₀.problem hkind) hu
  exact ⟨t, s, u, u', hconf.operated, hproblem, hs, hs₀, hoperated, hunknown,
    ⟨w, hw, hstart.trans hu⟩, ⟨v, hv, halike⟩, hu',
    horder s [1, 0] u' hoperated hs₀.problem (List.Perm.swap _ _ _) hu', hx, hx'⟩

end Tableau

end BoundedSimplex
