/-
  BoundedSimplex.Proofs.Tableau.Optimality — what it means that no variable is eligible.

  With the multipliers of the costs the equations combine to one in which every non-basic
  variable has its reduced cost and every basic one the slope of its violation.  If no variable
  is eligible, no assignment within the bounds can lower the left side of that equation from
  the non-basic variables, and every assignment within the bounds raises it from the basic ones
  that violate a bound.

  Main results:
    * `isEligible_spec` — a variable that is not eligible does not help;
    * `no_solution_of_no_candidates` — if nobody helps while a bound is violated,
      there is no solution.
-/
import BoundedSimplex.Proofs.Tableau.Prices

namespace BoundedSimplex

open Extended

variable {K : Type} [Field K] [LinearOrder K]

/-! ## §1.  Solutions -/

namespace State

/-- The numbers satisfy the equations. -/
def Solves (s : State (Extended K)) (x : Nat → K) : Prop :=
  ∀ i < s.rowCount, ∑ v ∈ Finset.range s.varCount, s.matrix.coeff i v * x v
    = coord s.rightHandSide i

/-- The numbers satisfy the bounds. -/
def Admits (s : State (Extended K)) (x : Nat → K) : Prop :=
  ∀ v < s.varCount, Within (s.bounds.lowerOf v) (s.bounds.upperOf v) (x v)

theorem solves_stored {s : State (Extended K)} (h : ∀ i < s.rowCount, s.residual i = 0) :
    s.Solves s.stored :=
  fun i hi => sub_eq_zero.mp (h i hi)

/-- The stored values are numbers that satisfy the equations. -/
def Satisfied (s : State (Extended K)) : Prop :=
  ∃ x : Nat → K, (∀ v < s.varCount, s.storedValue v = .ok (fin (x v))) ∧ s.Solves x

theorem WellFormed.satisfied_iff {s : State (Extended K)} (h : s.WellFormed) :
    s.Satisfied ↔ ∀ i < s.rowCount, s.residual i = 0 := by
  constructor
  · rintro ⟨x, hx, hsolves⟩ i hi
    rw [residual, ← hsolves i hi, ← Finset.sum_sub_distrib]
    refine Finset.sum_eq_zero fun v hv => ?_
    have hv := Finset.mem_range.mp hv
    have heq := Except.ok.inj ((hx v hv).symm.trans (h.storedValue_eq hv))
    injection heq with heq
    rw [heq, sub_self]
  · exact fun hzero => ⟨s.stored, fun v hv => h.storedValue_eq hv, solves_stored hzero⟩

/-- Where the equations hold every stored value is a number. -/
theorem Satisfied.exists_fin {s : State (Extended K)} (h : s.Satisfied) {v : Nat}
    (hv : v < s.varCount) {x : Extended K} (hx : s.storedValue v = .ok x) : ∃ y, x = fin y := by
  obtain ⟨y, hy, -⟩ := h
  exact ⟨y v, Except.ok.inj (hx.symm.trans (hy v hv))⟩

end State

/-! ## §2.  Variables that are not eligible -/

theorem Extended.not_fin_lt_of_le {a : Extended K} {x : K} (h : a ≤ fin x) : ¬fin x < a := by
  cases a with
  | fin a => exact fun hlt => absurd ((fin_lt_fin x a).mp hlt) (not_lt.mpr ((fin_le_fin a x).mp h))
  | bot => exact Bool.false_ne_true
  | top => exact fun _ => Bool.false_ne_true h
  | undefined => exact fun _ => Bool.false_ne_true h

namespace Tableau

variable [IsStrictOrderedRing K] {t : Tableau (Extended K)}

/-- A variable without room below is at its lower bound or below it. -/
theorem canFall_spec (hs : t.toState.WellFormed) (hτ : t.settings.boundTolerance = fin 0) {j : Nat}
    (hj : j < t.nonBasicCount) (h : t.canFall j = .ok false) {z : K}
    (hz : t.bounds.lowerOf (t.split.nonBasicVar j) ≤ fin z) : coord t.nonBasicValues j ≤ z := by
  have hv := hs.split.nonBasicVar_lt hj
  obtain ⟨v, hvar, h⟩ := Checked.bind_eq_ok.mp h
  obtain ⟨-, rfl⟩ := hs.split.lt_of_nonBasicAt hvar
  obtain ⟨l, hl, h⟩ := Checked.bind_eq_ok.mp h
  obtain ⟨x, hx, h⟩ := Checked.bind_eq_ok.mp h
  obtain rfl : t.bounds.lowerOf (t.split.nonBasicVar j) = l :=
    Except.ok.inj ((hs.bounds.lower_eq hv).symm.trans hl)
  rw [Checked.getAt_eq_ok, hs.nonBasic.getElem? hj] at hx
  cases hx
  have hroom := of_decide_eq_false (Except.ok.inj h)
  rw [hτ] at hroom
  -- Without a lower bound there would be room.
  obtain hbot | ⟨a, ha⟩ := lt_infinity_iff.mp (hs.bounds.lowerOf_lt hv)
  · rw [hbot] at hroom
    exact absurd rfl hroom
  · rw [ha, fin_sub] at hroom
    rw [ha, fin_le_fin] at hz
    have : ¬(0 : K) < coord t.nonBasicValues j - a := fun h => hroom ((fin_lt_fin _ _).mpr h)
    linarith

/-- A variable without room above is at its upper bound or above it. -/
theorem canRise_spec (hs : t.toState.WellFormed) (hτ : t.settings.boundTolerance = fin 0) {j : Nat}
    (hj : j < t.nonBasicCount) (h : t.canRise j = .ok false) {z : K}
    (hz : (fin z : Extended K) ≤ t.bounds.upperOf (t.split.nonBasicVar j)) :
    z ≤ coord t.nonBasicValues j := by
  have hv := hs.split.nonBasicVar_lt hj
  obtain ⟨v, hvar, h⟩ := Checked.bind_eq_ok.mp h
  obtain ⟨-, rfl⟩ := hs.split.lt_of_nonBasicAt hvar
  obtain ⟨u, hu, h⟩ := Checked.bind_eq_ok.mp h
  obtain ⟨x, hx, h⟩ := Checked.bind_eq_ok.mp h
  obtain rfl : t.bounds.upperOf (t.split.nonBasicVar j) = u :=
    Except.ok.inj ((hs.bounds.upper_eq hv).symm.trans hu)
  rw [Checked.getAt_eq_ok, hs.nonBasic.getElem? hj] at hx
  cases hx
  have hroom := of_decide_eq_false (Except.ok.inj h)
  rw [hτ] at hroom
  -- As below, on the other side.
  obtain htop | ⟨b, hb⟩ := neg_infinity_lt_iff.mp (hs.bounds.lt_upperOf hv)
  · rw [htop] at hroom
    exact absurd rfl hroom
  · rw [hb, fin_sub] at hroom
    rw [hb, fin_le_fin] at hz
    have : ¬(0 : K) < b - coord t.nonBasicValues j := fun h => hroom ((fin_lt_fin _ _).mpr h)
    linarith

/-- **A variable that is not eligible** cannot be moved against its cost within its bounds. -/
theorem isEligible_spec (hs : t.toState.WellFormed)
    (hτ : t.settings.boundTolerance = fin 0) {j : Nat} (hj : j < t.nonBasicCount) {c : K}
    (hgap : c = 0 ∨ t.settings.entryTolerance ≤ fin |c|)
    (h : t.isEligible j (fin c) = .ok false) {z : K}
    (hz : Within (t.bounds.lowerOf (t.split.nonBasicVar j))
      (t.bounds.upperOf (t.split.nonBasicVar j)) z) : 0 ≤ c * (z - coord t.nonBasicValues j) := by
  rcases hgap with rfl | hgap
  · rw [zero_mul]
  · unfold isEligible at h
    rw [magnitude_fin, if_neg (Extended.not_fin_lt_of_le hgap)] at h
    by_cases hc : 0 < c
    · rw [if_pos (show (fin c : Extended K) > 0 from (fin_lt_fin 0 c).mpr hc)] at h
      have := canFall_spec hs hτ hj h hz.1
      exact mul_nonneg hc.le (by linarith)
    · rw [if_neg (show ¬(fin c : Extended K) > 0 from fun h => hc ((fin_lt_fin 0 c).mp h))] at h
      have := canRise_spec hs hτ hj h hz.2
      exact mul_nonneg_of_nonpos_of_nonpos (not_lt.mp hc) (by linarith)

omit [IsStrictOrderedRing K] in
/-- Without candidates, no position is eligible. -/
theorem candidates_spec (h : t.candidates = .ok []) {n : Nat}
    (hc : Numbers n t.pricing.costs) {j : Nat} (hj : j < n) :
    t.isEligible j (fin (coord t.pricing.costs j)) = .ok false := by
  obtain ⟨_, -, h⟩ := Checked.bind_eq_ok.mp h
  obtain ⟨_, -, h⟩ := Checked.bind_eq_ok.mp h
  obtain ⟨judged, hjudged, h⟩ := Checked.bind_eq_ok.mp h
  have hmem : (fin (coord t.pricing.costs j), j) ∈ t.pricing.costs.zipIdx := by
    rw [List.mem_zipIdx_iff_getElem?]
    exact hc.getElem? hj
  obtain ⟨y, hy, hf⟩ := Checked.exists_of_mapM hjudged hmem
  obtain ⟨b, hb, hf⟩ := Checked.bind_eq_ok.mp hf
  cases hf
  have hnone : judged.filter (·.2) = [] := List.map_eq_nil_iff.mp (Except.ok.inj h)
  have hfalse := List.filter_eq_nil_iff.mp hnone _ hy
  rw [hb]
  simpa using hfalse

/-! ## §3.  No solution -/

/-- The costs of the basic variables, row by row, as slopes of the violation. -/
theorem basicCosts_spec (ht : t.Sound) (hτ : t.settings.boundTolerance = fin 0) {k : Nat}
    (hk : k < t.rowCount) {y : K}
    (hy : Within (t.bounds.lowerOf (t.split.basicVar k))
        (t.bounds.upperOf (t.split.basicVar k)) y) :
    coord (t.standings.map Standing.cost) k * (y - coord t.basicValues k) ≤ 0
      ∧ ((t.toState.standing (fin 0) k).isOutOfBounds = true →
        coord (t.standings.map Standing.cost) k * (y - coord t.basicValues k) < 0) := by
  have hv := ht.state.split.basicVar_lt hk
  obtain ⟨c, hc, hle, hlt⟩ := cost_classify (x := coord t.basicValues k)
    (ht.state.bounds.lowerOf_lt hv) (ht.state.bounds.lt_upperOf hv)
  have hcoord : coord (t.standings.map Standing.cost) k = c := by
    refine coord_of_getElem? ?_
    rw [ht.standings, hτ, List.map_map, List.getElem?_map, List.getElem?_range hk, ← hc]
    rfl
  rw [hcoord]
  exact ⟨hle y hy, fun h => hlt h y hy⟩

/-- **No solution.**  If a basic variable violates a bound, the costs are those of the standings,
    none of them is too small to count, and no variable is eligible, then no assignment satisfies
    the equations and the bounds. -/
theorem no_solution_of_no_candidates (ht : t.Sound) (hτ : t.settings.boundTolerance = fin 0)
    (hres : ∀ i < t.rowCount, t.toState.residual i = 0) (hfit : PricesFit t.toState t.pricing)
    (hfresh : t.pricing.stale = false) (hout : t.toState.existsOutOfBounds = true)
    (hgap : ∀ c ∈ t.pricing.costs, c = 0 ∨ t.settings.entryTolerance ≤ Scalar.magnitude c)
    (hnone : t.candidates = .ok []) : ¬∃ x, t.toState.Solves x ∧ t.toState.Admits x := by
  rintro ⟨x, hsolves, hadmits⟩
  obtain ⟨hbasic, hpriced⟩ := hfit.fresh hfresh
  obtain ⟨y, hweigh, hreduced⟩ := hpriced.multipliers
  -- the difference to the present values is orthogonal to the rows
  have hdiff (i : Nat) (hi : i < t.rowCount) :
      ∑ v ∈ Finset.range t.varCount, t.matrix.coeff i v * (x v - t.toState.stored v) = 0 := by
    have hstored := State.solves_stored hres i hi
    simp only [mul_sub]
    rw [Finset.sum_sub_distrib, hsolves i hi, hstored, sub_self]
  have hcombined := State.sum_weighed hdiff y
  rw [ht.state.split.sum_vars] at hcombined
  have hlow (k : Nat) (hk : k < t.rowCount) :
      t.toState.weighed y (t.split.basicVar k)
          * (x (t.split.basicVar k) - t.toState.stored (t.split.basicVar k)) ≤ 0
        ∧ ((t.toState.standing (fin 0) k).isOutOfBounds = true →
          t.toState.weighed y (t.split.basicVar k)
            * (x (t.split.basicVar k) - t.toState.stored (t.split.basicVar k)) < 0) := by
    rw [hweigh k hk, hbasic, ht.state.stored_basicVar hk]
    exact basicCosts_spec ht hτ hk (hadmits _ (ht.state.split.basicVar_lt hk))
  have hhigh (j : Nat) (hj : j < t.nonBasicCount) :
      t.toState.weighed y (t.split.nonBasicVar j)
        * (x (t.split.nonBasicVar j) - t.toState.stored (t.split.nonBasicVar j)) ≤ 0 := by
    have hcost : t.toState.weighed y (t.split.nonBasicVar j) = -coord t.pricing.costs j := by
      rw [hreduced j hj, neg_neg]
    have hgap' : coord t.pricing.costs j = 0
        ∨ t.settings.entryTolerance ≤ fin |coord t.pricing.costs j| := by
      have hget := hpriced.reduced.getElem? hj
      rcases hgap _ (List.mem_of_getElem? hget) with h | h
      · exact .inl (by simpa using h)
      · exact .inr h
    have := isEligible_spec ht.state hτ hj hgap' (candidates_spec hnone hpriced.reduced hj)
      (hadmits _ (ht.state.split.nonBasicVar_lt hj))
    rw [hcost, ht.state.stored_nonBasicVar hj]
    linarith
  -- one row with a violated bound makes the sum over the rows negative
  obtain ⟨k, hk, hviolated⟩ : ∃ k < t.rowCount,
      (t.toState.standing (fin 0) k).isOutOfBounds = true := by
    obtain ⟨s, hs, hs'⟩ := List.any_eq_true.mp hout
    rw [ht.standings, hτ] at hs
    obtain ⟨k, hk, rfl⟩ := List.mem_map.mp hs
    exact ⟨k, List.mem_range.mp hk, hs'⟩
  have hneg : ∑ k ∈ Finset.range t.rowCount, t.toState.weighed y (t.split.basicVar k)
      * (x (t.split.basicVar k) - t.toState.stored (t.split.basicVar k)) < 0 :=
    Finset.sum_neg' (fun k hk => (hlow k (Finset.mem_range.mp hk)).1)
      ⟨k, Finset.mem_range.mpr hk, (hlow k hk).2 hviolated⟩
  have hnonpos : ∑ j ∈ Finset.range (t.varCount - t.rowCount),
      t.toState.weighed y (t.split.nonBasicVar j)
        * (x (t.split.nonBasicVar j) - t.toState.stored (t.split.nonBasicVar j)) ≤ 0 :=
    Finset.sum_nonpos fun j hj => hhigh j (Finset.mem_range.mp hj)
  linarith

end Tableau

end BoundedSimplex
