/- BoundedSimplex.Proofs.Tableau.Following — costs that follow an exchange are the
  costs of the new basis.

  A pivot patches the reduced costs with the row of the leaving variable instead of computing them
  anew.  Reduced costs depend on the basis and on the costs of the basic variables, and not on any
  value, so nothing is asked of the distance of the pivot or of where the leaving variable lands:
  the basis after an exchange is described by the tableau with all values put to zero (`emptied`).

  Main results:
    * `Solvable.priced_unique` — reduced costs are determined by the costs of the basic variables;
    * `follows_of_performExchange`, `follows_of_performDegenerate`,
      `Follows.finish` — both exchanges;
    * `Follows.stale_iff` — when the followed costs go stale;
    * `costs_of_followable` — followed costs are the computed ones.
-/
import BoundedSimplex.Proofs.Operated
import BoundedSimplex.Proofs.Tableau.Pivot
import BoundedSimplex.Proofs.Tableau.Prices
import BoundedSimplex.Proofs.Tableau.ProgressPivot
import BoundedSimplex.Proofs.Tableau.Selection
import BoundedSimplex.Proofs.Tableau.Setup

namespace BoundedSimplex

open Extended Matrix

variable {K : Type} [Field K] [LinearOrder K]

/-! ## §1.  Costs that are determined -/

/-- **Reduced costs are determined** by the costs of the basic variables. -/
theorem Tableau.Solvable.priced_unique {t : Tableau (Extended K)} (ht : t.Solvable)
    {basicCosts costs costs' : List (Extended K)} (h : t.toState.Priced basicCosts costs)
    (h' : t.toState.Priced basicCosts costs') : costs = costs' := by
  obtain ⟨y, hy, hcosts⟩ := h.multipliers
  obtain ⟨y', hy', hcosts'⟩ := h'.multipliers
  -- both are multipliers of the basic costs, of which there are only one
  have hsolves (z : Nat → K)
      (hz : ∀ k < t.rowCount, t.toState.weighed z (t.split.basicVar k) = coord basicCosts k) :
      (fun r : Fin t.rowCount => z r) ᵥ* t.toState.basis
        = fun k : Fin t.rowCount => coord basicCosts k := by
    funext k
    rw [← hz k k.isLt]
    exact (Finset.sum_range fun i => z i * t.matrix.coeff i (t.split.basicVar k)).symm
  obtain ⟨x, -, hx⟩ := ht.solveRow_eq fun k => coord basicCosts k
  have hsame : (fun r : Fin t.rowCount => y r) = fun r : Fin t.rowCount => y' r :=
    ((hx _).mp (hsolves y hy)).trans ((hx _).mp (hsolves y' hy')).symm
  refine h.reduced.ext h'.reduced fun j hj => ?_
  rw [hcosts j hj, hcosts' j hj]
  congr 1
  refine Finset.sum_congr rfl fun i hi => ?_
  have := congrFun hsame ⟨i, Finset.mem_range.mp hi⟩
  rw [show y i = y' i from this]

namespace Pricing

/-- The costs on record are outdated if the standing of some row has another cost. -/
theorem outdated_iff {α : Type} [Scalar α] {costs : List α} {standings : List Standing} :
    outdated costs standings = true ↔ ∃ (k : Nat) (c : α) (s : Standing), costs[k]? = some c
      ∧ standings[k]? = some s ∧ (c == s.cost) = false := by
  unfold outdated
  rw [List.any_eq_true]
  constructor
  · rintro ⟨⟨c, s⟩, hmem, hne⟩
    obtain ⟨k, hk⟩ := List.mem_iff_getElem?.mp hmem
    obtain ⟨hc, hs⟩ := List.getElem?_zip_eq_some.mp hk
    exact ⟨k, c, s, hc, hs, by simpa using hne⟩
  · rintro ⟨k, c, s, hc, hs, hne⟩
    refine ⟨(c, s), List.mem_iff_getElem?.mpr ⟨k, List.getElem?_zip_eq_some.mpr ⟨hc, hs⟩⟩, ?_⟩
    simpa using hne

end Pricing

namespace Tableau

variable {t u v w : Tableau (Extended K)}

/-! ## §2.  The basis without the values -/

/-- The same tableau with all values at zero. -/
def emptied (t : Tableau (Extended K)) : Tableau (Extended K) :=
  { t with
    basicValues := Scalar.zeros t.rowCount
    nonBasicValues := Scalar.zeros t.nonBasicCount }

theorem Silent.emptied_solvable (h : Silent t u) (ht : t.emptied.Solvable) :
    u.emptied.Solvable := by
  obtain ⟨_, _, rfl⟩ := h
  exact ⟨ht.state, ht.unit, ht.inverse⟩

/-- Standings say nothing about the basis, and neither do costs and selections. -/
theorem emptied_solvable_with (h : t.emptied.Solvable) (ss : List Standing)
    (pricing : Pricing (Extended K)) (plan : PivotPlan (Extended K)) :
    Solvable (emptied { t with standings := ss, pricing, plan }) :=
  ⟨⟨h.state.matrix, h.state.rhs, h.state.bounds, h.state.split, h.state.basic, h.state.nonBasic⟩,
    h.unit, h.inverse⟩

/-- What an exchange of the non-basic position `j` for the row `i` does to the
    basis and the costs. -/
structure Follows (t u : Tableau (Extended K)) (j i : Nat) : Prop where
  matrix : u.matrix = t.matrix
  split : u.split = t.split.swapped j i
  hasBasis : u.hasBasis = true
  standings : u.standings.length = t.rowCount
  solvable : u.emptied.Solvable
  followed : ∀ row, t.plan.row = some row → row.basicIndex = i → ∃ changed,
    t.pricing.follow ⟨j, i, t.plan.column.getD i 0, row, u.standings⟩ = .ok (u.pricing, changed)

/-- **Exchanging the places**: the inverse follows, wherever the values are put. -/
theorem Exact.exchangePlaces {j i : Nat} (ht : t.Exact j i) (hi : i < t.rowCount)
    (hd : coord t.plan.column i ≠ 0) {xs : List (Extended K)} {x y : Extended K} {names : Nat × Nat}
    (h : Tableau.exchangePlaces { t with basicValues := xs } j i x y = .ok (names, w)) :
    w.emptied.Solvable ∧ ∃ xs ys inverse, w = { t with
      split := t.split.swapped j i, basicValues := xs, nonBasicValues := ys, inverse } := by
  obtain ⟨⟨names', split⟩, hswap, h⟩ := Checked.bind_eq_ok.mp h
  obtain ⟨basicValues, -, h⟩ := Checked.bind_eq_ok.mp h
  obtain ⟨nonBasicValues, -, h⟩ := Checked.bind_eq_ok.mp h
  obtain ⟨inverse, hupdate, h⟩ := Checked.bind_eq_ok.mp h
  have hs := ht.solvable.state
  rw [hs.split.swap_eq ht.ready.lt hi] at hswap
  cases hswap
  cases h
  obtain ⟨hunit, hrep⟩ := ht.inverse_swapped hi hd hupdate _ _
  exact ⟨⟨⟨hs.matrix, hs.rhs, hs.bounds, hs.split.swap ht.ready.lt hi, .zeros _, .zeros _⟩,
    hunit, hrep⟩, _, _, _, rfl⟩

/-- The rest of an exchange records standings and lets the costs follow. -/
theorem follows_of_followExchange {j i : Nat} {xs ys : List (Extended K)} {ss : List Standing}
    {inverse : BasisInverse (Extended K)}
    (hw : Silent { t with
      split := t.split.swapped j i
      basicValues := xs
      nonBasicValues := ys
      inverse
      standings := ss } w)
    (hb : t.hasBasis = true) (hss : ss.length = t.rowCount) (hsolv : w.emptied.Solvable)
    {element : Extended K} (he : t.plan.column.getD i 0 = element)
    (hv : w.followExchange j i element = .ok v) (hu : Silent v u) : Follows t u j i := by
  have he : w.plan.column.getD i 0 = element := by
    obtain ⟨_, _, rfl⟩ := hw
    exact he
  obtain ⟨pricing, hs, hcases⟩ := followExchange_cases he hv
  have hsolv' : u.emptied.Solvable :=
    (hs.trans hu).emptied_solvable (emptied_solvable_with hsolv _ _ _)
  obtain ⟨_, _, rfl⟩ := hw
  obtain ⟨_, _, rfl⟩ := hs.trans hu
  refine ⟨rfl, rfl, hb, hss, hsolv', fun row hrow hi => ?_⟩
  obtain ⟨row', changed, hrow', -, hp⟩ | ⟨hnone, -⟩ := hcases
  · obtain rfl := Option.some.inj (hrow'.symm.trans hrow)
    exact ⟨changed, hp⟩
  · exact absurd hi (hnone row hrow)

/-- **An exchange with a move.** -/
theorem follows_of_performExchange {j i : Nat} (ht : t.Exact j i) (hb : t.hasBasis = true)
    (h : t.performExchange j i = .ok u) : Follows t u j i := by
  obtain ⟨element, helement, h⟩ := Checked.bind_eq_ok.mp h
  obtain ⟨leaving, -, h⟩ := Checked.bind_eq_ok.mp h
  obtain ⟨standing, -, h⟩ := Checked.bind_eq_ok.mp h
  obtain ⟨l, -, h⟩ := Checked.bind_eq_ok.mp h
  obtain ⟨b, -, h⟩ := Checked.bind_eq_ok.mp h
  obtain ⟨x, -, h⟩ := Checked.bind_eq_ok.mp h
  obtain ⟨⟨⟨q, p⟩, w⟩, hplaces, h⟩ := Checked.bind_eq_ok.mp h
  obtain ⟨w', hclass, h⟩ := Checked.bind_eq_ok.mp h
  obtain ⟨v, hfollow, h⟩ := Checked.bind_eq_ok.mp h
  obtain ⟨pairs, -, hend⟩ := Checked.bind_eq_ok.mp h
  obtain ⟨hi, hd, hD⟩ := pivotElement_spec ht.ready.column.1 helement
  obtain ⟨hsolv, xs, ys, inverse, rfl⟩ := ht.exchangePlaces hi hd hplaces
  obtain ⟨ss, hss, rfl⟩ := of_classifyAll hclass
  have hlen : ss.length = t.rowCount := (Checked.length_of_mapM hss).trans List.length_range
  refine follows_of_followExchange ⟨_, _, rfl⟩ hb hlen
    ((silent_remark _ _).emptied_solvable (emptied_solvable_with hsolv ss _ _)) hD hfollow ?_
  cases hend
  have htold := ((silent_tellValues v pairs).trans (silent_tellValue _ leaving
    (landing standing t.plan.leavingRises l b))).trans (silent_count _ .pivots)
  split
  · exact htold.trans (silent_count _ .degeneratePivots)
  · exact htold

/-- **An exchange without a move.** -/
theorem follows_of_performDegenerate {j i : Nat} (ht : t.Exact j i) (hb : t.hasBasis = true)
    (hst : t.standings.length = t.rowCount) (hl : t.plan.leaving = some (.basic i))
    (h : t.performDegenerate = .ok u) : ∃ v, Follows t v j i ∧ v.finish = .ok u := by
  obtain ⟨_, -, h⟩ := Checked.bind_eq_ok.mp h
  obtain ⟨j', hj', h⟩ := Checked.bind_eq_ok.mp h
  obtain rfl : j = j' := Option.some.inj (ht.ready.entering.symm.trans (enteringIndex_eq_ok.mp hj'))
  obtain ⟨i', hi', h⟩ := Checked.bind_eq_ok.mp h
  obtain rfl : i' = i := by
    have := leavingRow_eq_ok hi'
    rw [hl] at this
    cases this
    rfl
  obtain ⟨standing, -, h⟩ := Checked.bind_eq_ok.mp h
  obtain ⟨_, -, h⟩ := Checked.bind_eq_ok.mp h
  obtain ⟨element, helement, h⟩ := Checked.bind_eq_ok.mp h
  obtain ⟨x, -, h⟩ := Checked.bind_eq_ok.mp h
  obtain ⟨y, -, h⟩ := Checked.bind_eq_ok.mp h
  obtain ⟨⟨⟨q, p⟩, w⟩, hplaces, h⟩ := Checked.bind_eq_ok.mp h
  obtain ⟨w', hclass, h⟩ := Checked.bind_eq_ok.mp h
  obtain ⟨v, hfollow, hend⟩ := Checked.bind_eq_ok.mp h
  obtain ⟨hi, hd, hD⟩ := pivotElement_spec ht.ready.column.1 helement
  have hplaces : Tableau.exchangePlaces { t with basicValues := t.basicValues } j i' x y
      = .ok ((q, p), w) := hplaces
  obtain ⟨hsolv, xs, ys, inverse, rfl⟩ := ht.exchangePlaces hi hd hplaces
  obtain ⟨s, -, hclass⟩ := Checked.bind_eq_ok.mp hclass
  obtain ⟨ss, hss, hclass⟩ := Checked.bind_eq_ok.mp hclass
  cases hclass
  obtain ⟨-, rfl⟩ := Checked.setAt_eq_ok.mp hss
  refine ⟨_, follows_of_followExchange ⟨_, _, rfl⟩ hb (List.length_set.trans hst)
    ((silent_remark _ _).emptied_solvable (emptied_solvable_with hsolv _ _ _)) hD hfollow
    ((silent_count v .pivots).trans (silent_count _ .degeneratePivots)), hend⟩

section Ordered

variable [IsStrictOrderedRing K]

/-- The end of a pivot may start the inverse over, which keeps to the same basis. -/
theorem Follows.finish {j i : Nat} (h : Follows t v j i) (hu : v.finish = .ok u) :
    Follows t u j i := by
  have hsolv := h.solvable
  have hemptied : v.clearPlan.emptied.Solvable := emptied_solvable_with hsolv _ _ _
  suffices hu : u.emptied.Solvable ∧ ∃ inverse, Silent { v.clearPlan with inverse } u by
    obtain ⟨hsolv, inverse, _, _, rfl⟩ := hu
    exact ⟨h.matrix, h.split, h.hasBasis, h.standings, hsolv, h.followed⟩
  unfold Tableau.finish refactorIfDue at hu
  split at hu
  · obtain ⟨⟨r, w⟩, hr, hu⟩ := Checked.bind_eq_ok.mp hu
    obtain ⟨inverse, hs, hcase⟩ := refactor_spec hr
    have hsolv : w.emptied.Solvable := by
      -- an inverse that cannot be started over is kept
      rcases hcase with ⟨rfl, -⟩ | ⟨-, columns, hc, hfresh⟩
      · exact hs.emptied_solvable hemptied
      · obtain ⟨hunit, hrep⟩ := represents_of_refresh hemptied.state hc hfresh
        exact hs.emptied_solvable ⟨hemptied.state, hunit, hrep⟩
    cases r with
    | ok _ =>
      cases hu
      exact ⟨hsolv, inverse, hs⟩
    | error cause =>
      cases hu
      have hremark := silent_remark w (.exchangedKept cause)
      exact ⟨hremark.emptied_solvable hsolv, inverse, hs.trans hremark⟩
  · cases hu
    exact ⟨hemptied, _, ⟨_, _, rfl⟩⟩

end Ordered

/-! ## §3.  Followed costs -/

/-- Some basic variable has another cost than before, apart from the one in row `i`; or that one,
    which has just become basic, has a cost at all. -/
def CostsMoved (t u : Tableau (Extended K)) (i : Nat) : Prop :=
  (∃ k s s', k ≠ i ∧ t.standings[k]? = some s ∧ u.standings[k]? = some s'
      ∧ (s.cost : Extended K) ≠ s'.cost)
    ∨ ∃ s', u.standings[i]? = some s' ∧ (s'.cost : Extended K) ≠ 0

/-- Costs of standings compare as equal only if they are. -/
theorem cost_beq_iff {s s' : Standing} :
    ((s.cost : Extended K) == s'.cost) = false ↔ (s.cost : Extended K) ≠ s'.cost := by
  constructor
  · intro h e
    rw [e] at h
    cases s' <;> simp [Standing.cost] at h
  · intro h
    by_contra hbeq
    exact h (eq_of_same (by simpa using hbeq))

variable {j i : Nat} {row : SolvedRow (Extended K)}

/-- **When the followed costs go stale.** -/
theorem Follows.stale_iff (h : Follows t u j i) (hi : i < t.rowCount)
    (hst : t.standings.length = t.rowCount) (hrule : t.pricing.rule = .infeasibility)
    (hfresh : t.pricing.stale = false)
    (hbasic : t.pricing.basicCosts = t.standings.map Standing.cost) (hrow : t.plan.row = some row)
    (hindex : row.basicIndex = i) :
    u.pricing.stale = true ↔ CostsMoved t u i := by
  obtain ⟨changed, hfollow⟩ := h.followed row hrow hindex
  unfold Pricing.follow at hfollow
  simp only [hrule, hfresh, Bool.false_eq_true, if_false] at hfollow
  obtain ⟨_, -, hfollow⟩ := Checked.bind_eq_ok.mp hfollow
  obtain ⟨own, -, hfollow⟩ := Checked.bind_eq_ok.mp hfollow
  obtain ⟨cost, -, hfollow⟩ := Checked.bind_eq_ok.mp hfollow
  obtain ⟨hp, -⟩ := Prod.mk.inj (Except.ok.inj hfollow)
  rw [← hp]
  show Pricing.outdated (t.pricing.basicCosts.set i 0) u.standings = true ↔ _
  rw [Pricing.outdated_iff, hbasic]
  have hlt : i < (t.standings.map Standing.cost : List (Extended K)).length := by
    rw [List.length_map, hst]
    exact hi
  -- Its own cost was set to zero before the comparison, the others were not.
  constructor
  · rintro ⟨k, c, s', hc, hs', hne⟩
    by_cases hk : k = i
    · subst hk
      rw [List.getElem?_set_self hlt] at hc
      cases hc
      refine .inr ⟨s', hs', fun e => ?_⟩
      rw [e, zero_eq, fin_beq, decide_eq_true rfl] at hne
      exact Bool.false_ne_true hne.symm
    · rw [List.getElem?_set_ne (Ne.symm hk), List.getElem?_map] at hc
      obtain ⟨s, hs, rfl⟩ := Option.map_eq_some_iff.mp hc
      exact .inl ⟨k, s, s', hk, hs, hs', cost_beq_iff.mp hne⟩
  · rintro (⟨k, s, s', hk, hs, hs', hne⟩ | ⟨s', hs', hne⟩)
    · refine ⟨k, s.cost, s', ?_, hs', cost_beq_iff.mpr hne⟩
      rw [List.getElem?_set_ne (Ne.symm hk), List.getElem?_map, hs, Option.map_some]
    · refine ⟨i, 0, s', List.getElem?_set_self hlt, hs', ?_⟩
      by_contra hbeq
      exact hne (eq_of_same (by simpa using hbeq)).symm

/-- **Followed costs that are not stale are the computed ones.** -/
theorem Follows.costs_eq {solved : Prop} {σ : Settings (Extended K)} (h : Follows t u j i)
    (hu : u.Shaped solved σ) (ht : t.Exact j i) (hi : i < t.rowCount)
    (hd : coord t.plan.column i ≠ 0) (hfit : PricesFit t.toState t.pricing)
    (hrow : t.plan.row = some row) (hsolved : t.solvedRow i = .ok row) (hindex : row.basicIndex = i)
    (hfresh : u.pricing.stale = false) :
    ∃ v, u.computePrices = .ok v ∧ v.pricing.costs = u.pricing.costs := by
  obtain ⟨changed, hfollow⟩ := h.followed row hrow hindex
  have hprices : PricesFit u.toState u.pricing := by
    refine Repriced.prices ht.solvable hfit ht.ready hi hd (fun row' hrow' _ => ?_) h.matrix h.split
      h.standings (.inl ⟨row, changed, hrow, hindex, hfollow⟩)
    obtain rfl := Option.some.inj (hrow.symm.trans hrow')
    exact hsolved
  obtain ⟨hbasic, hpriced⟩ := hprices.fresh hfresh
  obtain ⟨v, hv⟩ := exists_computePrices hu h.hasBasis h.solvable.inverse.size
  refine ⟨v, hv, ?_⟩
  obtain ⟨_, -, hv⟩ := Checked.bind_eq_ok.mp hv
  obtain ⟨pricing, hcompute, hv⟩ := Checked.bind_eq_ok.mp hv
  cases hv
  -- both belong to the costs of the same standings, in the same basis
  have hrows : u.rowCount = t.rowCount := by rw [State.rowCount, State.rowCount, h.matrix]
  obtain ⟨-, hbasic', hpriced'⟩ :=
    compute_spec h.solvable (h.standings.trans hrows.symm) hprices.rule
    hcompute
  have hpriced : u.emptied.toState.Priced u.pricing.basicCosts u.pricing.costs :=
    hpriced.congr rfl rfl
  rw [hbasic'] at hpriced'
  rw [hbasic] at hpriced
  exact h.solvable.priced_unique hpriced' hpriced

/-- Everything is in place for the exchange of the non-basic position `j` for the row `i`: the
    inverse is that of the basis, the costs are current and as they would be computed, and there are
    a change column, an entry of it that is not zero, and the row of the leaving variable. -/
structure Posed (t : Tableau (Extended K)) (j i : Nat) : Prop where
  hasBasis : t.hasBasis = true
  solvable : t.Solvable
  rule : t.pricing.rule = .infeasibility
  current : t.pricing.stale = false
  computed : ∃ v, t.computePrices = .ok v ∧ v.pricing.costs = t.pricing.costs
  ready : t.Ready j
  leaving : t.plan.leaving = some (.basic i)
  pivot : coord t.plan.column i ≠ 0
  row : ∃ row, t.plan.row = some row ∧ t.solvedRow i = .ok row

/-- Moreover the costs were computed for the present standings, and an update of the inverse leaves
    no entry of the change column out. -/
structure Followable (t : Tableau (Extended K)) (j i : Nat) : Prop extends Posed t j i where
  record : t.pricing.basicCosts = t.standings.map Standing.cost
  keeps : t.KeepsColumn

namespace Followable

variable {solved : Prop} {σ : Settings (Extended K)}

theorem lt (h : t.Followable j i) : i < t.rowCount := by
  by_contra hge
  exact h.pivot (coord_of_le (by rw [h.ready.column.1.length]; omega))

theorem exact (h : t.Followable j i) : t.Exact j i :=
  ⟨h.solvable, h.ready, fun hi => h.keeps i hi h.leaving⟩

theorem fit (h : t.Followable j i) (hst : t.standings.length = t.rowCount) :
    PricesFit t.toState t.pricing := by
  refine ⟨h.rule, fun _ => ⟨h.record, ?_⟩⟩
  obtain ⟨v, hv, hcosts⟩ := h.computed
  obtain ⟨_, -, hv⟩ := Checked.bind_eq_ok.mp hv
  obtain ⟨pricing, hcompute, hv⟩ := Checked.bind_eq_ok.mp hv
  cases hv
  obtain ⟨-, hbasic, hpriced⟩ := compute_spec h.solvable hst h.rule hcompute
  rw [h.record, ← hbasic, ← hcosts]
  exact hpriced

theorem targeted (h : t.Followable j i) : t.Targeted where
  entering := ⟨j, h.ready.entering⟩
  leaving := ⟨_, h.leaving⟩
  column := h.ready.column.1.length
  divides k hk := by
    obtain rfl : i = k := by
      have := h.leaving.symm.trans hk
      cases this
      rfl
    refine ⟨_, h.ready.column.1.getElem? h.lt, fun hz => h.pivot ?_⟩
    rw [zero_eq, fin_beq] at hz
    exact of_decide_eq_true hz

theorem costsCurrent (h : t.Followable j i) : t.Current := fun _ => h.record

/-- The costs after the exchange, and when they are stale. -/
theorem costs (h : t.Followable j i) (ht : t.Shaped solved σ) (hf : Follows t u j i)
    (hu : u.Shaped solved σ) :
    (u.pricing.stale = false → ∃ v, u.computePrices = .ok v ∧ v.pricing.costs = u.pricing.costs)
      ∧ (u.pricing.stale = true ↔ CostsMoved t u i) := by
  have hst : t.standings.length = t.rowCount := ht.state.standings
  obtain ⟨row, hrow, hsolved⟩ := h.row
  have hindex : row.basicIndex = i := index_of_solvedRow hsolved
  exact ⟨hf.costs_eq hu h.exact h.lt h.pivot (h.fit hst) hrow hsolved hindex,
    hf.stale_iff h.lt hst h.rule h.current h.record hrow hindex⟩

end Followable

section Ordered

variable [IsStrictOrderedRing K] {solved : Prop} {σ : Settings (Extended K)}

/-- **Costs that followed an exchange** and are not stale are those that would be computed now, and
    they are stale exactly if the cost of a basic variable moved.  That is so for an exchange over
    any distance, and for one without a move. -/
theorem costs_of_followable (ht : t.Shaped solved σ) (h : t.Followable j i) :
    (∃ u, t.performPivot = .ok u
      ∧ (u.pricing.stale = false → ∃ v, u.computePrices = .ok v ∧ v.pricing.costs = u.pricing.costs)
      ∧ (u.pricing.stale = true ↔ CostsMoved t u i))
    ∧ ((∀ s, t.standings[i]? = some s → s.isOutOfBounds = false) →
      ∃ u, t.performDegenerate = .ok u
        ∧ (u.pricing.stale = false → ∃ v, u.computePrices = .ok v
            ∧ v.pricing.costs = u.pricing.costs)
        ∧ (u.pricing.stale = true ↔ CostsMoved t u i)) := by
  have hst : t.standings.length = t.rowCount := ht.state.standings
  have hknown : t.KnowsCosts := h.costsCurrent.knowsCosts ht h.hasBasis
  constructor
  · obtain ⟨u, hu⟩ := exists_performPivot ht h.hasBasis h.solvable.inverse.size hknown h.targeted
    refine ⟨u, hu, h.costs ht ?_ (ht.performPivot hu)⟩
    -- The pivot exchanges, since a row leaves.
    obtain ⟨_, -, hu⟩ := Checked.bind_eq_ok.mp hu
    obtain ⟨j', hj', hu⟩ := Checked.bind_eq_ok.mp hu
    obtain rfl : j = j' :=
      Option.some.inj (h.ready.entering.symm.trans (enteringIndex_eq_ok.mp hj'))
    rw [h.leaving] at hu
    obtain ⟨v, hv, hfinish⟩ := Checked.bind_eq_ok.mp hu
    exact (follows_of_performExchange h.exact h.hasBasis hv).finish hfinish
  · intro hin
    obtain ⟨u, hu⟩ := exists_performDegenerate ht h.hasBasis h.solvable.inverse.size hknown
      h.targeted h.leaving hin
    obtain ⟨v, hv, hfinish⟩ := follows_of_performDegenerate h.exact h.hasBasis hst h.leaving hu
    exact ⟨u, hu, h.costs ht (hv.finish hfinish) (ht.performDegenerate hu)⟩

end Ordered

/-! ## §4.  Exchanges that are set up by hand -/

/-- Selecting both variables and computing what belongs to them puts everything in place, from costs
    that are as they would be computed. -/
theorem posed_of_run (ht : t.Solvable) (hb : t.hasBasis = true)
    (hrule : t.pricing.rule = .infeasibility) (hcurrent : t.pricing.stale = false)
    (hcomputed : t.computePrices = .ok u) (hcosts : u.pricing.costs = t.pricing.costs)
    (hrun : t.run [.selectEntering j, .computeColumn, .selectLeaving i, .computeRow] = .ok w)
    (hpivot : coord w.plan.column i ≠ 0) : w.Posed j i := by
  obtain ⟨_, a, ha, hrun⟩ := run_cons.mp hrun
  obtain ⟨_, b, hcolumn, hrun⟩ := run_cons.mp hrun
  obtain ⟨_, c, hc, hrun⟩ := run_cons.mp hrun
  obtain ⟨_, d, hd, hrun⟩ := run_cons.mp hrun
  cases hrun
  obtain ⟨-, rfl⟩ := selectEntering_spec (of_replyDone ha)
  have hsolv : Solvable { t with plan := { t.plan with entering := some j } } :=
    ⟨ht.state, ht.unit, ht.inverse⟩
  obtain ⟨column, j', rfl, hprimed, hready⟩ :=
    computeColumn_spec hsolv.answering (of_replyDone hcolumn)
  obtain rfl : j = j' := Option.some.inj hprimed.entering
  obtain ⟨-, rfl⟩ := selectLeaving_spec (of_replyDone hc)
  obtain ⟨i', row, hi', hrow, rfl⟩ := computeRow_spec (of_replyDone hd)
  obtain rfl : i = i' := Leaving.basic.inj (Option.some.inj hi')
  have hr := hready hsolv
  -- computing costs reads no selections
  obtain ⟨_, hbasis, hcomputed⟩ := Checked.bind_eq_ok.mp hcomputed
  obtain ⟨pricing, hcompute, hcomputed⟩ := Checked.bind_eq_ok.mp hcomputed
  cases hcomputed
  exact {
    hasBasis := hb
    solvable := ⟨ht.state, ht.unit, ht.inverse⟩
    rule := hrule
    current := hcurrent
    computed := ⟨_, Checked.bind_eq_ok.mpr
      ⟨_, hbasis, Checked.bind_eq_ok.mpr ⟨pricing, hcompute, rfl⟩⟩, hcosts⟩
    ready := ⟨hr.entering, hr.lt, hr.column⟩
    leaving := rfl
    pivot := hpivot
    row := ⟨row, rfl, hrow⟩ }

/-- A bound that is set without notice and standings that are recorded say
    nothing about the basis. -/
theorem solvable_of_setUpper (ht : t.Sound) {x : Extended K} {q : Nat} (hx : -Scalar.infinity < x)
    (hu : t.setUpper q x = .ok u) (hw : u.classifyAll = .ok w) :
    w.Solvable ∧ w.hasBasis = true := by
  obtain ⟨bounds, hb, _, _, rfl⟩ := setUpper_spec hu
  obtain ⟨-, hbounds, -⟩ := ht.state.bounds.setUpper hx hb
  obtain ⟨standings, -, rfl⟩ := of_classifyAll hw
  exact ⟨⟨⟨ht.state.matrix, ht.state.rhs, hbounds, ht.state.split, ht.state.basic,
    ht.state.nonBasic⟩, ht.unit, ht.inverse⟩, ht.hasBasis⟩

section Runs

/-- Setting up is a run. -/
theorem Configured.operated (h : t.Configured) : Operated anyStep t := by
  induction h with
  | created settings => exact .created settings
  | createdExplicit settings => exact .createdExplicit settings
  | performed _ setsUp done ih =>
    refine ih.performed (fun s hs => ?_) trivial done
    subst hs
    exact setsUp

/-- A basis that was set up after the problem was. -/
theorem operated_of_startFrom [IsStrictOrderedRing K] (ht : t.Configured) {vs : List Nat}
    (hu : t.startFrom vs = .ok (.ok (), u)) : u.Sound ∧ Operated anyStep u := by
  refine ⟨(startFrom_spec ht.prepared hu).sound, ?_⟩
  have hdone : t.perform (.startFrom vs) = .ok (.done, u) := by
    rw [perform, hu]
    rfl
  exact ht.operated.performed (fun s hs => by cases hs) trivial hdone

/-- The tableau on which the exchange of the non-basic position `j` for the row `i` is posed,
    reached from one that was set up. -/
theorem shaped_of_selections (h : Operated anyStep t)
    (hrun : t.run [.selectEntering j, .computeColumn, .selectLeaving i, .computeRow] = .ok w) :
    w.Shaped False w.settings := by
  have hw : Operated anyStep w := h.runForward (by simp) hrun
  obtain ⟨σ, hshape⟩ := hw.shaped
  obtain rfl := hshape.settings
  exact hshape

end Runs

/-- The equations `x + y = 1` and `x + z = 5` with `y` and `z` basic: `x` enters for `y`, with and
    without a move. -/
theorem costs_of_first_exchange : ∃ t : Tableau (Extended ℚ), t.Shaped False t.settings
    ∧ t.Followable 0 0
    ∧ (∃ u, t.performPivot = .ok u
      ∧ (u.pricing.stale = false → ∃ v, u.computePrices = .ok v ∧ v.pricing.costs = u.pricing.costs)
      ∧ (u.pricing.stale = true ↔ CostsMoved t u 0))
    ∧ ∃ u v, t.performDegenerate = .ok u ∧ u.pricing.costs = [fin 1] ∧ u.computePrices = .ok v
      ∧ v.pricing.costs = [fin 1] := by
  have hrun : (do
      let t ← (create (α := Extended ℚ) {}).run [.setSize 2 3,
        .setCoefficients [fin 1, fin 1, fin 0, fin 1, fin 0, fin 1],
        .setRightHandSide [fin 1, fin 5], .setLower 0 (fin 0), .setUpper 0 (fin 10),
        .setLower 1 (fin 0), .setUpper 1 (fin 10), .setLower 2 (fin 0), .setUpper 2 (fin 3)]
      let (r, s) ← t.startFrom [1, 2]
      let a ← s.computePrices
      let w ← s.run [.selectEntering 0, .computeColumn, .selectLeaving 0, .computeRow]
      let b ← w.performDegenerate
      Checked.require (r = Except.ok () ∧ s.pricing.records = false ∧ s.pricing.stale = false
        ∧ a.pricing.costs = s.pricing.costs ∧ coord w.plan.column 0 ≠ 0
        ∧ w.pricing.basicCosts = w.standings.map Standing.cost ∧ w.KeepsColumn
        ∧ w.standings = [Standing.between, .aboveUpper] ∧ b.pricing.stale = false
        ∧ b.pricing.costs = [fin 1]) .inconsistent) = .ok () := by decide +kernel
  obtain ⟨t, ht, hrun⟩ := Checked.bind_eq_ok.mp hrun
  obtain ⟨⟨r, s⟩, hs, hrun⟩ := Checked.bind_eq_ok.mp hrun
  obtain ⟨a, ha, hrun⟩ := Checked.bind_eq_ok.mp hrun
  obtain ⟨w, hw, hrun⟩ := Checked.bind_eq_ok.mp hrun
  obtain ⟨b, hb, hrun⟩ := Checked.bind_eq_ok.mp hrun
  obtain ⟨rfl, hrule, hcurrent, hcosts, hpivot, hrecord, hkeeps, hstandings, hfresh, hfollowed⟩ :=
    Checked.require_eq_ok.mp hrun
  have hconf : t.Configured := (Configured.created _).run (by decide +kernel) ht
  obtain ⟨hsound, hoperated⟩ := operated_of_startFrom hconf hs
  have hposed : w.Posed 0 0 := posed_of_run hsound.toSolvable hsound.hasBasis
    (Pricing.rule_of_records hrule) hcurrent ha hcosts hw hpivot
  have hready : w.Followable 0 0 := ⟨hposed, hrecord, hkeeps⟩
  have hshape := shaped_of_selections hoperated hw
  obtain ⟨hpivoted, hdegenerate⟩ := costs_of_followable hshape hready
  obtain ⟨b', hb', hsame, -⟩ := hdegenerate fun standing hstanding => by
    rw [hstandings] at hstanding
    cases hstanding
    rfl
  obtain rfl : b = b' := Except.ok.inj (hb.symm.trans hb')
  obtain ⟨v, hv, hvcosts⟩ := hsame hfresh
  exact ⟨w, hshape, hready, hpivoted, b, v, hb, hfollowed, hv, hvcosts.trans hfollowed⟩

/-- In `x + y = 1` and `x / 10 ^ 11 + z = 5` the entry of `x` in the second row is too small for the
    inverse to follow, and the followed cost of `y` is not the computed one. -/
theorem exists_costs_apart : ∃ t u v : Tableau (Extended ℚ), t.Shaped False t.settings ∧ t.Posed 0 0
    ∧ t.performDegenerate = .ok u ∧ u.pricing.stale = false ∧ u.computePrices = .ok v
    ∧ v.pricing.costs ≠ u.pricing.costs := by
  have hrun : (do
      let t ← (create (α := Extended ℚ) {}).run [.setSize 2 3,
        .setCoefficients [fin 1, fin 1, fin 0, fin (1 / 10 ^ 11), fin 0, fin 1],
        .setRightHandSide [fin 1, fin 5], .setLower 0 (fin 0), .setUpper 0 (fin 10),
        .setLower 1 (fin 0), .setUpper 1 (fin 10), .setLower 2 (fin 0), .setUpper 2 (fin 3)]
      let (r, s) ← t.startFrom [1, 2]
      let a ← s.computePrices
      let w ← s.run [.selectEntering 0, .computeColumn, .selectLeaving 0, .computeRow]
      let b ← w.performDegenerate
      let c ← b.computePrices
      Checked.require (r = Except.ok () ∧ s.pricing.records = false ∧ s.pricing.stale = false
        ∧ a.pricing.costs = s.pricing.costs ∧ coord w.plan.column 0 ≠ 0 ∧ b.pricing.stale = false
        ∧ c.pricing.costs ≠ b.pricing.costs) .inconsistent) = .ok () := by decide +kernel
  obtain ⟨t, ht, hrun⟩ := Checked.bind_eq_ok.mp hrun
  obtain ⟨⟨r, s⟩, hs, hrun⟩ := Checked.bind_eq_ok.mp hrun
  obtain ⟨a, ha, hrun⟩ := Checked.bind_eq_ok.mp hrun
  obtain ⟨w, hw, hrun⟩ := Checked.bind_eq_ok.mp hrun
  obtain ⟨b, hb, hrun⟩ := Checked.bind_eq_ok.mp hrun
  obtain ⟨c, hc, hrun⟩ := Checked.bind_eq_ok.mp hrun
  obtain ⟨rfl, hrule, hcurrent, hcosts, hpivot, hfresh, hapart⟩ := Checked.require_eq_ok.mp hrun
  have hconf : t.Configured := (Configured.created _).run (by decide +kernel) ht
  obtain ⟨hsound, hoperated⟩ := operated_of_startFrom hconf hs
  exact ⟨w, b, c, shaped_of_selections hoperated hw,
    posed_of_run hsound.toSolvable hsound.hasBasis (Pricing.rule_of_records hrule) hcurrent ha
      hcosts hw hpivot, hb, hfresh, hc, hapart⟩

/-- In `x = 5` and `y + z = 10` the bound of `x` is lowered to 3 and standings are recorded, which
    the costs do not notice until the exchange of `z` for `y`, which moves no cost. -/
theorem exists_stale_unmoved : ∃ t u : Tableau (Extended ℚ), t.Shaped False t.settings ∧ t.Posed 0 1
    ∧ t.performDegenerate = .ok u ∧ u.pricing.stale = true ∧ ¬CostsMoved t u 1 := by
  have hrun : (do
      let t ← (create (α := Extended ℚ) {}).run [.setSize 2 3,
        .setCoefficients [fin 1, fin 0, fin 0, fin 0, fin 1, fin 1],
        .setRightHandSide [fin 5, fin 10], .setLower 0 (fin 0), .setUpper 0 (fin 10),
        .setLower 1 (fin 0), .setUpper 1 (fin 20), .setLower 2 (fin 0), .setUpper 2 (fin 20)]
      let (r, s) ← t.startFrom [0, 1]
      let a ← s.setUpper 0 (fin 3)
      let c ← a.classifyAll
      let d ← c.computePrices
      let w ← c.run [.selectEntering 0, .computeColumn, .selectLeaving 1, .computeRow]
      let b ← w.performDegenerate
      Checked.require (r = Except.ok () ∧ c.pricing.records = false ∧ c.pricing.stale = false
        ∧ d.pricing.costs = c.pricing.costs ∧ coord w.plan.column 1 ≠ 0 ∧ b.pricing.stale = true
        ∧ w.standings = [Standing.aboveUpper, .between]
        ∧ b.standings = [Standing.aboveUpper, .atLower])
        .inconsistent) = .ok () := by decide +kernel
  obtain ⟨t, ht, hrun⟩ := Checked.bind_eq_ok.mp hrun
  obtain ⟨⟨r, s⟩, hs, hrun⟩ := Checked.bind_eq_ok.mp hrun
  obtain ⟨a, ha, hrun⟩ := Checked.bind_eq_ok.mp hrun
  obtain ⟨c, hc, hrun⟩ := Checked.bind_eq_ok.mp hrun
  obtain ⟨d, hd, hrun⟩ := Checked.bind_eq_ok.mp hrun
  obtain ⟨w, hw, hrun⟩ := Checked.bind_eq_ok.mp hrun
  obtain ⟨b, hb, hrun⟩ := Checked.bind_eq_ok.mp hrun
  obtain ⟨rfl, hrule, hcurrent, hcosts, hpivot, hstale, hbefore, hafter⟩ :=
    Checked.require_eq_ok.mp hrun
  have hconf : t.Configured := (Configured.created _).run (by decide +kernel) ht
  obtain ⟨hsound, hoperated⟩ := operated_of_startFrom hconf hs
  obtain ⟨hsolvable, hbasis⟩ := solvable_of_setUpper hsound (by decide +kernel) ha hc
  have hrecorded : s.run [.setUpper 0 (fin 3), .classifyAll] = .ok c :=
    run_cons.mpr ⟨.done, a, by rw [perform, ha]; rfl,
      run_cons.mpr ⟨.done, c, by rw [perform, hc]; rfl, rfl⟩⟩
  have hoperated' : Operated anyStep c := hoperated.runForward (by simp) hrecorded
  refine ⟨w, b, shaped_of_selections hoperated' hw,
    posed_of_run hsolvable hbasis (Pricing.rule_of_records hrule) hcurrent hd hcosts hw hpivot,
    hb, hstale, ?_⟩
  unfold CostsMoved
  -- the cost of `x` is the same before and after, and `z` enters at a bound
  rw [hbefore, hafter]
  rintro (⟨k, s, s', hk, hs, hs', hne⟩ | ⟨s', hs', hne⟩)
  · obtain _ | _ | k := k
    · cases hs
      cases hs'
      exact hne rfl
    · exact hk rfl
    · cases hs
  · cases hs'
    exact hne rfl

/-- Two exchanges that everything is in place for: after one of them the followed costs are not the
    computed ones, and after the other they are stale though no cost moved. -/
theorem costs_apart_after_exchange :
    (∃ t u v : Tableau (Extended ℚ), t.Shaped False t.settings ∧ t.Posed 0 0
      ∧ t.performDegenerate = .ok u ∧ u.pricing.stale = false
      ∧ u.computePrices = .ok v ∧ v.pricing.costs ≠ u.pricing.costs)
    ∧ ∃ t u : Tableau (Extended ℚ), t.Shaped False t.settings ∧ t.Posed 0 1
      ∧ t.performDegenerate = .ok u ∧ u.pricing.stale = true ∧ ¬CostsMoved t u 1 :=
  ⟨exists_costs_apart, exists_stale_unmoved⟩

end Tableau

end BoundedSimplex
