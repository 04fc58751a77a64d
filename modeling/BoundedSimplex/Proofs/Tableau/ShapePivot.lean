/-
  BoundedSimplex.Proofs.Tableau.ShapePivot — dimensions through pricing, selecting and pivoting.

  Selections are recorded within the tableau, whoever makes them.  A pivot then either moves values
  and lets the costs go stale, or exchanges two places and lets the costs follow; in both cases it
  ends by dropping the selections.

  Main results:
    * `Shaped.computePrices`, `Shaped.chooseEntering`, `Shaped.computeColumn`, `Shaped.computeRow`,
      `Concludes.shaped` — the steps up to a pivot;
    * `performPivot_cases`, `performDegenerate_cases` — what a pivot can do;
    * `Shaped.performPivot`, `Shaped.performDegenerate`.
-/
import BoundedSimplex.Proofs.Tableau.Pivot
import BoundedSimplex.Proofs.Tableau.Shape

namespace BoundedSimplex

variable {α : Type} [Scalar α]

/-! ## §1.  Costs -/

namespace Pricing

theorem length_reducedCosts {view : View α} {y costs : List α}
    (h : reducedCosts view y = .ok costs) : costs.length = view.nonBasic.length :=
  Checked.length_of_mapM h

/-- Computed costs can be relied on, and there is one per non-basic position. -/
theorem length_compute {p q : Pricing α} {view : View α} (h : p.compute view = .ok q) :
    q.stale = false ∧ q.costs.length = view.nonBasic.length := by
  obtain ⟨_, _, h⟩ := Checked.bind_eq_ok.mp h
  have pricing {costs xs : List α} (h : price view xs = .ok costs) :
      costs.length = view.nonBasic.length := by
    obtain ⟨y, _, h⟩ := Checked.bind_eq_ok.mp h
    exact length_reducedCosts h
  split at h
  · obtain ⟨costs, hc, h⟩ := Checked.bind_eq_ok.mp h
    cases h
    exact ⟨rfl, pricing hc⟩
  · cases h
    exact ⟨rfl, Scalar.length_fit _ _⟩
  · obtain ⟨costs, hc, h⟩ := Checked.bind_eq_ok.mp h
    cases h
    exact ⟨rfl, pricing hc⟩

/-- There are as many costs after an exchange as before it. -/
theorem length_costs_follow {p q : Pricing α} {e : Exchange α} {changed : Bool}
    (h : p.follow e = .ok (q, changed)) : q.costs.length = p.costs.length := by
  unfold follow at h
  split at h
  · cases h
    rfl
  · cases h
    rfl
  · split at h
    · cases h
      rfl
    · obtain ⟨_, hlen, h⟩ := Checked.bind_eq_ok.mp h
      obtain ⟨ownCost, _, h⟩ := Checked.bind_eq_ok.mp h
      obtain ⟨cost, _, h⟩ := Checked.bind_eq_ok.mp h
      cases h
      rw [exchangeCosts, List.length_mapIdx, List.length_zip, Checked.require_eq_ok.mp hlen,
        Nat.min_self]

/-- Costs that can be relied on after an exchange could be before it. -/
theorem stale_of_follow {p q : Pricing α} {e : Exchange α} {changed : Bool}
    (h : p.follow e = .ok (q, changed)) (hq : q.stale = false) : p.stale = false := by
  unfold follow at h
  split at h
  · cases h
    exact hq
  · cases h
    exact hq
  · split at h
    · cases h
      exact hq
    next hstale => simpa using hstale

end Pricing

namespace Tableau

variable {solved : Prop} {σ : Settings α} {t u w : Tableau α}

/-- Other costs, which fit or are stale. -/
theorem Shaped.reprice (ht : t.Shaped solved σ) {pricing : Pricing α}
    (h : pricing.stale = false → pricing.costs.length = t.nonBasicCount) :
    { t with pricing }.Shaped solved σ :=
  ⟨ht.settings, ht.state, ht.inverse, ht.multipliers, h, ht.plan, ht.split, ht.row, ht.size⟩

theorem Shaped.usePricing (ht : t.Shaped solved σ) (rule : PricingRule α) :
    (t.usePricing rule).Shaped solved σ :=
  ht.reprice fun h => by cases h

/-- Costs that were just computed can be relied on. -/
theorem stale_of_computePrices (h : t.computePrices = .ok u) : u.pricing.stale = false := by
  obtain ⟨_, _, h⟩ := Checked.bind_eq_ok.mp h
  obtain ⟨pricing, hp, h⟩ := Checked.bind_eq_ok.mp h
  cases h
  exact (Pricing.length_compute hp).1

theorem Shaped.computePrices (ht : t.Shaped solved σ) (h : t.computePrices = .ok u) :
    u.Shaped solved σ := by
  obtain ⟨_, hb, h⟩ := Checked.bind_eq_ok.mp h
  obtain ⟨pricing, hp, h⟩ := Checked.bind_eq_ok.mp h
  cases h
  have hsplit := ht.split (Checked.require_eq_ok.mp hb)
  exact ht.reprice fun _ => (Pricing.length_compute hp).2.trans hsplit.nonBasic.length

theorem Shaped.computeMultipliers (ht : t.Shaped solved σ) {costs : List α}
    (h : t.computeMultipliers costs = .ok u) : u.Shaped solved σ := by
  obtain ⟨_, hlen, h⟩ := Checked.bind_eq_ok.mp h
  obtain ⟨multipliers, hs, h⟩ := Checked.bind_eq_ok.mp h
  cases h
  obtain ⟨hc, hm⟩ := ht.inverse.solveRow hs
  have hlen := Checked.require_eq_ok.mp hlen
  exact ⟨ht.settings, ht.state, ht.inverse, hm.trans (hc.symm.trans hlen), ht.costs, ht.plan,
    ht.split, ht.row, ht.size⟩

/-! ## §2.  Selections -/

/-- Other selections within the tableau. -/
theorem Shaped.replan (ht : t.Shaped solved σ) {plan : PivotPlan α}
    (hplan : plan.Shaped t.rowCount t.nonBasicCount)
    (hrow : t.hasBasis = true → ∀ row, plan.row = some row →
      row.basicIndex < t.rowCount ∧ row.entries.length = t.nonBasicCount) :
    { t with plan }.Shaped solved σ :=
  ⟨ht.settings, ht.state, ht.inverse, ht.multipliers, ht.costs, hplan, ht.split, hrow, ht.size⟩

theorem Shaped.selectEntering (ht : t.Shaped solved σ) {j : Nat} (h : t.selectEntering j = .ok u) :
    u.Shaped solved σ := by
  obtain ⟨hj, rfl⟩ := selectEntering_spec h
  refine ht.replan ⟨fun k hk => ?_, ht.plan.leaving, ht.plan.column⟩ ht.row
  cases hk
  exact hj

theorem Shaped.chooseEntering (ht : t.Shaped solved σ) {rule next : EnteringRule} {found : Bool}
    (h : t.chooseEntering rule = .ok (found, next, u)) : u.Shaped solved σ := by
  obtain ⟨candidates, _, h⟩ := Checked.bind_eq_ok.mp h
  obtain ⟨⟨chosen, next'⟩, _, h⟩ := Checked.bind_eq_ok.mp h
  cases chosen with
  | none =>
    cases h
    exact ht
  | some j =>
    obtain ⟨v, hv, h⟩ := Checked.bind_eq_ok.mp h
    cases h
    exact ht.selectEntering hv

theorem Shaped.selectLeaving (ht : t.Shaped solved σ) {i : Nat} (h : t.selectLeaving i = .ok u) :
    u.Shaped solved σ := by
  obtain ⟨hi, rfl⟩ := selectLeaving_spec h
  refine ht.replan ⟨ht.plan.entering, fun k hk => ?_, ht.plan.column⟩ ht.row
  cases hk
  exact hi

theorem Shaped.setDistance (ht : t.Shaped solved σ) {x : α} (h : t.setDistance x = .ok u) :
    u.Shaped solved σ := by
  obtain ⟨_, _, h⟩ := Checked.bind_eq_ok.mp h
  cases h
  exact ht.replan ⟨ht.plan.entering, ht.plan.leaving, ht.plan.column⟩ ht.row

theorem Shaped.setColumn (ht : t.Shaped solved σ) {column : List α}
    (h : t.setColumn column = .ok u) :
    u.Shaped solved σ := by
  obtain ⟨_, hc, h⟩ := Checked.bind_eq_ok.mp h
  cases h
  exact ht.replan ⟨ht.plan.entering, ht.plan.leaving, .inr (Checked.require_eq_ok.mp hc)⟩ ht.row

/-- A computed change column has an entry for each row even where the inverse is not that of the
    present basis, for it could not have been solved for otherwise.  Nothing else is new. -/
theorem column_of_computeColumn (ht : t.Shaped solved σ) (h : t.computeColumn = .ok u) :
    ∃ column, column.length = t.rowCount ∧ u = { t with plan := { t.plan with column } } := by
  obtain ⟨j, _, h⟩ := Checked.bind_eq_ok.mp h
  obtain ⟨v, _, h⟩ := Checked.bind_eq_ok.mp h
  obtain ⟨a, ha, h⟩ := Checked.bind_eq_ok.mp h
  obtain ⟨column, hs, h⟩ := Checked.bind_eq_ok.mp h
  cases h
  obtain ⟨hin, hout⟩ := ht.inverse.solveColumn hs
  have hlen : a.length = t.rowCount := ht.state.matrix.length_column ha
  exact ⟨column, hout.trans (hin.symm.trans hlen), rfl⟩

theorem Shaped.computeColumn (ht : t.Shaped solved σ) (h : t.computeColumn = .ok u) :
    u.Shaped solved σ := by
  obtain ⟨column, hlen, rfl⟩ := column_of_computeColumn ht h
  exact ht.replan ⟨ht.plan.entering, ht.plan.leaving, .inr hlen⟩ ht.row

theorem Shaped.computeRow (ht : t.Shaped solved σ) (h : t.computeRow = .ok u) :
    u.Shaped solved σ := by
  obtain ⟨i, row, -, hrow, rfl⟩ := computeRow_spec h
  refine ht.replan ⟨ht.plan.entering, ht.plan.leaving, ht.plan.column⟩ fun hb r hr => ?_
  cases hr
  obtain ⟨_, hi, hrow⟩ := Checked.bind_eq_ok.mp hrow
  obtain ⟨rho, _, hrow⟩ := Checked.bind_eq_ok.mp hrow
  obtain ⟨coefficients, hc, hrow⟩ := Checked.bind_eq_ok.mp hrow
  obtain ⟨slot, _, hrow⟩ := Checked.bind_eq_ok.mp hrow
  cases hrow
  exact ⟨Checked.require_eq_ok.mp hi,
    (Checked.length_of_mapM hc).trans (ht.split hb).nonBasic.length⟩

theorem Concludes.shaped (h : Concludes t u) (ht : t.Shaped solved σ) : u.Shaped solved σ := by
  obtain ⟨leaving, distance, falls, hrow, hs⟩ := h
  refine hs.shaped (ht.replan ⟨ht.plan.entering, fun i hi => ?_, ht.plan.column⟩ ht.row)
  have hlt := hrow i (Option.some.inj hi)
  rcases ht.plan.column with hnil | hlen
  · rw [hnil] at hlt
    exact absurd hlt (Nat.not_lt_zero i)
  · exact hlen ▸ hlt

/-! ## §3.  Pivots -/

/-- Exchanging the places of two variables keeps all dimensions. -/
theorem Shaped.exchangePlaces (ht : t.Shaped solved σ) (hb : t.hasBasis = true)
    {j i : Nat} {x y : α} {names : Nat × Nat} (h : t.exchangePlaces j i x y = .ok (names, u)) :
    u.Shaped solved σ ∧ u.plan = t.plan ∧ u.pricing = t.pricing ∧ u.standings = t.standings := by
  obtain ⟨⟨names', split⟩, hswap, h⟩ := Checked.bind_eq_ok.mp h
  obtain ⟨xs, hxs, h⟩ := Checked.bind_eq_ok.mp h
  obtain ⟨ys, hys, h⟩ := Checked.bind_eq_ok.mp h
  obtain ⟨inverse, hf, h⟩ := Checked.bind_eq_ok.mp h
  obtain ⟨hi, rfl⟩ := Checked.setAt_eq_ok.mp hxs
  obtain ⟨hj, rfl⟩ := Checked.setAt_eq_ok.mp hys
  cases h
  -- The checked writes were inside their lists, so the exchanged places exist.
  have hs := ht.state
  have hsplit := ht.split hb
  rw [hs.basicValues] at hi
  rw [hs.nonBasicValues] at hj
  have hmarked := hs.marked.swap hswap
  rw [hsplit.swap_eq hj hi] at hswap
  cases hswap
  have hnew := hsplit.swap hj hi
  obtain ⟨hshape, hsize⟩ := ht.inverse.update hf
  exact ⟨⟨ht.settings, ⟨hs.matrix, hs.rightHandSide, hs.bounds, hnew.basic.length,
    hnew.places, hmarked, List.length_set.trans hs.basicValues,
    List.length_set.trans hs.nonBasicValues, hs.standings⟩, hshape, ht.multipliers, ht.costs,
    ht.plan, fun _ => hnew, ht.row, fun hsolved _ => hsize.trans (ht.size hsolved hb)⟩,
    rfl, rfl, rfl⟩

/-- An exchange up to its end: the costs of `t` followed the exchange, in a tableau in shape that
    has a standing for each one of `t`. -/
def Reprices (solved : Prop) (σ : Settings α) (t u : Tableau α) : Prop :=
  ∃ (w : Tableau α) (j i : Nat) (pricing : Pricing α), w.Shaped solved σ ∧ w.pricing = t.pricing
    ∧ w.standings.length = t.standings.length ∧ w.Repriced j i w.standings pricing
    ∧ Silent { w with pricing } u

theorem Repriced.length_costs {j i : Nat} {standings : List Standing} {pricing : Pricing α}
    (h : t.Repriced j i standings pricing) : pricing.costs.length = t.pricing.costs.length := by
  rcases h with ⟨row, changed, -, -, hf⟩ | rfl
  · exact Pricing.length_costs_follow hf
  · rfl

theorem Repriced.length {j i : Nat} {standings : List Standing} {pricing : Pricing α}
    (h : t.Repriced j i standings pricing) (hp : pricing.stale = false) :
    t.pricing.stale = false ∧ pricing.costs.length = t.pricing.costs.length := by
  refine ⟨?_, h.length_costs⟩
  rcases h with ⟨row, changed, -, -, hf⟩ | rfl
  · exact Pricing.stale_of_follow hf hp
  · cases hp

theorem Reprices.shaped (h : Reprices solved σ t u) : u.Shaped solved σ := by
  obtain ⟨w, j, i, pricing, hw, -, -, hp, hs⟩ := h
  refine hs.shaped (hw.reprice fun hstale => ?_)
  obtain ⟨hstale', hlen⟩ := hp.length hstale
  exact hlen.trans (hw.costs hstale')

theorem Reprices.silent (h : Reprices solved σ t u) (h' : Silent u w) : Reprices solved σ t w := by
  obtain ⟨v, j, i, pricing, hv, hp, hlen, hr, hs⟩ := h
  exact ⟨v, j, i, pricing, hv, hp, hlen, hr, hs.trans h'⟩

/-- The pivot element is the entry of the leaving row in the change column, and not zero. -/
theorem entry_of_pivotElement {i : Nat} {element : α} (h : t.pivotElement i = .ok element) :
    t.plan.column[i]? = some element ∧ ¬(element == 0) = true := by
  obtain ⟨_, _, h⟩ := Checked.bind_eq_ok.mp h
  obtain ⟨x, hx, h⟩ := Checked.bind_eq_ok.mp h
  obtain ⟨_, hz, h⟩ := Checked.bind_eq_ok.mp h
  cases h
  exact ⟨Checked.getAt_eq_ok.mp hx, Checked.require_eq_ok.mp hz⟩

theorem getD_of_pivotElement {i : Nat} {element : α} (h : t.pivotElement i = .ok element) :
    t.plan.column.getD i 0 = element := by
  rw [List.getD_eq_getElem?_getD, (entry_of_pivotElement h).1, Option.getD_some]

/-- A move without an exchange. -/
theorem performFake_revalues (ht : t.Shaped solved σ) {j : Nat} (h : t.performFake j = .ok u) :
    Revalues t u := by
  unfold performFake at h
  split at h
  · obtain ⟨v, _, h⟩ := Checked.bind_eq_ok.mp h
    obtain ⟨x, _, h⟩ := Checked.bind_eq_ok.mp h
    obtain ⟨l, _, h⟩ := Checked.bind_eq_ok.mp h
    obtain ⟨b, _, h⟩ := Checked.bind_eq_ok.mp h
    obtain ⟨w, hw, h⟩ := Checked.bind_eq_ok.mp h
    obtain ⟨pairs, _, h⟩ := Checked.bind_eq_ok.mp h
    cases h
    have hmoved : Moves t { t with
        basicValues :=
          shift ((if t.plan.enteringFalls then l else b) - x) t.basicValues t.plan.column
        nonBasicValues := t.nonBasicValues.set j (if t.plan.enteringFalls then l else b) } :=
      ⟨_, _, _, _, _, _, length_shift _ _ _, List.length_set, rfl, rfl⟩
    have hmoved := hmoved.trans (silent_remark _ (.fakePivot v t.change)).moves
    have hw := hmoved.trans (classifyAll_moves (hmoved.shaped ht).state hw)
    -- what is told after the costs went stale could have been told before
    obtain ⟨j', s', htold⟩ := ((silent_tellValue w.invalidatePrices v
      (if t.plan.enteringFalls then l else b)).trans (silent_tellValues _ pairs)).trans
        (silent_count _ .fakePivots)
    exact .inr ⟨{ w with journal := j', statistics := s' }, hw.trans (Silent.moves ⟨j', s', rfl⟩),
      htold⟩
  · cases h
    exact .inl ⟨(silent_remark _ _).moves, rfl⟩

/-- The entering variable moves and takes over the row of the leaving one. -/
theorem performExchange_reprices (ht : t.Shaped solved σ) (hb : t.hasBasis = true) {j i : Nat}
    (h : t.performExchange j i = .ok u) : Reprices solved σ t u := by
  obtain ⟨element, helement, h⟩ := Checked.bind_eq_ok.mp h
  obtain ⟨leaving, _, h⟩ := Checked.bind_eq_ok.mp h
  obtain ⟨standing, _, h⟩ := Checked.bind_eq_ok.mp h
  obtain ⟨l, _, h⟩ := Checked.bind_eq_ok.mp h
  obtain ⟨b, _, h⟩ := Checked.bind_eq_ok.mp h
  obtain ⟨x, _, h⟩ := Checked.bind_eq_ok.mp h
  obtain ⟨⟨⟨q, p⟩, w⟩, hplaces, h⟩ := Checked.bind_eq_ok.mp h
  obtain ⟨w', hclass, h⟩ := Checked.bind_eq_ok.mp h
  obtain ⟨v, hfollow, h⟩ := Checked.bind_eq_ok.mp h
  obtain ⟨pairs, _, h⟩ := Checked.bind_eq_ok.mp h
  -- The values are shifted first, which is a move.
  have hshift : Moves t { t with basicValues := shift t.change t.basicValues t.plan.column } :=
    ⟨_, _, _, _, _, _, length_shift _ _ _, rfl, rfl, rfl⟩
  obtain ⟨hw, hplan, hpricing, hstandings⟩ := (hshift.shaped ht).exchangePlaces hb hplaces
  have hmoves := classifyAll_moves ((silent_remark _ _).shaped hw).state hclass
  have hw' := hmoves.shaped ((silent_remark _ _).shaped hw)
  -- The plan has gone through all of it, so the column still has the pivot element.
  have he : w'.plan.column.getD i 0 = element := by
    rw [hmoves.plan, show (w.remark _).plan = t.plan from hplan]
    exact getD_of_pivotElement helement
  obtain ⟨pricing, hs, hp⟩ := followExchange_spec he hfollow
  have hlen : w'.standings.length = t.standings.length :=
    hmoves.length_standings.trans (congrArg List.length hstandings)
  refine Reprices.silent ⟨w', j, i, pricing, hw', hmoves.pricing.trans hpricing, hlen, hp, hs⟩ ?_
  cases h
  have htold := ((silent_tellValues v pairs).trans (silent_tellValue _ leaving
    (landing standing t.plan.leavingRises l b))).trans (silent_count _ .pivots)
  split
  · exact htold.trans (silent_count _ .degeneratePivots)
  · exact htold

/-- The end of a pivot. -/
theorem finish_spec (ht : t.Shaped solved σ) (h : t.finish = .ok u) :
    u.Shaped solved σ ∧ ∃ inverse, Silent { t with plan := .none, inverse } u := by
  refine ⟨ht.clearPlan.refactorIfDue h, ?_⟩
  rcases refactorIfDue_reinverts h with hu | ⟨inverse, -, -, hu⟩
  · exact ⟨t.inverse, hu⟩
  · exact ⟨inverse, hu⟩

/-- **What a pivot can do** before it ends: move values, or exchange two places. -/
theorem performPivot_cases (ht : t.Shaped solved σ) (h : t.performPivot = .ok u) :
    ∃ w, (Revalues t w ∨ Reprices solved σ t w) ∧ w.finish = .ok u := by
  obtain ⟨_, hb, h⟩ := Checked.bind_eq_ok.mp h
  obtain ⟨j, _, h⟩ := Checked.bind_eq_ok.mp h
  have hb := Checked.require_eq_ok.mp hb
  split at h
  · obtain ⟨w, hw, h⟩ := Checked.bind_eq_ok.mp h
    exact ⟨w, .inl (performFake_revalues ht hw), h⟩
  · obtain ⟨w, hw, h⟩ := Checked.bind_eq_ok.mp h
    exact ⟨w, .inr (performExchange_reprices ht hb hw), h⟩
  · cases h

theorem Shaped.performPivot (ht : t.Shaped solved σ) (h : t.performPivot = .ok u) :
    u.Shaped solved σ := by
  obtain ⟨w, hw, h⟩ := performPivot_cases ht h
  rcases hw with hw | hw
  · exact (finish_spec (hw.shaped ht) h).1
  · exact (finish_spec hw.shaped h).1

/-- An exchange without a move. -/
theorem performDegenerate_cases (ht : t.Shaped solved σ) (h : t.performDegenerate = .ok u) :
    ∃ w, Reprices solved σ t w ∧ w.finish = .ok u := by
  obtain ⟨_, hb, h⟩ := Checked.bind_eq_ok.mp h
  obtain ⟨j, _, h⟩ := Checked.bind_eq_ok.mp h
  obtain ⟨i, _, h⟩ := Checked.bind_eq_ok.mp h
  obtain ⟨standing, _, h⟩ := Checked.bind_eq_ok.mp h
  obtain ⟨_, _, h⟩ := Checked.bind_eq_ok.mp h
  obtain ⟨element, helement, h⟩ := Checked.bind_eq_ok.mp h
  obtain ⟨x, _, h⟩ := Checked.bind_eq_ok.mp h
  obtain ⟨y, _, h⟩ := Checked.bind_eq_ok.mp h
  obtain ⟨⟨⟨q, p⟩, w⟩, hplaces, h⟩ := Checked.bind_eq_ok.mp h
  obtain ⟨w', hclass, h⟩ := Checked.bind_eq_ok.mp h
  obtain ⟨v, hfollow, h⟩ := Checked.bind_eq_ok.mp h
  refine ⟨_, ?_, h⟩
  -- The same as at a pivot, with one status recorded in the place of all.
  obtain ⟨hw, hplan, hpricing, hstandings⟩ :=
    ht.exchangePlaces (Checked.require_eq_ok.mp hb) hplaces
  have hmoves := classifyAt_moves hclass
  have hw' := hmoves.shaped ((silent_remark _ _).shaped hw)
  have he : w'.plan.column.getD i 0 = element := by
    rw [hmoves.plan, show (w.remark _).plan = t.plan from hplan]
    exact getD_of_pivotElement helement
  obtain ⟨pricing, hs, hp⟩ := followExchange_spec he hfollow
  have hlen : w'.standings.length = t.standings.length :=
    hmoves.length_standings.trans (congrArg List.length hstandings)
  exact Reprices.silent ⟨w', j, i, pricing, hw', hmoves.pricing.trans hpricing, hlen, hp, hs⟩
    ((silent_count _ .pivots).trans (silent_count _ .degeneratePivots))

theorem Shaped.performDegenerate (ht : t.Shaped solved σ) (h : t.performDegenerate = .ok u) :
    u.Shaped solved σ := by
  obtain ⟨w, hw, h⟩ := performDegenerate_cases ht h
  exact (finish_spec hw.shaped h).1

end Tableau

end BoundedSimplex
