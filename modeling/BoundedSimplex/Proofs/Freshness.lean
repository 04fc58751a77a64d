/-
  BoundedSimplex.Proofs.Freshness — whether costs that count as current are.

  Costs that minimise the violation are computed from the standings of the basic variables.  Every
  operation that can change a standing has to let them go stale or to adapt them.  This module
  follows the costs through all operations, for any arithmetic: computed costs fit, an exchange
  either adapts the costs or notices that a standing no longer has the cost it had, and everything
  else leaves standings and costs alone or lets the costs go stale.

  Everything else but one: an operation that does nothing but record standings (`Restands`) does not
  look at the costs.  So costs stay current exactly as long as such an operation finds nothing new.

  Main results:
    * `Current.exchanged` — costs that are not stale after an exchange fit it;
    * `perform_sameCosts` — the operations that have nothing to do with costs;
    * `current_of_not_restands` — all other operations, one case each;
    * `costsFit_of_notices` — whole runs, and the step that breaks them.
-/
import BoundedSimplex.Proofs.Operated
import BoundedSimplex.Proofs.Tableau.Prices

namespace BoundedSimplex

variable {α : Type} [Scalar α]

/-- The costs of standings that compare as equal are equal. -/
def Standing.CostsApart (α : Type) [Scalar α] : Prop :=
  ∀ s s' : Standing, ((s.cost : α) == s'.cost) = true → (s.cost : α) = s'.cost

/-- Exchanges go on record for all costs but those by the violation of the bounds. -/
theorem Pricing.rule_of_records {β : Type} {p : Pricing β} (h : p.records = false) :
    p.rule = .infeasibility := by
  unfold Pricing.records at h
  split at h
  next hrule => exact hrule
  next => cases h
  next => cases h

/-- The operations that touch neither costs nor standings nor the basis. -/
def Operation.SparesCosts : Operation α → Prop
  | .setSize _ _ | .tightenLower _ _ | .tightenUpper _ _ | .startFrom _ | .start | .addEquation _
  | .merge _ _ | .computeValues | .classifyAll | .classify _ | .classifyAt _ | .moveNonBasic _ _ _
  | .computePrices | .usePricing _ | .performPivot | .performDegenerate | .restore _ => False
  | _ => True

namespace Tableau

variable {solved : Prop} {σ : Settings α} {t u w : Tableau α}

/-! ## §1.  What current costs are -/

/-- The tableau has a basis, and costs by the violation of the bounds that claim to be current. -/
structure Fresh (t : Tableau α) : Prop where
  hasBasis : t.hasBasis = true
  rule : t.pricing.rule = .infeasibility
  current : t.pricing.stale = false

/-- The costs belong to the present standings and to the present non-basic variables. -/
structure CostsFit (t : Tableau α) : Prop where
  basicCosts : t.pricing.basicCosts = t.standings.map Standing.cost
  length : t.pricing.costs.length = t.nonBasicCount

/-- Costs that claim to be current belong to the present standings. -/
def Current (t : Tableau α) : Prop :=
  t.Fresh → t.pricing.basicCosts = t.standings.map Standing.cost

/-- Costs that are marked as stale need not fit anything. -/
theorem current_of_stale (h : t.pricing.stale = true) : t.Current := by
  intro hf
  rw [hf.current] at h
  cases h

/-- Without a basis there are no costs that could be out of date. -/
theorem current_of_unset (h : t.hasBasis = false) : t.Current := by
  intro hf
  rw [hf.hasBasis] at h
  cases h

/-- `u` has the basis, the costs and the standings of `t`. -/
structure SameCosts (t u : Tableau α) : Prop where
  pricing : u.pricing = t.pricing
  standings : u.standings = t.standings
  hasBasis : u.hasBasis = t.hasBasis

/-- Steps that leave the costs alone can be chained. -/
theorem SameCosts.trans (h : SameCosts t u) (h' : SameCosts u w) : SameCosts t w :=
  ⟨h'.pricing.trans h.pricing, h'.standings.trans h.standings, h'.hasBasis.trans h.hasBasis⟩

/-- Notices and counters leave the costs alone. -/
theorem Silent.sameCosts (h : Silent t u) : SameCosts t u := by
  obtain ⟨_, _, rfl⟩ := h
  exact ⟨rfl, rfl, rfl⟩

/-- What leaves the costs and the statuses alone leaves the costs current. -/
theorem SameCosts.current (h : SameCosts t u) (ht : t.Current) : u.Current := by
  intro hf
  have hft : t.Fresh := by
    refine ⟨?_, ?_, ?_⟩
    · rw [← h.hasBasis]
      exact hf.hasBasis
    · rw [← h.pricing]
      exact hf.rule
    · rw [← h.pricing]
      exact hf.current
  rw [h.pricing, h.standings]
  exact ht hft

/-- Moves that change a standing let the costs go stale. -/
theorem Revalues.current (h : Revalues t u) (ht : t.Current) : u.Current := by
  rcases h with ⟨hm, hs⟩ | ⟨w, -, rfl⟩
  · exact SameCosts.current ⟨hm.pricing, hs, hm.hasBasis⟩ ht
  · exact current_of_stale rfl

/-- A refresh, failed or not, leaves the costs alone. -/
theorem refactor_sameCosts {r : Except Failure Unit} (h : t.refactor = .ok (r, u)) :
    SameCosts t u := by
  rcases refactor_reinverts h with ⟨-, hu⟩ | ⟨-, inverse, -, -, hu⟩
  · exact hu.sameCosts
  · have hinverse : SameCosts t { t with inverse } := ⟨rfl, rfl, rfl⟩
    exact hinverse.trans hu.sameCosts

/-- The outcome of a ratio test. -/
theorem Concludes.sameCosts (h : Concludes t u) : SameCosts t u := by
  obtain ⟨leaving, distance, falls, -, hs⟩ := h
  have hplanned : SameCosts t (t.concluded leaving distance falls) := ⟨rfl, rfl, rfl⟩
  exact hplanned.trans hs.sameCosts

/-- The choice of an entering variable. -/
theorem chooseEntering_sameCosts {rule next : EnteringRule} {found : Bool}
    (h : t.chooseEntering rule = .ok (found, next, u)) : SameCosts t u := by
  obtain ⟨candidates, _, h⟩ := Checked.bind_eq_ok.mp h
  obtain ⟨⟨chosen, rule'⟩, _, h⟩ := Checked.bind_eq_ok.mp h
  cases chosen with
  | none =>
    cases h
    exact ⟨rfl, rfl, rfl⟩
  | some j =>
    obtain ⟨w, hw, h⟩ := Checked.bind_eq_ok.mp h
    cases h
    obtain ⟨-, rfl⟩ := selectEntering_spec hw
    exact ⟨rfl, rfl, rfl⟩

/-! ## §2.  Computing costs, and following an exchange -/

/-- Costs that were just computed are current. -/
theorem current_of_computePrices (h : t.computePrices = .ok u) : u.Current := by
  obtain ⟨_, _, h⟩ := Checked.bind_eq_ok.mp h
  obtain ⟨pricing, hp, h⟩ := Checked.bind_eq_ok.mp h
  cases h
  intro hf
  obtain ⟨_, _, hp⟩ := Checked.bind_eq_ok.mp hp
  split at hp
  · obtain ⟨costs, _, hp⟩ := Checked.bind_eq_ok.mp hp
    cases hp
    rfl
  -- other rules than the violation keep their kind
  next hrule =>
    cases hp
    exact absurd (hrule.symm.trans hf.rule) (by simp)
  next hrule =>
    obtain ⟨costs, _, hp⟩ := Checked.bind_eq_ok.mp hp
    cases hp
    exact absurd (hrule.symm.trans hf.rule) (by simp)

/-- **Following an exchange.**  The entering variable is priced as one within its bounds.  If any
    basic variable has another standing than its cost says, the exchange notices. -/
theorem Repriced.current (hcosts : Standing.CostsApart α) {j i : Nat} {pricing : Pricing α}
    (ht : t.pricing.rule = .infeasibility → t.pricing.stale = false →
      ∃ ss : List Standing, ss.length = t.standings.length
        ∧ t.pricing.basicCosts = ss.map Standing.cost)
    (h : t.Repriced j i t.standings pricing) : { t with pricing }.Current := by
  intro hf
  have hcurrent : pricing.stale = false := hf.current
  rcases h with ⟨row, changed, -, -, hfollow⟩ | rfl
  · unfold Pricing.follow at hfollow
    split at hfollow
    next hrule =>
      cases hfollow
      exact absurd (hrule.symm.trans hf.rule) (by simp)
    next hrule =>
      cases hfollow
      exact absurd (hrule.symm.trans hf.rule) (by simp)
    next hrule =>
      -- costs that were stale stay so, and the others are adapted
      split at hfollow
      next hstale =>
        cases hfollow
        rw [hcurrent] at hstale
        cases hstale
      next hstale =>
        obtain ⟨_, _, hfollow⟩ := Checked.bind_eq_ok.mp hfollow
        obtain ⟨ownCost, _, hfollow⟩ := Checked.bind_eq_ok.mp hfollow
        obtain ⟨cost, _, hfollow⟩ := Checked.bind_eq_ok.mp hfollow
        cases hfollow
        obtain ⟨ss, hlen, hss⟩ := ht hrule (by simpa using hstale)
        refine Pricing.eq_map_cost_of_not_outdated ?_ (fun c hc s heq => ?_) hcurrent
        · rw [List.length_set, hss, List.length_map, hlen]
        · -- each cost, the new one included, is that of some standing
          obtain ⟨s', rfl⟩ : ∃ s' : Standing, c = s'.cost := by
            rcases List.mem_or_eq_of_mem_set hc with hold | hnew
            · rw [hss] at hold
              obtain ⟨s', -, rfl⟩ := List.mem_map.mp hold
              exact ⟨s', rfl⟩
            · exact ⟨.between, hnew⟩
          exact hcosts s' s heq
  · cases hcurrent

/-- Costs that are priced anew for the statuses of a step stay current. -/
theorem Reprices.current (hcosts : Standing.CostsApart α) (h : Reprices solved σ t u)
    (hb : t.hasBasis = true) (ht : t.Current) : u.Current := by
  obtain ⟨w, j, i, pricing, -, hp, hlen, hr, hs⟩ := h
  refine hs.sameCosts.current (hr.current hcosts ?_)
  rw [hp]
  intro hrule hstale
  exact ⟨t.standings, hlen.symm, ht ⟨hb, hrule, hstale⟩⟩

/-- The end of a setup prices everything anew. -/
theorem Current.finish (ht : t.Shaped solved σ) (hc : t.Current) (h : t.finish = .ok u) :
    u.Current := by
  obtain ⟨-, inverse, hs⟩ := finish_spec ht h
  have hended : SameCosts t { t with plan := .none, inverse } := ⟨rfl, rfl, rfl⟩
  exact (hended.trans hs.sameCosts).current hc

/-- A pivot keeps the costs current. -/
theorem Current.performPivot (hcosts : Standing.CostsApart α) (ht : t.Shaped solved σ)
    (hc : t.Current) (h : t.performPivot = .ok u) : u.Current := by
  have hb : t.hasBasis = true := by
    obtain ⟨_, hb, _⟩ := Checked.bind_eq_ok.mp h
    exact Checked.require_eq_ok.mp hb
  obtain ⟨w, hw, h⟩ := performPivot_cases ht h
  rcases hw with hw | hw
  · exact (hw.current hc).finish (hw.shaped ht) h
  · exact (hw.current hcosts hb hc).finish hw.shaped h

/-- So does an exchange without a move. -/
theorem Current.performDegenerate (hcosts : Standing.CostsApart α) (ht : t.Shaped solved σ)
    (hc : t.Current) (h : t.performDegenerate = .ok u) : u.Current := by
  have hb : t.hasBasis = true := by
    obtain ⟨_, hb, _⟩ := Checked.bind_eq_ok.mp h
    exact Checked.require_eq_ok.mp hb
  obtain ⟨w, hw, h⟩ := performDegenerate_cases ht h
  exact (hw.current hcosts hb hc).finish hw.shaped h

/-! ## §3.  Bounds and merges -/

/-- Writing a lower bound leaves the costs alone: the statuses are not looked at again. -/
theorem setLower_sameCosts {v : Nat} {x : α} (h : t.setLower v x = .ok u) : SameCosts t u := by
  obtain ⟨bounds, -, hu⟩ := setLower_spec h
  have hbounds : SameCosts t { t with bounds } := ⟨rfl, rfl, rfl⟩
  exact hbounds.trans hu.sameCosts

/-- Writing an upper bound leaves them alone as well. -/
theorem setUpper_sameCosts {v : Nat} {x : α} (h : t.setUpper v x = .ok u) : SameCosts t u := by
  obtain ⟨bounds, -, hu⟩ := setUpper_spec h
  have hbounds : SameCosts t { t with bounds } := ⟨rfl, rfl, rfl⟩
  exact hbounds.trans hu.sameCosts

/-- Tightening looks whether the standing of a basic variable changes, unlike setting. -/
theorem Current.tightenLower (ht : t.Shaped solved σ) (hc : t.Current) {v : Nat} {x : α}
    (h : t.tightenLower v x = .ok u) : u.Current := by
  obtain ⟨w, hw, h⟩ := Checked.bind_eq_ok.mp h
  have hshape := ((silent_remark t _).shaped ht).setLower hw
  have hw : w.Current :=
    ((silent_remark t _).sameCosts.trans (setLower_sameCosts hw)).current hc
  exact (enforce_revalues hshape.state h).current hw

/-- Tightening an upper bound keeps the costs current. -/
theorem Current.tightenUpper (ht : t.Shaped solved σ) (hc : t.Current) {v : Nat} {x : α}
    (h : t.tightenUpper v x = .ok u) : u.Current := by
  obtain ⟨w, hw, h⟩ := Checked.bind_eq_ok.mp h
  have hshape := ((silent_remark t _).shaped ht).setUpper hw
  have hw : w.Current :=
    ((silent_remark t _).sameCosts.trans (setUpper_sameCosts hw)).current hc
  exact (enforce_revalues hshape.state h).current hw

/-- So does giving two variables the stricter one of their bounds. -/
theorem Current.intersectBounds (ht : t.Shaped solved σ) (hc : t.Current) {source target : Nat}
    (h : t.intersectBounds source target = .ok u) : u.Current := by
  obtain ⟨l, l', x, x', w, -, -, hw, -, -, h⟩ := intersectBounds_halves h
  have hraised : w.Shaped solved σ ∧ w.Current := by
    split at hw
    · exact ⟨ht.tightenLower hw, hc.tightenLower ht hw⟩
    · cases hw
      exact ⟨ht, hc⟩
  split at h
  · exact hraised.2.tightenUpper hraised.1 h
  · cases h
    exact hraised.2

/-- Folding columns leaves the costs alone. -/
theorem fold_sameCosts {source target : Nat} (h : t.fold source target = .ok u) :
    SameCosts t u := by
  obtain ⟨matrix, _, h⟩ := Checked.bind_eq_ok.mp h
  obtain ⟨merges, _, h⟩ := Checked.bind_eq_ok.mp h
  obtain ⟨i, _, h⟩ := Checked.bind_eq_ok.mp h
  obtain ⟨x, _, h⟩ := Checked.bind_eq_ok.mp h
  obtain ⟨w, hw, h⟩ := Checked.bind_eq_ok.mp h
  have hfolded : SameCosts t { t with matrix, merges } := ⟨rfl, rfl, rfl⟩
  exact hfolded.trans ((setLower_sameCosts hw).trans (setUpper_sameCosts h))

/-- Computing the basic values marks the costs as stale. -/
theorem stale_of_computeValues (ht : t.Shaped solved σ) (h : t.computeValues = .ok u) :
    u.pricing.stale = true := by
  obtain ⟨w, -, rfl⟩ := computeValues_moves ht.state ht.inverse h
  rfl

/-- A merge computes the values afresh; one that fails has tightened bounds at most. -/
theorem Current.merge (ht : t.Shaped solved σ) (hc : t.Current) {source target : Nat}
    {r : Except Failure Unit} (h : t.merge source target = .ok (r, u)) : u.Current := by
  obtain ⟨-, -, ⟨_, -, -, rfl⟩ | ⟨-, w, v, r', x, hw, hv, hx, hend⟩⟩ := merge_cases h
  · exact hc
  have hsilent := silent_remark t (.merging source target)
  have hwshape := (hsilent.shaped ht).intersectBounds hw
  have hw : w.Current := (hsilent.sameCosts.current hc).intersectBounds (hsilent.shaped ht) hw
  rcases hend with ⟨_, -, -, rfl⟩ | ⟨-, -, hy⟩
  · exact (((fold_sameCosts hv).trans (silent_count v _).sameCosts).trans
      (refactor_sameCosts hx)).current hw
  · have hx := (((silent_count v _).shaped (hwshape.fold hv)).refactor hx).1
    exact current_of_stale (stale_of_computeValues hx hy)

/-! ## §4.  Starting, growing and returning -/

/-- **Completing the setup.**  Success computes the costs.  Failure leaves the basis that there was
    before, if any, and its costs, though the standings start over. -/
theorem start_cases {r : Except Failure Unit} (h : t.start = .ok (r, u)) :
    (r = .ok () ∧ u.Current)
      ∨ ((∃ cause, r = .error cause) ∧ u.pricing = t.pricing ∧ u.hasBasis = t.hasBasis) := by
  unfold Tableau.start at h
  dsimp only at h
  split at h
  · cases h
    exact .inr ⟨⟨_, rfl⟩, rfl, rfl⟩
  · obtain ⟨split, _, h⟩ := Checked.bind_eq_ok.mp h
    obtain ⟨_, _, h⟩ := Checked.bind_eq_ok.mp h
    obtain ⟨ys, _, h⟩ := Checked.bind_eq_ok.mp h
    obtain ⟨⟨r', w⟩, hw, h⟩ := Checked.bind_eq_ok.mp h
    cases r' with
    | error cause =>
      -- Past the refresh the costs are computed; before it nothing about them has changed.
      cases h
      have hsame := refactor_sameCosts hw
      exact .inr ⟨⟨cause, rfl⟩, hsame.pricing, hsame.hasBasis⟩
    | ok _ =>
      obtain ⟨v, _, h⟩ := Checked.bind_eq_ok.mp h
      obtain ⟨v', hv', h⟩ := Checked.bind_eq_ok.mp h
      obtain ⟨_, _, h⟩ := Checked.bind_eq_ok.mp h
      cases h
      exact .inl ⟨rfl, current_of_computePrices hv'⟩

/-- Starting from another basis gives up the present one first. -/
theorem Current.startFrom (hc : t.Current) {vs : List Nat} {r : Except Failure Unit}
    (h : t.startFrom vs = .ok (r, u)) : u.Current := by
  unfold Tableau.startFrom at h
  split at h
  · cases h
    exact hc
  · split at h
    · cases h
      exact hc
    · obtain ⟨w, hw, h⟩ := Checked.bind_eq_ok.mp h
      -- Laying out the basis clears the mark first and does not set it again.
      have hunset : w.hasBasis = false := by
        refine Checked.foldlM_inv (P := fun s : Tableau α => s.hasBasis = false)
          (fun p _ s s' hs hs' => ?_) rfl hw
        obtain ⟨s₁, hs₁, hs'⟩ := Checked.bind_eq_ok.mp hs'
        obtain ⟨_, _, hs₁⟩ := Checked.bind_eq_ok.mp hs₁
        obtain ⟨_, _, hs₁⟩ := Checked.bind_eq_ok.mp hs₁
        cases hs₁
        obtain ⟨_, _, hs'⟩ := Checked.bind_eq_ok.mp hs'
        obtain ⟨_, _, hs'⟩ := Checked.bind_eq_ok.mp hs'
        cases hs'
        exact hs
      rcases start_cases h with ⟨-, hu⟩ | ⟨-, -, hu⟩
      · exact hu
      · exact current_of_unset (hu.trans hunset)

/-- A new equation lets the costs go stale before anything can fail. -/
theorem Current.addEquation (hc : t.Current) {e : LinearEquation α} {r : Except Failure Nat}
    (h : t.addEquation e = .ok (r, u)) : u.Current := by
  obtain ⟨_, _, h⟩ := Checked.bind_eq_ok.mp h
  split at h
  · cases h
    exact hc
  · obtain ⟨⟨lower, upper⟩, _, h⟩ := Checked.bind_eq_ok.mp h
    obtain ⟨x, _, h⟩ := Checked.bind_eq_ok.mp h
    obtain ⟨⟨aux, w⟩, _, h⟩ := Checked.bind_eq_ok.mp h
    obtain ⟨⟨r', v⟩, hv, h⟩ := Checked.bind_eq_ok.mp h
    -- Both ways out, failed refresh or not, come after the costs were marked as stale.
    have htold := ((((silent_count w.clearPlan.invalidatePrices .addedRows).trans
      (silent_tellSize _)).trans (silent_tellLower _ aux lower)).trans
      (silent_tellUpper _ aux upper)).trans (silent_tellValue _ aux x)
    have hstale : v.pricing.stale = true := by
      rw [(htold.sameCosts.trans (refactor_sameCosts hv)).pricing]
      rfl
    cases r' with
    | error cause =>
      cases h
      exact current_of_stale hstale
    | ok _ =>
      cases h
      exact current_of_stale hstale

/-- A return to a snapshot drops the costs, or was refused. -/
theorem restore_cases {s : State α} {r : Except Failure Unit} (h : t.restore s = .ok (r, u)) :
    u.pricing.stale = true ∨ Silent t u := by
  rw [restore_eq_refresh] at h
  obtain ⟨columns, _, h⟩ := Checked.bind_eq_ok.mp h
  split at h
  · cases h
    exact .inr (silent_remark t _)
  next inverse hf =>
    obtain ⟨_, _, h⟩ := Checked.bind_eq_ok.mp h
    cases h
    refine .inl ?_
    rw [(silent_tellSize _).sameCosts.pricing]
    rfl

/-! ## §5.  One operation -/

/-- The operation records standings and does nothing else that the costs depend on. -/
def Restands (op : Operation α) (reply : Reply α) : Prop :=
  match op with
  | .classifyAll | .classify _ | .classifyAt _ => True
  | .start => ∃ cause, reply = .failed cause
  | _ => False

/-- Steps that would be noticed: while the costs claim to be current, no operation that only records
    standings finds another cost than before. -/
def notices : StepKind α := fun t op reply u =>
  Restands op reply → t.Fresh →
    u.standings.map (Standing.cost : Standing → α) = t.standings.map Standing.cost

/-- The operations that look at statuses again leave the costs as they were. -/
theorem restands_pricing (ht : t.Shaped solved σ) {op : Operation α} {reply : Reply α}
    (hr : Restands op reply) (h : t.perform op = .ok (reply, u)) :
    u.pricing = t.pricing ∧ u.hasBasis = t.hasBasis := by
  have moved (hu : Moves t u) : u.pricing = t.pricing ∧ u.hasBasis = t.hasBasis :=
    ⟨hu.pricing, hu.hasBasis⟩
  cases op with
  | classifyAll => exact moved (classifyAll_moves ht.state (of_replyDone h))
  | classify v => exact moved (classify_moves (of_replyDone h))
  | classifyAt i => exact moved (classifyAt_moves (of_replyDone h))
  | start =>
    obtain ⟨cause, hr⟩ := hr
    obtain ⟨r, h, hreply⟩ := of_replyAttempt h
    rcases start_cases h with ⟨rfl, -⟩ | ⟨-, hu⟩
    · rcases hreply with ⟨_, -, hdone⟩ | ⟨_, herror, -⟩
      · rw [hdone] at hr
        cases hr
      · cases herror
    · exact hu
  | _ => exact hr.elim

/-- **The operations that spare the costs** leave them and the standings alone. -/
theorem perform_sameCosts {op : Operation α} {reply : Reply α} (h : t.perform op = .ok (reply, u))
    (hop : op.SparesCosts) : SameCosts t u := by
  cases op with
  | setCoefficients xs =>
    obtain ⟨matrix, _, h⟩ := Checked.bind_eq_ok.mp (of_replyDone h)
    cases h
    exact ⟨rfl, rfl, rfl⟩
  | setCoefficient i j x =>
    obtain ⟨matrix, _, h⟩ := Checked.bind_eq_ok.mp (of_replyDone h)
    cases h
    exact ⟨rfl, rfl, rfl⟩
  | setRightHandSide xs =>
    obtain ⟨_, _, h⟩ := Checked.bind_eq_ok.mp (of_replyDone h)
    cases h
    exact ⟨rfl, rfl, rfl⟩
  | setRightHandSideAt i x =>
    obtain ⟨xs, _, h⟩ := Checked.bind_eq_ok.mp (of_replyDone h)
    cases h
    exact ⟨rfl, rfl, rfl⟩
  | setLower v x => exact setLower_sameCosts (of_replyDone h)
  | setUpper v x => exact setUpper_sameCosts (of_replyDone h)
  | checkBounds v =>
    obtain ⟨⟨valid, w⟩, hw, h⟩ := Checked.bind_eq_ok.mp h
    obtain ⟨⟨b, bounds⟩, _, hw⟩ := Checked.bind_eq_ok.mp hw
    cases hw
    cases h
    exact ⟨rfl, rfl, rfl⟩
  | checkAllBounds =>
    obtain ⟨⟨valid, w⟩, hw, h⟩ := Checked.bind_eq_ok.mp h
    obtain ⟨⟨b, bounds⟩, _, hw⟩ := Checked.bind_eq_ok.mp hw
    cases hw
    cases h
    exact ⟨rfl, rfl, rfl⟩
  | markBasic v =>
    obtain ⟨_, hb, h⟩ := Checked.bind_eq_ok.mp (of_replyDone h)
    obtain ⟨split, _, h⟩ := Checked.bind_eq_ok.mp h
    cases h
    exact ⟨rfl, rfl, rfl⟩
  | assignRow v i =>
    obtain ⟨_, hb, h⟩ := Checked.bind_eq_ok.mp (of_replyDone h)
    obtain ⟨split, _, h⟩ := Checked.bind_eq_ok.mp h
    cases h
    exact ⟨rfl, rfl, rfl⟩
  | refactor =>
    obtain ⟨r, h, -⟩ := of_replyAttempt h
    exact refactor_sameCosts h
  | setSettled settled =>
    cases of_replyDone h
    exact ⟨rfl, rfl, rfl⟩
  | computeMultipliers costs =>
    obtain ⟨_, _, h⟩ := Checked.bind_eq_ok.mp (of_replyDone h)
    obtain ⟨multipliers, _, h⟩ := Checked.bind_eq_ok.mp h
    cases h
    exact ⟨rfl, rfl, rfl⟩
  -- what prepares an exchange goes into the plan
  | chooseEntering rule =>
    obtain ⟨⟨found, next, w⟩, hw, h⟩ := Checked.bind_eq_ok.mp h
    cases h
    exact chooseEntering_sameCosts hw
  | selectEntering j =>
    obtain ⟨-, rfl⟩ := selectEntering_spec (of_replyDone h)
    exact ⟨rfl, rfl, rfl⟩
  | selectLeaving i =>
    obtain ⟨-, rfl⟩ := selectLeaving_spec (of_replyDone h)
    exact ⟨rfl, rfl, rfl⟩
  | setDistance x =>
    obtain ⟨_, _, h⟩ := Checked.bind_eq_ok.mp (of_replyDone h)
    cases h
    exact ⟨rfl, rfl, rfl⟩
  | setColumn column =>
    obtain ⟨_, _, h⟩ := Checked.bind_eq_ok.mp (of_replyDone h)
    cases h
    exact ⟨rfl, rfl, rfl⟩
  | computeColumn =>
    obtain ⟨j, _, h⟩ := Checked.bind_eq_ok.mp (of_replyDone h)
    obtain ⟨v, _, h⟩ := Checked.bind_eq_ok.mp h
    obtain ⟨a, _, h⟩ := Checked.bind_eq_ok.mp h
    obtain ⟨column, _, h⟩ := Checked.bind_eq_ok.mp h
    cases h
    exact ⟨rfl, rfl, rfl⟩
  | chooseLeaving => exact Concludes.sameCosts (chooseLeaving_concludes (of_replyDone h))
  | standardRatioTest => exact Concludes.sameCosts (standardRatioTest_concludes (of_replyDone h))
  | harrisRatioTest => exact Concludes.sameCosts (harrisRatioTest_concludes (of_replyDone h))
  | computeRow =>
    obtain ⟨i, row, -, -, rfl⟩ := computeRow_spec (of_replyDone h)
    exact ⟨rfl, rfl, rfl⟩
  | save =>
    obtain ⟨⟨s, w⟩, hw, h⟩ := Checked.bind_eq_ok.mp h
    cases h
    exact (save_spec hw).2.sameCosts
  | _ => exact hop.elim

/-- **Every other operation** leaves costs current that were. -/
theorem current_of_not_restands (hcosts : Standing.CostsApart α) (ht : t.Shaped solved σ)
    (hc : t.Current) {op : Operation α} {reply : Reply α} (hr : ¬Restands op reply)
    (h : t.perform op = .ok (reply, u)) : u.Current := by
  cases op with
  | setSize m n =>
    obtain ⟨_, _, h⟩ := Checked.bind_eq_ok.mp (of_replyDone h)
    obtain ⟨_, _, h⟩ := Checked.bind_eq_ok.mp h
    cases h
    exact current_of_unset rfl
  | tightenLower v x => exact hc.tightenLower ht (of_replyDone h)
  | tightenUpper v x => exact hc.tightenUpper ht (of_replyDone h)
  | startFrom vs =>
    obtain ⟨r, h, -⟩ := of_replyAttempt h
    exact hc.startFrom h
  | start =>
    -- a start that fails only records standings
    obtain ⟨r, h, hreply⟩ := of_replyAttempt h
    rcases start_cases h with ⟨-, hu⟩ | ⟨⟨cause, rfl⟩, -⟩
    · exact hu
    · rcases hreply with ⟨_, hok, -⟩ | ⟨c, -, hfailed⟩
      · cases hok
      · exact absurd ⟨c, hfailed⟩ hr
  | addEquation e =>
    obtain ⟨r, h, -⟩ := of_replyAttempt h
    exact hc.addEquation h
  | merge source target =>
    obtain ⟨r, h, -⟩ := of_replyAttempt h
    exact hc.merge ht h
  | computeValues => exact current_of_stale (stale_of_computeValues ht (of_replyDone h))
  | classifyAll => exact absurd trivial hr
  | classify v => exact absurd trivial hr
  | classifyAt i => exact absurd trivial hr
  | moveNonBasic v x follow =>
    obtain ⟨w, -, rfl⟩ := moveNonBasic_moves ht.state (of_replyDone h)
    exact current_of_stale rfl
  | computePrices => exact current_of_computePrices (of_replyDone h)
  | usePricing rule =>
    cases of_replyDone h
    exact current_of_stale rfl
  | performPivot => exact hc.performPivot hcosts ht (of_replyDone h)
  | performDegenerate => exact hc.performDegenerate hcosts ht (of_replyDone h)
  | restore s =>
    obtain ⟨r, h, -⟩ := of_replyAttempt h
    rcases restore_cases h with hu | hu
    · exact current_of_stale hu
    · exact hu.sameCosts.current hc
  | _ => exact (perform_sameCosts h trivial).current hc

/-- Both kinds of steps together. -/
theorem Current.perform (hcosts : Standing.CostsApart α) (ht : t.Shaped solved σ) (hc : t.Current)
    {op : Operation α} {reply : Reply α} (hn : notices t op reply u)
    (h : t.perform op = .ok (reply, u)) : u.Current := by
  by_cases hr : Restands op reply
  · obtain ⟨hpricing, hbasis⟩ := restands_pricing ht hr h
    intro hf
    have hft : t.Fresh := ⟨hbasis ▸ hf.hasBasis, hpricing ▸ hf.rule, hpricing ▸ hf.current⟩
    rw [hpricing, hn hr hft]
    exact hc hft
  · exact current_of_not_restands hcosts ht hc hr h

/-! ## §6.  Whole runs -/

/-- A run in which nothing goes unnoticed. -/
theorem Operated.current (hcosts : Standing.CostsApart α) (h : Operated notices t) : t.Current := by
  generalize hk : (notices : StepKind α) = kind at h
  induction h with
  | created settings => exact current_of_unset rfl
  | createdExplicit settings => exact current_of_unset rfl
  | performed before _ allowed done ih =>
    subst hk
    obtain ⟨σ, hshape⟩ := before.shaped
    exact (ih rfl).perform hcosts hshape allowed done
  | restored before _ _ allowed done ih =>
    subst hk
    obtain ⟨σ, hshape⟩ := before.shaped
    exact (ih rfl).perform hcosts hshape allowed done
  | @attended kind t _ watchers statistics journal ih =>
    have haside : SameCosts t { t with watchers, statistics, journal } := ⟨rfl, rfl, rfl⟩
    exact haside.current (ih hk)

/-- A tableau with current costs is in shape, also after an attempt to return to whatever state. -/
theorem Shaped.perform_fresh (ht : t.Shaped False σ) {op : Operation α} {reply : Reply α}
    (h : t.perform op = .ok (reply, u)) (hf : u.Fresh) : u.Shaped False σ := by
  by_cases hr : ∃ s, op = .restore s
  · obtain ⟨s, rfl⟩ := hr
    obtain ⟨r, h, -⟩ := of_replyAttempt h
    rcases restore_cases h with hu | hu
    · rw [hf.current] at hu
      cases hu
    · exact hu.shaped ht
  · exact (ht.perform (fun s hs => absurd ⟨s, hs⟩ hr) h).1

/-- A fresh tableau with current costs has costs that fit its recorded statuses. -/
theorem Fresh.costsFit (hf : t.Fresh) (hc : t.Current) (ht : t.Shaped solved σ) : t.CostsFit :=
  ⟨hc hf, ht.costs hf.current⟩

/-- **Current costs fit** as long as every operation that only records standings finds the
    costs that they had, and the first one that finds others leaves costs that claim to be
    current and do not fit. -/
theorem costsFit_of_notices (hcosts : Standing.CostsApart α) (h : Operated notices t) :
    (t.Fresh → t.CostsFit)
      ∧ ∀ op reply u, t.perform op = .ok (reply, u) → u.Fresh →
        (u.CostsFit ↔ notices t op reply u) := by
  obtain ⟨σ, hshape⟩ := h.shaped
  have hcurrent : t.Current := h.current hcosts
  refine ⟨fun hf => hf.costsFit hcurrent hshape, fun op reply u hdone hf => ⟨?_, fun hn => ?_⟩⟩
  · intro hfit hr hft
    obtain ⟨hpricing, -⟩ := restands_pricing hshape hr hdone
    rw [← hfit.basicCosts, hpricing]
    exact hcurrent hft
  · exact hf.costsFit (hcurrent.perform hcosts hshape hn hdone) (hshape.perform_fresh hdone hf)

/-- Binary numbers tell the costs of the three statuses apart. -/
theorem costsApart_float : Standing.CostsApart Float := by
  intro s s'
  cases s <;> cases s' <;> decide +kernel

/-- A pivot whose costs follow it, a bound that is set below the value of a basic variable, and
    standings that are recorded then. -/
theorem costs_around_recorded_standings : ∃ t u : Tableau Float, Operated notices t ∧ t.Fresh
    ∧ t.CostsFit ∧ t.split.basic = [some 0] ∧ t.perform .classifyAll = .ok (.done, u) ∧ u.Fresh
    ∧ u.standings = [.aboveUpper] ∧ u.pricing.basicCosts = [0] ∧ ¬u.CostsFit := by
  have hrun : (do
      let t ← (create (α := Float) {}).run [.setSize 1 2, .setCoefficients [1, 1],
        .setRightHandSide [10], .setLower 0 0, .setUpper 0 10, .setLower 1 0, .setUpper 1 20,
        .startFrom [1], .tightenUpper 1 5, .computePrices, .chooseEntering .first, .computeColumn,
        .chooseLeaving, .computeRow, .performPivot, .setUpper 0 3]
      let u ← t.classifyAll
      Checked.require (t.hasBasis = true ∧ t.pricing.records = false ∧ t.pricing.stale = false
        ∧ t.split.basic = [some 0] ∧ t.standings = [Standing.between]
        ∧ u.standings = [Standing.aboveUpper] ∧ u.pricing.basicCosts = [0]) .inconsistent)
            = .ok () := by
    decide +kernel
  obtain ⟨t, ht, hrun⟩ := Checked.bind_eq_ok.mp hrun
  obtain ⟨u, hu, hrun⟩ := Checked.bind_eq_ok.mp hrun
  obtain ⟨hbasis, hrule, hcurrent, hbasic, hbefore, hafter, hcosts⟩ := Checked.require_eq_ok.mp hrun
  have hrunning : Operated notices t := by
    refine (Operated.created _).run (fun op hop => ⟨fun s hs => ?_, fun _ _ _ hr => ?_⟩) ht
    · subst hs
      simp at hop
    · -- none of these operations only records standings
      simp only [List.mem_cons, List.not_mem_nil, or_false] at hop
      rcases hop with rfl | rfl | rfl | rfl | rfl | rfl | rfl | rfl | rfl | rfl | rfl
        | rfl | rfl | rfl
        | rfl | rfl <;> exact hr.elim
  have hfresh : t.Fresh := ⟨hbasis, Pricing.rule_of_records hrule, hcurrent⟩
  have hdone : t.perform .classifyAll = .ok (.done, u) := by
    rw [perform, hu]
    rfl
  obtain ⟨σ, hshape⟩ := hrunning.shaped
  have hrestands : Restands (.classifyAll : Operation Float) .done := trivial
  obtain ⟨hpricing, hbasis'⟩ := restands_pricing hshape hrestands hdone
  have hfresh' : u.Fresh :=
    ⟨hbasis'.trans hfresh.hasBasis, hpricing ▸ hfresh.rule, hpricing ▸ hfresh.current⟩
  obtain ⟨hfits, hnext⟩ := costsFit_of_notices costsApart_float hrunning
  refine ⟨t, u, hrunning, hfresh, hfits hfresh, hbasic, hdone, hfresh', hafter, hcosts,
    fun hfit => ?_⟩
  have hsame := (hnext _ _ _ hdone hfresh').mp hfit hrestands hfresh
  rw [hafter, hbefore] at hsame
  exact absurd hsame (by decide +kernel)

end Tableau

end BoundedSimplex
