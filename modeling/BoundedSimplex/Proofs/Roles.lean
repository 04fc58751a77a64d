/-
  BoundedSimplex.Proofs.Roles — exchanges that move nothing.

  A degenerate pivot exchanges two variables in the split and their values in the two lists of
  values.  A value is read by the place of its variable, so every variable keeps its value, and a
  second exchange of the same two places undoes the first one, in any arithmetic.

  Main results:
    * `WellFormed.swapped_swapped` — two exchanges of the same places;
    * `rolesExchanged_of_state` — what every variable keeps;
    * `performDegenerate_state` — the state after a degenerate pivot;
    * `Shaped.exchanges` — the selections that it needs;
    * `performDegenerate_moves_roles` — a degenerate pivot, and a second one that undoes it.
-/
import BoundedSimplex.Proofs.Basis.Exchange
import BoundedSimplex.Proofs.Overrides

namespace BoundedSimplex

/-! ## §1.  Two exchanges of the same places -/

/-- Another entry is not read. -/
theorem Checked.getAt_set_of_ne {β : Type} (xs : List β) {i k : Nat} (h : k ≠ i) (x : β) :
    getAt (xs.set i x) k = getAt xs k := by
  unfold getAt
  rw [List.getElem?_set_ne (Ne.symm h), List.length_set]

/-- The outcomes of a run over a list, by place. -/
theorem Checked.getElem?_of_mapM {β γ : Type} {f : β → Checked γ} {xs : List β} {ys : List γ}
    (h : xs.mapM f = .ok ys) {k : Nat} {x : β} (hx : xs[k]? = some x) :
    ∃ y, ys[k]? = some y ∧ f x = .ok y := by
  induction xs generalizing ys k with
  | nil => cases hx
  | cons a xs ih =>
    rw [List.mapM_cons] at h
    obtain ⟨y, hy, h⟩ := Checked.bind_eq_ok.mp h
    obtain ⟨ys, hys, h⟩ := Checked.bind_eq_ok.mp h
    cases h
    cases k with
    | zero =>
      cases hx
      exact ⟨y, rfl, hy⟩
    | succ k => exact ih hys hx

namespace BasisSplit.WellFormed

variable {m n j i : Nat} {s : BasisSplit}

/-- **Two exchanges of the same places** restore the split. -/
theorem swapped_swapped (h : s.WellFormed m n) (hj : j < n - m) (hi : i < m) :
    (s.swapped j i).swapped j i = s := by
  obtain ⟨-, -, hrow, hbasic⟩ := h.basic_at hi
  obtain ⟨-, -, hplace, hother⟩ := h.nonBasic_at hj
  exact swapped_again_of_fits (h.swap_eq hj hi) (fits_iff.mpr ⟨hbasic, hrow⟩)
    (fits_iff.mpr ⟨hother, hplace⟩)

end BasisSplit.WellFormed

variable {α : Type} [Scalar α]

/-! ## §2.  What every variable keeps -/

namespace State

variable {s u : State α} {j i : Nat} {x y l b τ : α}

/-- The variables at position `j` and of row `i` have exchanged their roles and nothing else.
    Standings are taken up to `τ`. -/
structure RolesExchanged (s u : State α) (τ : α) (j i : Nat) : Prop where
  matrix : u.matrix = s.matrix
  rightHandSide : u.rightHandSide = s.rightHandSide
  bounds : u.bounds = s.bounds
  merges : u.merges = s.merges
  settled : u.settled = s.settled
  storedValue : ∀ v, u.storedValue v = s.storedValue v
  value : ∀ v, u.value v = s.value v
  before : s.split.nonBasicAt j = .ok (s.split.nonBasicVar j)
    ∧ s.split.basicAt i = .ok (s.split.basicVar i)
  entered : u.split.isBasic (s.split.nonBasicVar j) = true
    ∧ u.split.positionOf (s.split.nonBasicVar j) = .ok i
    ∧ u.split.basicAt i = .ok (s.split.nonBasicVar j)
  left : u.split.isBasic (s.split.basicVar i) = false
    ∧ u.split.positionOf (s.split.basicVar i) = .ok j
    ∧ u.split.nonBasicAt j = .ok (s.split.basicVar i)
  others : ∀ v, v ≠ s.split.nonBasicVar j → v ≠ s.split.basicVar i →
    u.split.isBasic v = s.split.isBasic v ∧ u.split.positionOf v = s.split.positionOf v
  rows : ∀ k, k ≠ i → u.split.basicAt k = s.split.basicAt k
  slots : ∀ k, k ≠ j → u.split.nonBasicAt k = s.split.nonBasicAt k
  standings : ∀ k, k ≠ i → u.standings[k]? = s.standings[k]?
  standing : ∃ x l b, s.storedValue (s.split.nonBasicVar j) = .ok x
    ∧ s.bounds.lower (s.split.nonBasicVar j) = .ok l
    ∧ s.bounds.upper (s.split.nonBasicVar j) = .ok b
    ∧ u.standings[i]? = some (.classify x l b τ)

omit [Scalar α] in
/-- Variables that are not exchanged keep their places. -/
theorem positionOf_swapped (h : s.split.WellFormed s.rowCount s.varCount) (hj : j < s.nonBasicCount)
    (hi : i < s.rowCount) {v : Nat} (hvj : v ≠ s.split.nonBasicVar j)
    (hvi : v ≠ s.split.basicVar i) :
    (s.split.swapped j i).positionOf v = s.split.positionOf v := by
  have hplace : (s.split.swapped j i).placeOf v = s.split.placeOf v := by
    unfold BasisSplit.placeOf Checked.getAt
    rw [h.positions_swapped hj hi, if_neg hvi, if_neg hvj, (h.swap hj hi).places, h.places]
  unfold BasisSplit.positionOf
  rw [hplace]

omit [Scalar α] in
/-- **Values move along with the places** they are read from. -/
theorem storedValue_exchanged (h : s.split.WellFormed s.rowCount s.varCount)
    (hj : j < s.nonBasicCount) (hi : i < s.rowCount) (hx : s.nonBasicValues[j]? = some x)
    (hy : s.basicValues[i]? = some y) (hu : ∃ ss, u = { s with
      split := s.split.swapped j i, basicValues := s.basicValues.set i x
      nonBasicValues := s.nonBasicValues.set j y, standings := ss }) (v : Nat) :
    u.storedValue v = s.storedValue v := by
  obtain ⟨ss, rfl⟩ := hu
  have hswap := h.swap hj hi
  by_cases hvj : v = s.split.nonBasicVar j
  · rw [hvj, storedValue_nonBasicVar h hj hx]
    have hv : (s.split.swapped j i).basicVar i = s.split.nonBasicVar j := by
      rw [h.basicVar_swapped hi, if_pos rfl]
    rw [← hv]
    exact storedValue_basicVar hswap hi
      (List.getElem?_set_self (List.getElem?_eq_some_iff.mp hy).1)
  by_cases hvi : v = s.split.basicVar i
  · rw [hvi, storedValue_basicVar h hi hy]
    have hv : (s.split.swapped j i).nonBasicVar j = s.split.basicVar i := by
      rw [h.nonBasicVar_swapped hj, if_pos rfl]
    rw [← hv]
    exact storedValue_nonBasicVar hswap hj
      (List.getElem?_set_self (List.getElem?_eq_some_iff.mp hx).1)
  -- all others are read from the same places, none of which was written
  unfold storedValue
  dsimp only
  rw [positionOf_swapped h hj hi hvj hvi]
  cases hp : s.split.positionOf v with
  | error cause => rfl
  | ok p =>
    obtain ⟨hv, rfl⟩ := h.lt_of_positionOf hp
    rw [Checked.ok_bind, Checked.ok_bind, BasisSplit.WellFormed.isBasic_swapped,
      if_neg hvj, if_neg hvi]
    cases hb : s.split.isBasic v with
    | true =>
      obtain ⟨-, hvar⟩ := h.of_isBasic hv hb
      rw [if_pos rfl, if_pos rfl]
      exact Checked.getAt_set_of_ne _ (fun e => hvi (by rw [← hvar, e])) x
    | false =>
      obtain ⟨-, hvar⟩ := h.of_not_isBasic hv hb
      rw [if_neg Bool.false_ne_true, if_neg Bool.false_ne_true]
      exact Checked.getAt_set_of_ne _ (fun e => hvj (by rw [← hvar, e])) y

/-- **An exchange of places** is one of roles. -/
theorem rolesExchanged_of_state (h : s.split.WellFormed s.rowCount s.varCount)
    (hj : j < s.nonBasicCount) (hi : i < s.rowCount) (hx : s.nonBasicValues[j]? = some x)
    (hy : s.basicValues[i]? = some y) (hl : s.bounds.lower (s.split.nonBasicVar j) = .ok l)
    (hb : s.bounds.upper (s.split.nonBasicVar j) = .ok b) (hlen : s.standings.length = s.rowCount)
    (hu : u = { s with
      split := s.split.swapped j i, basicValues := s.basicValues.set i x
      nonBasicValues := s.nonBasicValues.set j y
      standings := s.standings.set i (.classify x l b τ) }) : RolesExchanged s u τ j i := by
  have hstored := storedValue_exchanged h hj hi hx hy ⟨_, hu⟩
  subst hu
  -- The exchanged split is again a split, so its own lemmas answer for both roles.
  have hswap := h.swap hj hi
  have hentered : (s.split.swapped j i).basicVar i = s.split.nonBasicVar j := by
    rw [h.basicVar_swapped hi, if_pos rfl]
  have hleft : (s.split.swapped j i).nonBasicVar j = s.split.basicVar i := by
    rw [h.nonBasicVar_swapped hj, if_pos rfl]
  refine ⟨rfl, rfl, rfl, rfl, rfl, hstored, fun v => ?_, ⟨h.nonBasicAt_eq hj, h.basicAt_eq hi⟩,
    ⟨?_, ?_, ?_⟩, ⟨?_, ?_, ?_⟩, fun v hvj hvi => ⟨?_, positionOf_swapped h hj hi hvj hvi⟩,
    fun k hk => ?_, fun k hk => ?_, fun k hk => List.getElem?_set_ne (Ne.symm hk),
    x, l, b, storedValue_nonBasicVar h hj hx, hl, hb, ?_⟩
  · unfold value
    rw [hstored]
    rfl
  · rw [← hentered]
    exact hswap.isBasic_basicVar hi
  · rw [← hentered]
    exact (hswap.positionOf_eq (hswap.basicVar_lt hi)).trans (congrArg _ (hswap.place_basicVar hi))
  · rw [← hentered]
    exact hswap.basicAt_eq hi
  · rw [← hleft]
    exact hswap.isBasic_nonBasicVar hj
  · rw [← hleft]
    exact (hswap.positionOf_eq (hswap.nonBasicVar_lt hj)).trans
      (congrArg _ (hswap.place_nonBasicVar hj))
  · rw [← hleft]
    exact hswap.nonBasicAt_eq hj
  · exact (BasisSplit.WellFormed.isBasic_swapped v).trans (by rw [if_neg hvj, if_neg hvi])
  · exact congrArg (· >>= Checked.assigned) (Checked.getAt_set_of_ne _ hk _)
  · exact Checked.getAt_set_of_ne _ hk _
  · exact List.getElem?_set_self (hlen ▸ hi)

omit [Scalar α] in
/-- What stands at the two places after they were exchanged. -/
theorem exchanged_places {ss : List Standing} (h : s.split.WellFormed s.rowCount s.varCount)
    (hj : j < s.nonBasicCount) (hx : s.nonBasicValues[j]? = some x)
    (hy : s.basicValues[i]? = some y) (hu : u = { s with
      split := s.split.swapped j i, basicValues := s.basicValues.set i x
      nonBasicValues := s.nonBasicValues.set j y, standings := ss }) :
    u.nonBasicValues[j]? = some y ∧ u.basicValues[i]? = some x
      ∧ u.split.nonBasicVar j = s.split.basicVar i := by
  subst hu
  exact ⟨List.getElem?_set_self (List.getElem?_eq_some_iff.mp hx).1,
    List.getElem?_set_self (List.getElem?_eq_some_iff.mp hy).1,
    (h.nonBasicVar_swapped hj j).trans (if_pos rfl)⟩

omit [Scalar α] in
/-- **Two exchanges of the same places** restore a state, given the standing of the row. -/
theorem exchanged_exchanged {r : State α} {standing other : Standing}
    (h : s.split.WellFormed s.rowCount s.varCount) (hj : j < s.nonBasicCount) (hi : i < s.rowCount)
    (hx : s.nonBasicValues[j]? = some x) (hy : s.basicValues[i]? = some y)
    (hs : s.standings[i]? = some standing)
    (hu : u = { s with
      split := s.split.swapped j i, basicValues := s.basicValues.set i x
      nonBasicValues := s.nonBasicValues.set j y, standings := s.standings.set i other })
    (hr : r = { u with
      split := u.split.swapped j i, basicValues := u.basicValues.set i y
      nonBasicValues := u.nonBasicValues.set j x, standings := u.standings.set i standing }) :
    r = s := by
  subst hu hr
  dsimp only
  rw [h.swapped_swapped hj hi, set_set_of_getElem? hx, set_set_of_getElem? hy,
    set_set_of_getElem? hs]

/-- The standing that a row has on record is that of its value, if all are. -/
theorem standing_of_allStandings (h : s.split.WellFormed s.rowCount s.varCount)
    (hi : i < s.rowCount) (hst : s.allStandings τ = .ok s.standings)
    (hy : s.basicValues[i]? = some y) (hl : s.bounds.lower (s.split.basicVar i) = .ok l)
    (hb : s.bounds.upper (s.split.basicVar i) = .ok b) :
    s.standings[i]? = some (.classify y l b τ) := by
  obtain ⟨standing, hs, hclass⟩ := Checked.getElem?_of_mapM hst (List.getElem?_range hi)
  rw [standingAt, h.basicAt_eq hi, Checked.ok_bind, Checked.getAt_eq_ok.mpr hy, Checked.ok_bind, hl,
    Checked.ok_bind, hb] at hclass
  cases hclass
  exact hs

end State

/-! ## §3.  Degenerate pivots -/

/-- There are as many basic costs after an exchange as before it, for the same rule. -/
theorem Pricing.basicCosts_of_follow {p q : Pricing α} {e : Exchange α} {changed : Bool}
    (h : p.follow e = .ok (q, changed)) :
    q.rule = p.rule ∧ q.basicCosts.length = p.basicCosts.length := by
  unfold Pricing.follow at h
  split at h
  · cases h
    exact ⟨rfl, rfl⟩
  · cases h
    exact ⟨rfl, rfl⟩
  · split at h
    · cases h
      exact ⟨rfl, rfl⟩
    · obtain ⟨_, -, h⟩ := Checked.bind_eq_ok.mp h
      obtain ⟨ownCost, -, h⟩ := Checked.bind_eq_ok.mp h
      obtain ⟨cost, -, h⟩ := Checked.bind_eq_ok.mp h
      cases h
      exact ⟨rfl, List.length_set⟩

/-- The plan exchanges the variable at position `j` of `k` and that of row `i` of `m`. -/
structure PivotPlan.Exchanges (m k : Nat) (p : PivotPlan α) (j i : Nat) : Prop where
  entering : p.entering = some j
  entering_lt : j < k
  leaving : p.leaving = some (.basic i)
  leaving_lt : i < m
  column : p.column.length = m
  pivot : ∃ x, p.column[i]? = some x ∧ ¬(x == 0) = true
  row : ∀ row, p.row = some row → row.basicIndex < m ∧ row.entries.length = k

/-- The plan of an exchange has the shape of the tableau. -/
theorem PivotPlan.Exchanges.shaped {m k j i : Nat} {p : PivotPlan α} (h : p.Exchanges m k j i) :
    p.Shaped m k where
  entering k hk := by
    obtain rfl := Option.some.inj (h.entering.symm.trans hk)
    exact h.entering_lt
  leaving k hk := by
    cases h.leaving.symm.trans hk
    exact h.leaving_lt
  column := .inr h.column

namespace Tableau

variable {t u : Tableau α} {solved : Prop} {σ : Settings α} {j i : Nat}

/-- The end of a pivot keeps the basis. -/
theorem finish_hasBasis (h : t.finish = .ok u) : u.hasBasis = t.hasBasis := by
  rcases refactorIfDue_reinverts h with ⟨_, _, rfl⟩ | ⟨_, -, -, _, _, rfl⟩
  · rfl
  · rfl

/-- **The state after a degenerate pivot**: two places are exchanged, and the standing of the row is
    that of the value that the entering variable has. -/
theorem performDegenerate_state (hs : t.split.WellFormed t.rowCount t.varCount)
    (hp : t.plan.Exchanges t.rowCount t.nonBasicCount j i) {x y : α}
    (hx : t.nonBasicValues[j]? = some x) (hy : t.basicValues[i]? = some y)
    (h : t.performDegenerate = .ok u) :
    u.hasBasis = t.hasBasis ∧ ∃ l b, t.bounds.lower (t.split.nonBasicVar j) = .ok l
      ∧ t.bounds.upper (t.split.nonBasicVar j) = .ok b
      ∧ u.toState = { t.toState with
        split := t.split.swapped j i
        basicValues := t.basicValues.set i x
        nonBasicValues := t.nonBasicValues.set j y
        standings := t.standings.set i (.classify x l b t.settings.boundTolerance) } := by
  obtain ⟨_, -, h⟩ := Checked.bind_eq_ok.mp h
  obtain ⟨j', hj, h⟩ := Checked.bind_eq_ok.mp h
  obtain ⟨i', hi, h⟩ := Checked.bind_eq_ok.mp h
  obtain ⟨standing, -, h⟩ := Checked.bind_eq_ok.mp h
  obtain ⟨_, -, h⟩ := Checked.bind_eq_ok.mp h
  obtain ⟨element, -, h⟩ := Checked.bind_eq_ok.mp h
  obtain ⟨x', hx', h⟩ := Checked.bind_eq_ok.mp h
  obtain ⟨y', hy', h⟩ := Checked.bind_eq_ok.mp h
  obtain ⟨⟨⟨q, p⟩, w⟩, hplaces, h⟩ := Checked.bind_eq_ok.mp h
  obtain ⟨w', hclass, h⟩ := Checked.bind_eq_ok.mp h
  obtain ⟨v, hfollow, h⟩ := Checked.bind_eq_ok.mp h
  have hend : u.toState = w'.toState := (finish_state h).trans (followExchange_frame hfollow).1
  have hbasis : u.hasBasis = w'.hasBasis :=
    (finish_hasBasis h).trans (followExchange_frame hfollow).2.2
  obtain rfl := Option.some.inj (hp.entering.symm.trans (enteringIndex_eq_ok.mp hj))
  obtain rfl : i = i' := by
    have := hp.leaving.symm.trans (leavingRow_eq_ok hi)
    simpa using this
  obtain rfl := Except.ok.inj ((Checked.getAt_eq_ok.mpr hx).symm.trans hx')
  obtain rfl := Except.ok.inj ((Checked.getAt_eq_ok.mpr hy).symm.trans hy')
  -- the two variables exchange their places
  obtain ⟨⟨names', split⟩, hswap, hplaces⟩ := Checked.bind_eq_ok.mp hplaces
  obtain ⟨xs, hbasic, hplaces⟩ := Checked.bind_eq_ok.mp hplaces
  obtain ⟨ys, hnon, hplaces⟩ := Checked.bind_eq_ok.mp hplaces
  obtain ⟨inverse, -, hplaces⟩ := Checked.bind_eq_ok.mp hplaces
  obtain ⟨hi', rfl⟩ := Checked.setAt_eq_ok.mp hbasic
  obtain ⟨-, rfl⟩ := Checked.setAt_eq_ok.mp hnon
  rw [hs.swap_eq hp.entering_lt hp.leaving_lt] at hswap
  cases hswap
  cases hplaces
  -- the row has another variable now, whose value is that of before
  obtain ⟨s, hstanding, hclass⟩ := Checked.bind_eq_ok.mp hclass
  obtain ⟨ss, hset, hclass⟩ := Checked.bind_eq_ok.mp hclass
  obtain ⟨-, rfl⟩ := Checked.setAt_eq_ok.mp hset
  cases hclass
  obtain ⟨v', hv', hstanding⟩ := Checked.bind_eq_ok.mp hstanding
  obtain ⟨z, hz, hstanding⟩ := Checked.bind_eq_ok.mp hstanding
  obtain ⟨l, hl, hstanding⟩ := Checked.bind_eq_ok.mp hstanding
  obtain ⟨b, hb, hstanding⟩ := Checked.bind_eq_ok.mp hstanding
  cases hstanding
  have hvar : v' = t.split.nonBasicVar j := by
    have hentered := (hs.swap hp.entering_lt hp.leaving_lt).basicAt_eq hp.leaving_lt
    rw [hs.basicVar_swapped hp.leaving_lt, if_pos rfl] at hentered
    exact Except.ok.inj (hv'.symm.trans hentered)
  subst hvar
  obtain rfl : x = z := by
    have hz := Checked.getAt_eq_ok.mp hz
    exact Option.some.inj ((List.getElem?_set_self hi').symm.trans hz)
  exact ⟨hbasis, l, b, hl, hb, hend⟩

/-- Costs that can be relied on are still of as many basic variables. -/
theorem Repriced.basicCosts {standings : List Standing} {pricing : Pricing α}
    (h : t.Repriced j i standings pricing) (hp : pricing.stale = false) :
    t.pricing.stale = false ∧ pricing.rule = t.pricing.rule
      ∧ pricing.basicCosts.length = t.pricing.basicCosts.length := by
  rcases h with ⟨row, changed, -, -, hf⟩ | rfl
  · exact ⟨Pricing.stale_of_follow hf hp, Pricing.basicCosts_of_follow hf⟩
  · cases hp

/-- What reprices the costs knows them. -/
theorem Reprices.knowsCosts (h : Reprices solved σ t u) (ht : t.Shaped solved σ)
    (hc : t.KnowsCosts) :
    u.KnowsCosts := by
  obtain ⟨w, j, i, pricing, hw, hpricing, hlen, hp, _, _, rfl⟩ := h
  -- there are as many rows as before, since there are as many standings
  have hrows : t.rowCount = w.rowCount :=
    ht.state.standings.symm.trans (hlen.symm.trans hw.state.standings)
  intro hrule hstale
  obtain ⟨hstale', hrule', hcosts⟩ := hp.basicCosts hstale
  rw [hpricing] at hstale' hrule' hcosts
  exact hcosts.trans ((hc (hrule'.symm.trans hrule) hstale').trans hrows)

/-- **The costs of the basic variables** are still known after a degenerate pivot. -/
theorem KnowsCosts.performDegenerate (ht : t.Shaped solved σ) (hc : t.KnowsCosts)
    (h : t.performDegenerate = .ok u) : u.KnowsCosts := by
  obtain ⟨w, hw, h⟩ := performDegenerate_cases ht h
  have hknown := hw.knowsCosts ht hc
  rcases refactorIfDue_reinverts h with ⟨_, _, rfl⟩ | ⟨_, -, -, _, _, rfl⟩
  · exact hknown
  · exact hknown

/-- What is selected for an exchange is all that a pivot needs. -/
theorem targeted_of_exchanges (hp : t.plan.Exchanges t.rowCount t.nonBasicCount j i) :
    t.Targeted where
  entering := ⟨j, hp.entering⟩
  leaving := ⟨_, hp.leaving⟩
  column := hp.column
  divides k hk := by
    rw [hp.leaving] at hk
    cases hk
    exact hp.pivot

/-- **The selections that are made by operations** fit, as soon as there is a pivot element. -/
theorem Shaped.exchanges (ht : t.Shaped solved σ) (hb : t.hasBasis = true)
    (hj : t.plan.entering = some j) (hi : t.plan.leaving = some (.basic i)) {x : α}
    (hx : t.pivotElement i = .ok x) :
    t.plan.Exchanges t.rowCount t.nonBasicCount j i where
  entering := hj
  entering_lt := ht.plan.entering j hj
  leaving := hi
  leaving_lt := ht.plan.leaving i hi
  column := by
    obtain ⟨_, hlen, -⟩ := Checked.bind_eq_ok.mp hx
    exact Checked.require_eq_ok.mp hlen
  pivot := ⟨x, entry_of_pivotElement hx⟩
  row := ht.row hb

/-- Two positions and a change column are selections and nothing else. -/
theorem plan_of_selections {a c w : Tableau α} (ha : t.selectEntering j = .ok a)
    (hc : a.computeColumn = .ok c) (hw : c.selectLeaving i = .ok w) :
    w = { t with plan := w.plan } ∧ w.plan.entering = some j
      ∧ w.plan.leaving = some (.basic i) := by
  obtain ⟨_, -, ha⟩ := Checked.bind_eq_ok.mp ha
  cases ha
  obtain ⟨_, -, hc⟩ := Checked.bind_eq_ok.mp hc
  obtain ⟨_, -, hc⟩ := Checked.bind_eq_ok.mp hc
  obtain ⟨_, -, hc⟩ := Checked.bind_eq_ok.mp hc
  obtain ⟨_, -, hc⟩ := Checked.bind_eq_ok.mp hc
  cases hc
  obtain ⟨_, -, hw⟩ := Checked.bind_eq_ok.mp hw
  cases hw
  exact ⟨rfl, rfl, rfl⟩

/-- A degenerate pivot for which everything is selected, and **the state after it**. -/
theorem exists_performDegenerate_state (ht : t.Shaped True σ) (hb : t.hasBasis = true)
    (hknown : t.KnowsCosts) (hp : t.plan.Exchanges t.rowCount t.nonBasicCount j i)
    (hin : ∀ s, t.standings[i]? = some s → s.isOutOfBounds = false) {x y : α}
    (hx : t.nonBasicValues[j]? = some x) (hy : t.basicValues[i]? = some y) :
    ∃ u l b, t.performDegenerate = .ok u ∧ u.Shaped True σ ∧ u.KnowsCosts ∧ u.hasBasis = true
      ∧ t.bounds.lower (t.split.nonBasicVar j) = .ok l
      ∧ t.bounds.upper (t.split.nonBasicVar j) = .ok b
      ∧ u.toState = { t.toState with
        split := t.split.swapped j i
        basicValues := t.basicValues.set i x
        nonBasicValues := t.nonBasicValues.set j y
        standings := t.standings.set i (.classify x l b σ.boundTolerance) } := by
  obtain ⟨u, hu⟩ :=
    exists_performDegenerate ht hb (ht.size trivial hb) hknown (targeted_of_exchanges hp)
    hp.leaving hin
  obtain ⟨hbasis, l, b, hl, hupper, hstate⟩ := performDegenerate_state (ht.split hb) hp hx hy hu
  rw [ht.settings] at hstate
  exact ⟨u, l, b, hu, ht.performDegenerate hu, hknown.performDegenerate ht hu,
    hbasis.trans hb, hl, hupper, hstate⟩

/-- **A degenerate pivot moves roles and not values.**  In any arithmetic, where everything fits and
    every recorded standing is the one that its value has, an exchange of the variables at position
    `j` and of row `i` without a move exchanges their places and nothing else, and another one of
    the same two places, with whatever change column, restores the state. -/
theorem performDegenerate_moves_roles (ht : t.Shaped True σ) (hb : t.hasBasis = true)
    (hknown : t.KnowsCosts) (hst : t.allStandings σ.boundTolerance = .ok t.standings)
    (hp : t.plan.Exchanges t.rowCount t.nonBasicCount j i)
    (hin : ∀ s, t.standings[i]? = some s → s.isOutOfBounds = false) :
    ∃ u, t.performDegenerate = .ok u
      ∧ State.RolesExchanged t.toState u.toState σ.boundTolerance j i
      ∧ ∀ plan w, Silent { u with plan } w → plan.Exchanges u.rowCount u.nonBasicCount j i →
        (∀ s, u.standings[i]? = some s → s.isOutOfBounds = false) →
        ∃ r, w.performDegenerate = .ok r ∧ r.toState = t.toState := by
  have hsplit := ht.split hb
  have hj := hp.entering_lt
  have hi := hp.leaving_lt
  obtain ⟨x, hx⟩ := ht.state.exists_nonBasicValue hj
  obtain ⟨y, hy⟩ := ht.state.exists_basicValue hi
  have hx := Checked.getAt_eq_ok.mp hx
  have hy := Checked.getAt_eq_ok.mp hy
  obtain ⟨u, l, b, hu, hshaped, hknown', hbasis, hl, hupper, hstate⟩ :=
    exists_performDegenerate_state ht hb hknown hp hin hx hy
  refine ⟨u, hu,
    State.rolesExchanged_of_state hsplit hj hi hx hy hl hupper ht.state.standings hstate,
    fun plan w hw hp' hin' => ?_⟩
  obtain ⟨hx', hy', hleft⟩ := State.exchanged_places hsplit hj hx hy hstate
  have hagain := hw.shaped (hshaped.replan hp'.shaped fun _ => hp'.row)
  obtain ⟨_, _, rfl⟩ := hw
  obtain ⟨r, l', b', hr, -, -, -, hl', hb', hback⟩ :=
    exists_performDegenerate_state hagain hbasis hknown' hp' hin' hx' hy'
  refine ⟨r, hr, ?_⟩
  -- the row gets back its variable and its value, and so its standing
  change u.bounds.lower (u.split.nonBasicVar j) = _ at hl'
  change u.bounds.upper (u.split.nonBasicVar j) = _ at hb'
  rw [hleft, hstate] at hl' hb'
  have hs := State.standing_of_allStandings hsplit hi hst hy hl' hb'
  exact State.exchanged_exchanged hsplit hj hi hx hy hs hstate hback

/-- In rounded arithmetic: a basic variable at its bound leaves and comes back, next to one that is
    out of bounds and one that was merged away. -/
theorem roles_exchanged_twice : ∃ t u w r : Tableau Float, t.performDegenerate = .ok u
    ∧ State.RolesExchanged t.toState u.toState t.settings.boundTolerance 0 1
    ∧ w.toState = u.toState ∧ w.performDegenerate = .ok r ∧ r.toState = t.toState
    ∧ t.split.basic = [some 3, some 4] ∧ u.split.basic = [some 3, some 0]
    ∧ t.merges.isMerged 2 = true ∧ t.existsOutOfBounds = true := by
  have hrun : (do
      let t ← (create (α := Float) {}).run [.setSize 2 5,
        .setCoefficients [1, 2, 1, 1, 0, 3, 1, -1, 0, 1], .setRightHandSide [10, 4],
        .setLower 0 0, .setUpper 0 4, .setLower 1 1, .setUpper 1 3, .setLower 2 1, .setUpper 2 5,
        .setLower 3 0, .setUpper 3 5, .setLower 4 0, .setUpper 4 4, .startFrom [3, 4], .merge 2 1,
        .selectEntering 0, .computeColumn, .selectLeaving 1]
      let _ ← t.pivotElement 1
      let ss ← t.allStandings t.settings.boundTolerance
      let u ← t.performDegenerate
      let a ← u.selectEntering 0
      let c ← a.computeColumn
      let w ← c.selectLeaving 1
      let _ ← w.pivotElement 1
      Checked.require (ss = t.standings ∧ t.hasBasis = true ∧ t.pricing.stale = true
        ∧ t.plan.entering = some 0 ∧ t.plan.leaving = some (Leaving.basic 1)
        ∧ u.hasBasis = true ∧ t.standings[1]? = some Standing.atUpper
        ∧ u.standings[1]? = some Standing.atLower
        ∧ t.split.basic = [some 3, some 4] ∧ u.split.basic = [some 3, some 0]
        ∧ t.merges.isMerged 2 = true ∧ t.existsOutOfBounds = true) .inconsistent) = .ok () := by
    decide +kernel
  obtain ⟨t, ht, hrun⟩ := Checked.bind_eq_ok.mp hrun
  obtain ⟨_, helement, hrun⟩ := Checked.bind_eq_ok.mp hrun
  obtain ⟨_, hstandings, hrun⟩ := Checked.bind_eq_ok.mp hrun
  obtain ⟨u, hu, hrun⟩ := Checked.bind_eq_ok.mp hrun
  obtain ⟨a, ha, hrun⟩ := Checked.bind_eq_ok.mp hrun
  obtain ⟨c, hc, hrun⟩ := Checked.bind_eq_ok.mp hrun
  obtain ⟨w, hw, hrun⟩ := Checked.bind_eq_ok.mp hrun
  obtain ⟨_, helement', hrun⟩ := Checked.bind_eq_ok.mp hrun
  obtain ⟨rfl, hb, hstale, hj, hi, hbasis, hin, hin', hbasic, hbasic', hmerged, hout⟩ :=
    Checked.require_eq_ok.mp hrun
  have hoperated : Operated keepsInverse t := (Operated.created _).runInStep (by simp) ht
  obtain ⟨σ, hshaped⟩ := hoperated.shaped_of_keeps
  rw [hshaped.settings] at hstandings
  have hknown : t.KnowsCosts := fun _ h => absurd (hstale.symm.trans h) (by decide)
  obtain ⟨u', hu', hroles, hback⟩ := performDegenerate_moves_roles hshaped hb hknown hstandings
    (hshaped.exchanges hb hj hi helement) (fun s hs => by cases hin.symm.trans hs; rfl)
  obtain rfl := Except.ok.inj (hu.symm.trans hu')
  -- the same places are selected anew
  have hagain :=
    (((hshaped.performDegenerate hu).selectEntering ha).computeColumn hc).selectLeaving hw
  obtain ⟨hplan, hj', hi'⟩ := plan_of_selections ha hc hw
  have hstate : w.toState = u.toState := by rw [hplan]
  have hbasis' : w.hasBasis = true := by rw [hplan, hbasis]
  have hexchanges := hagain.exchanges hbasis' hj' hi' helement'
  unfold State.nonBasicCount State.varCount State.rowCount at hexchanges
  rw [hstate] at hexchanges
  obtain ⟨r, hr, hsame⟩ := hback w.plan w (by rw [← hplan]; exact .refl w) hexchanges
    (fun s hs => by cases hin'.symm.trans hs; rfl)
  exact ⟨t, u, w, r, hu, hshaped.settings ▸ hroles, hstate, hr, hsame, hbasic, hbasic',
    hmerged, hout⟩

end Tableau

end BoundedSimplex
