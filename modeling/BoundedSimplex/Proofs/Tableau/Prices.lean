/-
  BoundedSimplex.Proofs.Tableau.Prices — what the reduced costs are.

  Costs that belong to given costs of the basic variables come with multipliers of the rows: under
  the multipliers every basic column has its cost, and every other column the negative of its
  reduced cost.  A computation of the costs finds such multipliers by solving with the basis.  An
  exchange adds a multiple of the row of the inverse that belongs to the leaving variable, and that
  is what following an exchange does to the costs.

  Main results:
    * `Pricing.compute_spec` — computed costs have multipliers;
    * `Priced.exchange` — the row operation on the costs gives the costs of the new basis;
    * `Repriced.prices` — costs that are not stale after an exchange belong to the new standings.
-/
import BoundedSimplex.PhaseOne
import BoundedSimplex.Proofs.Tableau.Pivot
import BoundedSimplex.Proofs.Tableau.Selection

namespace BoundedSimplex

open Extended

variable {K : Type} [Field K] [LinearOrder K]

/-! ## §1.  Multipliers of the rows -/

namespace State

variable {s : State (Extended K)}

/-- A column under multipliers of the rows. -/
def weighed (s : State (Extended K)) (y : Nat → K) (v : Nat) : K :=
  ∑ i ∈ Finset.range s.rowCount, y i * s.matrix.coeff i v

theorem weighed_add_mul (s : State (Extended K)) (y z : Nat → K) (c : K) (v : Nat) :
    s.weighed (fun i => y i + c * z i) v = s.weighed y v + c * s.weighed z v := by
  unfold weighed
  rw [Finset.mul_sum, ← Finset.sum_add_distrib]
  exact Finset.sum_congr rfl fun i _ => by ring

/-- The combination of the rows is the combination of what they send a vector to. -/
theorem sum_weighed_mul (s : State (Extended K)) (y z : Nat → K) :
    ∑ v ∈ Finset.range s.varCount, s.weighed y v * z v
      = ∑ i ∈ Finset.range s.rowCount,
          y i * ∑ v ∈ Finset.range s.varCount, s.matrix.coeff i v * z v := by
  unfold weighed
  simp only [Finset.sum_mul, Finset.mul_sum]
  rw [Finset.sum_comm]
  exact Finset.sum_congr rfl fun _ _ => Finset.sum_congr rfl fun _ _ => mul_assoc _ _ _

/-- What all rows send to zero, a combination of them does. -/
theorem sum_weighed {z : Nat → K}
    (h : ∀ i < s.rowCount, ∑ v ∈ Finset.range s.varCount, s.matrix.coeff i v * z v = 0)
    (y : Nat → K) : ∑ v ∈ Finset.range s.varCount, s.weighed y v * z v = 0 := by
  rw [sum_weighed_mul]
  exact Finset.sum_eq_zero fun i hi => by rw [h i (Finset.mem_range.mp hi), mul_zero]

/-- The change column tells how a column is combined from the basic ones. -/
theorem weighed_column {column : List (Extended K)} {v : Nat} (h : s.IsColumn column v)
    (y : Nat → K) : s.weighed y v
      = ∑ k ∈ Finset.range s.rowCount, s.weighed y (s.split.basicVar k) * coord column k := by
  unfold weighed
  calc ∑ i ∈ Finset.range s.rowCount, y i * s.matrix.coeff i v
      = ∑ i ∈ Finset.range s.rowCount, ∑ k ∈ Finset.range s.rowCount,
          y i * s.matrix.coeff i (s.split.basicVar k) * coord column k := by
        refine Finset.sum_congr rfl fun i hi => ?_
        rw [← h.2 i (Finset.mem_range.mp hi), Finset.mul_sum]
        exact Finset.sum_congr rfl fun _ _ => (mul_assoc _ _ _).symm
    _ = _ := by
        rw [Finset.sum_comm]
        exact Finset.sum_congr rfl fun _ _ => (Finset.sum_mul _ _ _).symm

/-- The product of a column with a list of multipliers. -/
theorem WellFormed.dot_eq (h : s.WellFormed) {v : Nat} (hv : v < s.varCount)
    {ys : List (Extended K)} (hy : Numbers s.rowCount ys) :
    ∃ col, s.matrix.sparseColumn v = .ok col ∧ col.dot ys = .ok (fin (s.weighed (coord ys) v)) := by
  obtain ⟨col, hcol, hr⟩ := h.matrix.sparseColumn_eq hv
  refine ⟨col, hcol, ?_⟩
  rw [hr.dot_eq (show Numbers s.matrix.rowCount ys from hy)]
  unfold weighed
  congr 2
  exact Finset.sum_congr rfl fun i _ => mul_comm _ _

/-- The reduced costs belong to the costs of the basic variables. -/
structure Priced (s : State (Extended K)) (basicCosts costs : List (Extended K)) : Prop where
  basic : Numbers s.rowCount basicCosts
  reduced : Numbers s.nonBasicCount costs
  multipliers : ∃ y : Nat → K,
    (∀ k < s.rowCount, s.weighed y (s.split.basicVar k) = coord basicCosts k)
      ∧ ∀ j < s.nonBasicCount, coord costs j = -s.weighed y (s.split.nonBasicVar j)

/-- Prices depend on the columns and on where they are. -/
theorem Priced.congr {s' : State (Extended K)} {basicCosts costs : List (Extended K)}
    (h : s.Priced basicCosts costs) (hm : s'.matrix = s.matrix) (hsplit : s'.split = s.split) :
    s'.Priced basicCosts costs := by
  have hrow : s'.rowCount = s.rowCount := by rw [rowCount, rowCount, hm]
  have hcount : s'.nonBasicCount = s.nonBasicCount := by
    rw [nonBasicCount, nonBasicCount, hrow, varCount, varCount, hm]
  have hweigh (y : Nat → K) (v : Nat) : s'.weighed y v = s.weighed y v := by
    rw [weighed, weighed, hrow, hm]
  obtain ⟨y, hbasic, hother⟩ := h.multipliers
  refine ⟨hrow ▸ h.basic, hcount ▸ h.reduced, y, fun k hk => ?_, fun j hj => ?_⟩
  · rw [hweigh, hsplit]
    exact hbasic k (hrow ▸ hk)
  · rw [hweigh, hsplit]
    exact hother j (hcount ▸ hj)

/-- The entry of a column in a row, under the row of the inverse. -/
theorem weighed_unit {column : List (Extended K)} {v : Nat} (h : s.IsColumn column v) {i : Nat}
    (hi : i < s.rowCount) {ρ : Nat → K}
    (hρ : ∀ k < s.rowCount, s.weighed ρ (s.split.basicVar k) = if k = i then 1 else 0) :
    s.weighed ρ v = coord column i := by
  have hterm (k : Nat) (hk : k ∈ Finset.range s.rowCount) :
      s.weighed ρ (s.split.basicVar k) * coord column k = if k = i then coord column i else 0 := by
    rw [hρ k (Finset.mem_range.mp hk)]
    by_cases hki : k = i
    · rw [if_pos hki, if_pos hki, one_mul, hki]
    · rw [if_neg hki, if_neg hki, zero_mul]
  rw [weighed_column h, Finset.sum_congr rfl hterm, Finset.sum_ite_eq',
    if_pos (Finset.mem_range.mpr hi)]

/-- **An exchange.**  The costs of the new basis, in which the entering variable
    is free of charge. -/
theorem Priced.exchange {s s' : State (Extended K)} (hs : s.WellFormed)
    {basicCosts costs : List (Extended K)} (h : s.Priced basicCosts costs)
    (hm : s'.matrix = s.matrix) {j i : Nat} (hj : j < s.nonBasicCount) (hi : i < s.rowCount)
    (hsplit : s'.split = s.split.swapped j i) {column : List (Extended K)}
    (hc : s.IsColumn column (s.split.nonBasicVar j)) (hd : coord column i ≠ 0) {ρ : Nat → K}
    (hρ : ∀ k < s.rowCount, s.weighed ρ (s.split.basicVar k) = if k = i then 1 else 0)
    {newCosts : List (Extended K)} (hn : Numbers s.nonBasicCount newCosts)
    (hnew : ∀ l < s.nonBasicCount, coord newCosts l
      = if l = j then -(coord costs j / coord column i) - coord basicCosts i
        else coord costs l
          + -s.weighed ρ (s.split.nonBasicVar l) * (coord costs j / coord column i)) :
    s'.Priced (basicCosts.set i (fin 0)) newCosts := by
  have hrow : s'.rowCount = s.rowCount := by rw [rowCount, rowCount, hm]
  have hcount : s'.nonBasicCount = s.nonBasicCount := by
    rw [nonBasicCount, nonBasicCount, hrow, varCount, varCount, hm]
  have hweigh (y : Nat → K) (v : Nat) : s'.weighed y v = s.weighed y v := by
    rw [weighed, weighed, hrow, hm]
  obtain ⟨y, hbasic, hother⟩ := h.multipliers
  refine ⟨hrow ▸ h.basic.set i 0, hcount ▸ hn,
    fun r => y r + coord costs j / coord column i * ρ r, fun k hk => ?_, fun l hl => ?_⟩
  · rw [hrow] at hk
    rw [hweigh, weighed_add_mul, hsplit, hs.split.basicVar_swapped hi,
      coord_set (by rw [h.basic.length]; exact hi)]
    by_cases hki : k = i
    · -- the entering variable loses its reduced cost
      rw [if_pos hki, if_pos hki, weighed_unit hc hi hρ, div_mul_cancel₀ _ hd, hother j hj]
      ring
    · rw [if_neg hki, if_neg hki, hbasic k hk, hρ k hk, if_neg hki, mul_zero, add_zero]
  · rw [hcount] at hl
    rw [hnew l hl, hweigh, weighed_add_mul, hsplit, hs.split.nonBasicVar_swapped hj]
    by_cases hlj : l = j
    · -- the leaving variable brings in its own cost
      rw [if_pos hlj, if_pos hlj, hbasic i hi, hρ i hi, if_pos rfl]
      ring
    · rw [if_neg hlj, if_neg hlj, hother l hl]
      ring

end State

/-! ## §2.  Computed costs -/

/-- The costs of the basic variables by their standings. -/
theorem numbers_cost (standings : List Standing) :
    Numbers standings.length (standings.map Standing.cost : List (Extended K)) := by
  refine ⟨List.length_map _, fun x hx => ?_⟩
  obtain ⟨s, -, rfl⟩ := List.mem_map.mp hx
  cases s with
  | belowLower | atLower | between | atUpper | aboveUpper => rfl

namespace Tableau

variable {t u : Tableau (Extended K)}

/-- Solving with the transposed basis, in terms of lists. -/
theorem Solvable.solveRow_spec (h : t.Solvable) {ys xs : List (Extended K)}
    (hy : Numbers t.rowCount ys) (hx : t.inverse.solveRow ys = .ok xs) :
    Numbers t.rowCount xs ∧ ∀ k < t.rowCount,
      t.toState.weighed (coord xs) (t.split.basicVar k) = coord ys k := by
  rw [hy.eq_embed] at hx
  obtain ⟨x, hsolve, hs⟩ := h.solveRow_eq fun k => coord ys k
  obtain rfl : embed x = xs := Except.ok.inj (hsolve.symm.trans hx)
  refine ⟨numbers_embed x, fun k hk => ?_⟩
  have := congrFun ((hs x).mpr rfl) ⟨k, hk⟩
  rw [← this]
  show ∑ i ∈ Finset.range t.rowCount, coord (embed x) i * t.matrix.coeff i (t.split.basicVar k) = _
  rw [Finset.sum_range]
  exact Finset.sum_congr rfl fun i _ => by rw [coord_embed]; rfl

/-- One product for every non-basic variable. -/
theorem mapM_nonBasic {β : Type} (hs : t.toState.WellFormed) {ys : List (Extended K)}
    (hy : Numbers t.rowCount ys) (f : Nat → Extended K → β) :
    (t.split.nonBasic.mapM fun v => do
        return f v (← (← t.matrix.sparseColumn v).dot ys) : Checked (List β))
      = .ok ((List.range t.nonBasicCount).map fun j =>
          f (t.split.nonBasicVar j)
          (fin (t.toState.weighed (coord ys) (t.split.nonBasicVar j)))) := by
  rw [hs.split.nonBasic_eq, List.mapM_map]
  refine Checked.mapM_eq_ok fun j hj => ?_
  obtain ⟨col, hcol, hdot⟩ := hs.dot_eq (hs.split.nonBasicVar_lt (List.mem_range.mp hj)) hy
  show (do
    let col ← t.matrix.sparseColumn (t.split.nonBasicVar j)
    let d ← col.dot ys
    return f _ d) = _
  rw [hcol]
  show (do
    let d ← col.dot ys
    return f _ d) = _
  rw [hdot]
  rfl

/-- **Computed costs** belong to the standings. -/
theorem compute_spec (ht : t.Solvable) (hst : t.standings.length = t.rowCount)
    {p q : Pricing (Extended K)} (hp : p.rule = .infeasibility)
    (h : p.compute t.pricingView = .ok q) :
    q.rule = .infeasibility ∧ q.basicCosts = t.standings.map Standing.cost
      ∧ t.toState.Priced q.basicCosts q.costs := by
  obtain ⟨_, -, h⟩ := Checked.bind_eq_ok.mp h
  rw [hp] at h
  obtain ⟨costs, hcosts, h⟩ := Checked.bind_eq_ok.mp h
  cases h
  obtain ⟨ys, hys, hcosts⟩ := Checked.bind_eq_ok.mp hcosts
  have hc : Numbers t.rowCount (t.standings.map Standing.cost : List (Extended K)) :=
    hst ▸ numbers_cost t.standings
  obtain ⟨hy, hbasic⟩ := ht.solveRow_spec hc hys
  obtain rfl := Except.ok.inj ((mapM_nonBasic ht.state hy fun _ d => -d).symm.trans hcosts)
  refine ⟨rfl, rfl, hc, .map_range t.nonBasicCount _, coord ys, hbasic, fun j hj => ?_⟩
  exact coord_map_range hj fun j => -t.toState.weighed (coord ys) (t.split.nonBasicVar j)

/-- A computed row says whose it is. -/
theorem index_of_solvedRow {i : Nat} {row : SolvedRow (Extended K)} (h : t.solvedRow i = .ok row) :
    row.basicIndex = i := by
  obtain ⟨_, -, h⟩ := Checked.bind_eq_ok.mp h
  obtain ⟨_, -, h⟩ := Checked.bind_eq_ok.mp h
  obtain ⟨_, -, h⟩ := Checked.bind_eq_ok.mp h
  obtain ⟨_, -, h⟩ := Checked.bind_eq_ok.mp h
  rw [← Except.ok.inj h]

/-- The coefficients of a solved row come from the row of the inverse. -/
theorem solvedRow_spec (ht : t.Solvable) {i : Nat} {row : SolvedRow (Extended K)}
    (h : t.solvedRow i = .ok row) :
    ∃ ρ : Nat → K, (∀ k < t.rowCount,
        t.toState.weighed ρ (t.split.basicVar k) = if k = i then 1 else 0)
      ∧ row.entries = (List.range t.nonBasicCount).map fun j => (t.split.nonBasicVar j,
          fin (-t.toState.weighed ρ (t.split.nonBasicVar j))) := by
  obtain ⟨_, hi, h⟩ := Checked.bind_eq_ok.mp h
  obtain ⟨rho, hrho, h⟩ := Checked.bind_eq_ok.mp h
  obtain ⟨entries, hentries, h⟩ := Checked.bind_eq_ok.mp h
  obtain ⟨slot, -, h⟩ := Checked.bind_eq_ok.mp h
  cases h
  rw [Checked.require_eq_ok] at hi
  obtain ⟨hn, hbasic⟩ := ht.solveRow_spec (.unit t.rowCount i) hrho
  obtain rfl := Except.ok.inj ((mapM_nonBasic ht.state hn fun v d => (v, -d)).symm.trans hentries)
  refine ⟨coord rho, fun k hk => ?_, rfl⟩
  rw [hbasic k hk, coord_unit hi]

end Tableau

/-! ## §3.  Followed costs -/

/-- Costs that are not stale are those of the standings. -/
structure PricesFit (s : State (Extended K)) (p : Pricing (Extended K)) : Prop where
  rule : p.rule = .infeasibility
  fresh : p.stale = false → p.basicCosts = s.standings.map Standing.cost
    ∧ s.Priced p.basicCosts p.costs

namespace Pricing

theorem exchangeCosts_spec {n j : Nat} {costs : List (Extended K)} (hc : Numbers n costs)
    {row : SolvedRow (Extended K)} {name : Nat → Nat} {k : Nat → K}
    (hrow : row.entries = (List.range n).map fun l => (name l, fin (k l))) (ratio ownCost : K) :
    Numbers n (exchangeCosts costs j (fin ratio) (fin ownCost) row)
      ∧ ∀ l < n, coord (exchangeCosts costs j (fin ratio) (fin ownCost) row) l
        = if l = j then -ratio - ownCost else coord costs l + k l * ratio := by
  -- Position by position, with the entry of the row beside the cost.
  have hget (l : Nat) (hl : l < n) : (exchangeCosts costs j (fin ratio) (fin ownCost) row)[l]?
      = some (fin (if l = j then -ratio - ownCost else coord costs l + k l * ratio)) := by
    have hzip : (costs.zip row.entries)[l]? = some (fin (coord costs l), (name l, fin (k l))) := by
      rw [List.getElem?_zip_eq_some, hrow]
      exact ⟨hc.getElem? hl, by simp [hl]⟩
    unfold exchangeCosts
    rw [List.getElem?_mapIdx, hzip]
    by_cases hlj : l = j
    · simp [hlj]
    · simp [hlj]
  have hlen : (exchangeCosts costs j (fin ratio) (fin ownCost) row).length = n := by
    unfold exchangeCosts
    rw [List.length_mapIdx, List.length_zip, hc.length, hrow, List.length_map, List.length_range,
      Nat.min_self]
  exact ⟨.of_getElem? hlen fun l hl => ⟨_, hget l hl⟩, fun l hl => coord_of_getElem? (hget l hl)⟩

/-- Costs that no standing contradicts are those of the standings, where the comparison with the
    cost of a standing can be trusted. -/
theorem eq_map_cost_of_not_outdated {α : Type} [Scalar α] {costs : List α}
    {standings : List Standing} (hlen : costs.length = standings.length)
    (hlaw : ∀ c ∈ costs, ∀ s : Standing, (c == s.cost) = true → c = s.cost)
    (h : outdated costs standings = false) : costs = standings.map Standing.cost := by
  induction costs generalizing standings with
  | nil =>
    cases standings with
    | nil => rfl
    | cons s ss => cases hlen
  | cons c cs ih =>
    cases standings with
    | nil => cases hlen
    | cons s ss =>
      unfold outdated at h
      simp only [List.zip_cons_cons, List.any_cons, Bool.or_eq_false_iff, Bool.not_eq_false'] at h
      obtain ⟨hc, hcs⟩ := h
      rw [List.map_cons, ← hlaw c List.mem_cons_self s hc]
      congr 1
      exact ih (Nat.succ.inj hlen) (fun d hd => hlaw d (List.mem_cons_of_mem c hd)) hcs

/-- Exact numbers can be compared with the cost of a standing. -/
theorem eq_of_not_outdated {costs : List (Extended K)} {standings : List Standing}
    (hc : Numbers standings.length costs) (h : outdated costs standings = false) :
    costs = standings.map Standing.cost := by
  refine eq_map_cost_of_not_outdated hc.length (fun c hmem s heq => ?_) h
  obtain ⟨i, hi⟩ := List.mem_iff_getElem?.mp hmem
  have hlt : i < standings.length := by
    rw [← hc.length]
    exact (List.getElem?_eq_some_iff.mp hi).1
  obtain rfl := Option.some.inj ((hc.getElem? hlt).symm.trans hi)
  cases s <;> simpa [Standing.cost] using heq

end Pricing

namespace Tableau

variable {t : Tableau (Extended K)}

/-- **Following an exchange.**  Costs that are not stale afterwards are those of the new basis and
    the new standings. -/
theorem Repriced.prices (ht : t.Solvable) (hfit : PricesFit t.toState t.pricing) {j i : Nat}
    (hr : t.Ready j) (hi : i < t.rowCount) (hd : coord t.plan.column i ≠ 0)
    (hrow : ∀ row, t.plan.row = some row → row.basicIndex = i → t.solvedRow i = .ok row)
    {s' : State (Extended K)} (hm : s'.matrix = t.matrix) (hsplit : s'.split = t.split.swapped j i)
    (hlen : s'.standings.length = t.rowCount) {pricing : Pricing (Extended K)}
    (h : t.Repriced j i s'.standings pricing) : PricesFit s' pricing := by
  rcases h with ⟨row, changed, hplan, hindex, hfollow⟩ | rfl
  · unfold Pricing.follow at hfollow
    simp only [hfit.rule] at hfollow
    split at hfollow
    · -- stale costs stay stale
      next hstale =>
      cases hfollow
      exact ⟨hfit.rule, fun hf => absurd (hstale.symm.trans hf) Bool.noConfusion⟩
    · next hstale =>
      obtain ⟨hbasic, hpriced⟩ := hfit.fresh (by simpa using hstale)
      obtain ⟨_, -, hfollow⟩ := Checked.bind_eq_ok.mp hfollow
      obtain ⟨own, hown, hfollow⟩ := Checked.bind_eq_ok.mp hfollow
      obtain ⟨cost, hcost, hfollow⟩ := Checked.bind_eq_ok.mp hfollow
      cases hfollow
      rw [Checked.getAt_eq_ok, hpriced.basic.getElem? hi] at hown
      rw [Checked.getAt_eq_ok, hpriced.reduced.getElem? hr.lt] at hcost
      cases hown
      cases hcost
      obtain ⟨ρ, hρ, hentries⟩ := solvedRow_spec ht (hrow row hplan hindex)
      rw [hr.column.1.getD hi, fin_div _ hd]
      obtain ⟨hn, hnew⟩ := Pricing.exchangeCosts_spec (j := j) hpriced.reduced hentries
        (coord t.pricing.costs j / coord t.plan.column i) (coord t.pricing.basicCosts i)
      refine ⟨rfl, fun hf => ⟨?_, ?_⟩⟩
      · exact Pricing.eq_of_not_outdated (hlen ▸ hpriced.basic.set i 0) hf
      · exact hpriced.exchange ht.state hm hr.lt hi hsplit hr.column hd hρ hn hnew
  · exact ⟨hfit.rule, fun hf => Bool.noConfusion hf⟩

/-- Costs that can be relied on fit the standings. -/
theorem ensurePrices_spec (ht : t.Solvable) (hst : t.standings.length = t.rowCount)
    (hfit : PricesFit t.toState t.pricing) (h : t.ensurePrices = .ok u) :
    ∃ pricing, u = { t with pricing } ∧ PricesFit t.toState pricing := by
  unfold ensurePrices at h
  split at h
  · obtain ⟨_, -, h⟩ := Checked.bind_eq_ok.mp h
    obtain ⟨pricing, hcompute, h⟩ := Checked.bind_eq_ok.mp h
    cases h
    obtain ⟨hrule, hcosts⟩ := compute_spec ht hst hfit.rule hcompute
    exact ⟨pricing, rfl, hrule, fun _ => hcosts⟩
  · cases h
    exact ⟨_, rfl, hfit⟩

end Tableau

end BoundedSimplex
