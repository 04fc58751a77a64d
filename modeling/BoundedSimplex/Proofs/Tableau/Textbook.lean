/- BoundedSimplex.Proofs.Tableau.Textbook — the textbook test lowers the violation as
  far as it is linear.

  The test settles for the shortest of all ways, so no basic variable leaves its piece of the
  violation and the entering variable stays within its bounds.  The reduced cost is the slope of the
  sum of the violations, and an eligible variable moves against it; so some violated basic variable
  heads for the bound that it violates, and its way is a number.

  Main results:
    * `standardRatioTest_shortest` — no way is shorter;
    * `State.Priced.reduced_eq` — the reduced cost of a variable in terms of its change column;
    * `Poised.exists_distance` — the test settles for a number;
    * `Poised.sum_pivot` — the pivot lowers the sum of the violations by that number times the size
      of the reduced cost.
-/
import BoundedSimplex.Proofs.Tableau.Optimality
import BoundedSimplex.Proofs.Tableau.ProgressPivot
import BoundedSimplex.Proofs.Tableau.Violation

namespace BoundedSimplex

open Extended

variable {K : Type} [Field K] [LinearOrder K]

/-! ## §1.  The shortest way -/

/-- The distance is not longer than a limit, where that is a number. -/
def Extended.UpTo (distance limit : Extended K) : Prop :=
  ∀ e, limit = fin e → ∃ d ≤ e, distance = fin d

omit [Field K] in
theorem Extended.UpTo.refl (distance : Extended K) : distance.UpTo distance :=
  fun e h => ⟨e, le_rfl, h⟩

omit [Field K] in
theorem Extended.UpTo.trans {a b c : Extended K} (h : a.UpTo b) (h' : b.UpTo c) : a.UpTo c := by
  intro e he
  obtain ⟨d, hd, hb⟩ := h' e he
  obtain ⟨d', hd', ha⟩ := h d hb
  exact ⟨d', hd'.trans hd, ha⟩

/-- Of two ways that are numbers or without limit one is up to the other. -/
theorem Extended.upTo_of_lt {a b : Extended K} (ha : a = top ∨ ∃ d, a = fin d) (h : a < b) :
    a.UpTo b := by
  rintro e rfl
  obtain rfl | ⟨d, rfl⟩ := ha
  · exact absurd h Bool.false_ne_true
  · exact ⟨d, ((fin_lt_fin d e).mp h).le, rfl⟩

theorem Extended.upTo_of_not_lt {a b : Extended K} (hb : b = top ∨ ∃ d, b = fin d) (h : ¬a < b) :
    b.UpTo a := by
  rintro e rfl
  obtain rfl | ⟨d, rfl⟩ := hb
  · exact absurd rfl h
  · exact ⟨d, not_lt.mp fun hlt => h ((fin_lt_fin e d).mpr hlt), rfl⟩

theorem Extended.lt_of_lt_of_upTo {a b c : Extended K} (ha : a = top ∨ ∃ d, a = fin d) (h : a < b)
    (hbc : b.UpTo c) (hc : c = top ∨ ∃ d, 0 ≤ d ∧ c = fin d) : a < c := by
  obtain rfl | ⟨d, rfl⟩ := ha
  · exact absurd h Bool.false_ne_true
  obtain rfl | ⟨e, -, rfl⟩ := hc
  · rfl
  obtain ⟨d', hle, rfl⟩ := hbc e rfl
  exact (fin_lt_fin d e).mpr (((fin_lt_fin d d').mp h).trans_le hle)

/-- For ways that are numbers or without limit this is the order. -/
theorem Extended.le_iff_upTo {a b : Extended K} (ha : a = top ∨ ∃ d, a = fin d)
    (hb : b = top ∨ ∃ d, b = fin d) : a ≤ b ↔ a.UpTo b := by
  obtain rfl | ⟨e, rfl⟩ := hb
  · refine ⟨fun _ e he => (by cases he), fun _ => ?_⟩
    obtain rfl | ⟨d, rfl⟩ := ha <;> rfl
  · obtain rfl | ⟨d, rfl⟩ := ha
    · refine ⟨fun h => absurd h Bool.false_ne_true, fun h => ?_⟩
      obtain ⟨_, _, h⟩ := h e rfl
      cases h
    · constructor
      · rintro h _ ⟨⟩
        exact ⟨d, (fin_le_fin d e).mp h, rfl⟩
      · intro h
        obtain ⟨_, hle, ⟨⟩⟩ := h e rfl
        exact (fin_le_fin d e).mpr hle

/-- **The reduced cost of a variable** by its change column: what the basic variables
    cost that follow it. -/
theorem State.Priced.reduced_eq {s : State (Extended K)} {basicCosts costs : List (Extended K)}
    (h : s.Priced basicCosts costs) {j : Nat} (hj : j < s.nonBasicCount)
    {column : List (Extended K)} (hc : s.IsColumn column (s.split.nonBasicVar j)) :
    coord costs j = -∑ k ∈ Finset.range s.rowCount, coord basicCosts k * coord column k := by
  obtain ⟨y, hbasic, hreduced⟩ := h.multipliers
  rw [hreduced j hj, State.weighed_column hc]
  congr 1
  exact Finset.sum_congr rfl fun k hk => by rw [hbasic k (Finset.mem_range.mp hk)]

namespace Tableau

variable {t u w : Tableau (Extended K)} {j : Nat}

/-- A row counts in a ratio test if its entry is not too small. -/
def Counts (t : Tableau (Extended K)) (x : Extended K) : Prop :=
  ¬Scalar.magnitude x < t.settings.columnTolerance

/-- The distance is up to the way of the entering variable and to the ratios of
    the first `n` rows. -/
def ShortestOf (t : Tableau (Extended K)) (falls : Bool) (n : Nat) (distance : Extended K) : Prop :=
  (∃ range, t.enteringRange falls = .ok range ∧ distance.UpTo range)
    ∧ ∀ k < n, ∀ x, t.plan.column[k]? = some x → t.Counts x →
      ∃ ratio, t.ratioAt k x falls = .ok ratio ∧ distance.UpTo ratio

theorem ShortestOf.of_upTo {falls : Bool} {n : Nat} {a b : Extended K} (h : t.ShortestOf falls n b)
    (hab : a.UpTo b) : t.ShortestOf falls n a := by
  obtain ⟨⟨range, hrange, hb⟩, hrows⟩ := h
  refine ⟨⟨range, hrange, hab.trans hb⟩, fun k hk x hx hcounts => ?_⟩
  obtain ⟨ratio, hratio, hb⟩ := hrows k hk x hx hcounts
  exact ⟨ratio, hratio, hab.trans hb⟩

theorem ShortestOf.next {falls : Bool} {n : Nat} {d : Extended K} (h : t.ShortestOf falls n d)
    (hn : ∀ x, t.plan.column[n]? = some x → t.Counts x →
      ∃ ratio, t.ratioAt n x falls = .ok ratio ∧ d.UpTo ratio) : t.ShortestOf falls (n + 1) d := by
  refine ⟨h.1, fun k hk => ?_⟩
  rcases Nat.lt_succ_iff_lt_or_eq.mp hk with hk | rfl
  · exact h.2 k hk
  · exact hn

/-- The best one of the entering variable and the first `n` rows: no way is shorter than that of the
    leader, and a row that leads is the first one of equals. -/
structure Leads (t : Tableau (Extended K)) (falls : Bool) (range : Extended K) (n : Nat)
    (leaving : Leaving) (distance : Extended K) : Prop where
  nonneg : distance = top ∨ ∃ d, 0 ≤ d ∧ distance = fin d
  shortest : t.ShortestOf falls n distance
  entering : leaving = .entering → distance = range
  basic : ∀ p, leaving = .basic p → distance < range
    ∧ (∃ x, t.plan.column[p]? = some x ∧ t.Counts x ∧ t.ratioAt p x falls = .ok distance)
    ∧ ∀ k < p, ∀ x r, t.plan.column[k]? = some x → t.Counts x → t.ratioAt k x falls = .ok r →
      distance < r

/-- A row that is no shorter stays behind. -/
theorem Leads.keep {falls : Bool} {n : Nat} {range distance : Extended K} {leaving : Leaving}
    (h : t.Leads falls range n leaving distance)
    (hn : ∀ x, t.plan.column[n]? = some x → t.Counts x →
      ∃ ratio, t.ratioAt n x falls = .ok ratio ∧ distance.UpTo ratio) :
    t.Leads falls range (n + 1) leaving distance :=
  ⟨h.nonneg, h.shortest.next hn, h.entering, h.basic⟩

section Ratio

variable [IsStrictOrderedRing K] {τ : K}

/-- A row that is shorter takes the lead. -/
theorem Leads.take {falls : Bool} {n : Nat} {range distance ratio x : Extended K}
    {leaving : Leaving} (h : t.Leads falls range n leaving distance)
    (hc : Numbers t.rowCount t.plan.column) (hrange : t.enteringRange falls = .ok range)
    (hx : t.plan.column[n]? = some x) (hcounts : t.Counts x)
    (hratio : t.ratioAt n x falls = .ok ratio) (hnonneg : ratio = top ∨ ∃ d, 0 ≤ d ∧ ratio = fin d)
    (hlt : ratio < distance) : t.Leads falls range (n + 1) (.basic n) ratio := by
  have hway := way_of_nonneg hnonneg
  obtain ⟨⟨_, hrange', hupTo⟩, hrows⟩ := h.shortest
  obtain rfl := Except.ok.inj (hrange.symm.trans hrange')
  refine ⟨hnonneg, (h.shortest.of_upTo (upTo_of_lt hway hlt)).next fun y hy _ => ?_,
    fun he => (by cases he), fun p hp => ?_⟩
  · obtain rfl := Option.some.inj (hx.symm.trans hy)
    exact ⟨ratio, hratio, .refl ratio⟩
  -- The earlier rows are beaten strictly, so the new one leads.
  cases hp
  refine ⟨lt_of_lt_of_upTo hway hlt hupTo (enteringRange_nonneg hrange),
    ⟨x, hx, hcounts, hratio⟩, fun k hk y r hy hcounts hr => ?_⟩
  obtain ⟨r', hr', hupTo⟩ := hrows k hk y hy hcounts
  obtain rfl := Except.ok.inj (hr.symm.trans hr')
  exact lt_of_lt_of_upTo hway hlt hupTo
    (ratioAt_column hc (List.mem_zipIdx_iff_getElem?.mpr hy) hr).2

/-- **The textbook test takes the shortest way**, the first one of equals. -/
theorem standardRatioTest_leads (hc : Numbers t.rowCount t.plan.column)
    (h : t.standardRatioTest = .ok u) : ∃ falls range leaving distance,
      t.enteringFalls = .ok falls ∧ t.enteringRange falls = .ok range
        ∧ u = t.concluded leaving distance falls
        ∧ t.Leads falls range t.plan.column.length leaving distance := by
  obtain ⟨falls, hfalls, h⟩ := Checked.bind_eq_ok.mp h
  obtain ⟨range, hrange, h⟩ := Checked.bind_eq_ok.mp h
  obtain ⟨⟨leaving, distance⟩, hfold, h⟩ := Checked.bind_eq_ok.mp h
  obtain rfl := of_conclude h
  refine ⟨falls, range, leaving, distance, hfalls, hrange, rfl, ?_⟩
  have hstart : t.Leads falls range 0 .entering range :=
    ⟨enteringRange_nonneg hrange, ⟨⟨range, hrange, .refl range⟩, fun k hk =>
      absurd hk (Nat.not_lt_zero k)⟩, fun _ => rfl, fun p hp => by cases hp⟩
  refine Checked.foldlM_zipIdx (P := fun (n : Nat) (best : Leaving × Extended K) =>
    t.Leads falls range n best.1 best.2) (fun i x hx best next hbest hnext => ?_) hstart hfold
  unfold tighter at hnext
  split at hnext
  · -- the entry is too small to count
    next hsmall =>
    cases hnext
    exact hbest.keep fun y hy hcounts => by
      obtain rfl := Option.some.inj (hx.symm.trans hy)
      exact absurd hsmall hcounts
  next hcounts =>
    obtain ⟨ratio, hratio, hnext⟩ := Checked.bind_eq_ok.mp hnext
    have hnonneg := (ratioAt_column hc (List.mem_zipIdx_iff_getElem?.mpr hx) hratio).2
    cases hnext
    by_cases hlt : ratio < best.2
    · rw [if_pos hlt]
      exact hbest.take hc hrange hx hcounts hratio hnonneg hlt
    · rw [if_neg hlt]
      refine hbest.keep fun y hy _ => ?_
      obtain rfl := Option.some.inj (hx.symm.trans hy)
      exact ⟨ratio, hratio, upTo_of_not_lt (way_of_nonneg hbest.nonneg) hlt⟩

/-- No way is shorter. -/
theorem standardRatioTest_shortest (hc : Numbers t.rowCount t.plan.column)
    (h : t.standardRatioTest = .ok u) : t.enteringFalls = .ok u.plan.enteringFalls
      ∧ t.ShortestOf u.plan.enteringFalls t.plan.column.length u.plan.distance := by
  obtain ⟨falls, range, leaving, distance, hfalls, -, rfl, hleads⟩ := standardRatioTest_leads hc h
  exact ⟨hfalls, hleads.shortest⟩

omit [IsStrictOrderedRing K] in
/-- A way that is cut off at zero is not negative. -/
theorem nonneg_of_larger {a : Extended K} {d : K} (h : Scalar.larger a 0 = fin d) : 0 ≤ d := by
  cases a with
  | fin x =>
    rw [larger_fin] at h
    injection h with h
    exact h ▸ le_max_right x 0
  | top => cases (show (top : Extended K) = fin d from h)
  | bot | undefined =>
    have h : (fin 0 : Extended K) = fin d := h
    injection h with h
    exact h.le

/-- What stops a move at a number stops it at one that is not negative. -/
theorem Stops.nonneg (ht : t.Steady) (hτ : t.settings.boundTolerance = fin τ)
    (hc : Numbers t.rowCount t.plan.column) {leaving : Leaving} {d : K} {falls : Bool}
    (h : t.Stops leaving (fin d) falls) : 0 ≤ d := by
  cases leaving with
  | entering =>
    obtain ⟨j, -, -, hrange⟩ := enteringRange_spec ht.state h
    exact nonneg_of_larger hrange.symm
  | basic i =>
    obtain ⟨hratio, -⟩ := h
    have hentry : t.plan.column.getD i 0 = fin (coord t.plan.column i) := by
      by_cases hi : i < t.rowCount
      · exact hc.getD hi
      · have hlen : t.plan.column.length ≤ i := hc.length.trans_le (not_lt.mp hi)
        rw [coord_of_le hlen, List.getD_eq_getElem?_getD, List.getElem?_eq_none hlen]
        rfl
    rw [hentry] at hratio
    obtain ⟨-, -, -, htop | ⟨δ, hδ, hr⟩⟩ := ratioAt_spec ht hτ hratio
    · cases htop
    · injection hr with hr
      exact hr ▸ hδ

end Ratio

/-! ## §2.  The slope of the sum -/

/-- The costs of the standings are the slopes of the violations. -/
theorem Steady.coord_costs (ht : t.Steady) (hτ : t.settings.boundTolerance = fin 0) {k : Nat}
    (hk : k < t.rowCount) :
    coord (t.standings.map Standing.cost : List (Extended K)) k
      = (t.toState.standing (fin 0) k).slope := by
  refine coord_of_getElem? ?_
  rw [ht.standings, hτ, List.map_map, List.getElem?_map, List.getElem?_range hk, ← Standing.cost_eq]
  rfl

section Move

variable [IsStrictOrderedRing K]

/-- A variable is eligible only for a cost that is not zero. -/
theorem cost_ne_zero_of_isEligible (hentry : 0 < t.settings.entryTolerance) {c : K}
    (h : t.isEligible j (fin c) = .ok true) : c ≠ 0 := by
  rintro rfl
  unfold isEligible at h
  rw [magnitude_fin, abs_zero, ← zero_eq, if_pos hentry] at h
  cases h

/-- Moving against a cost. -/
theorem cost_mul_change (c d : K) : c * (if decide (0 < c) then -d else d) = -(|c| * d) := by
  by_cases hc : 0 < c
  · rw [if_pos (decide_eq_true hc), abs_of_pos hc]
    ring
  · rw [if_neg (by simpa using hc), abs_of_nonpos (not_lt.mp hc)]
    ring

omit [IsStrictOrderedRing K] in
/-- The entering variable moves against its cost. -/
theorem enteringFalls_spec (hr : t.Ready j) (hn : Numbers t.nonBasicCount t.pricing.costs) :
    t.enteringFalls = .ok (decide (0 < coord t.pricing.costs j)) := by
  unfold enteringFalls
  rw [enteringIndex_eq_ok.mpr hr.entering, Checked.ok_bind,
    Checked.getAt_eq_ok.mpr (hn.getElem? hr.lt), Checked.ok_bind]
  show Except.ok (decide ((fin 0 : Extended K) < fin (coord t.pricing.costs j))) = _
  congr 1
  exact decide_eq_decide.mpr (fin_lt_fin 0 _)

/-- Phase one with bounds that are compared exactly: no bounds contradict each other, the variables
    that are not basic are within theirs, and costs that are not stale fit. -/
structure InPhaseOne (t : Tableau (Extended K)) : Prop where
  steady : t.Steady
  exact : t.settings.boundTolerance = fin 0
  entryTolerance : 0 < t.settings.entryTolerance
  columnTolerance : 0 < t.settings.columnTolerance
  valid : t.bounds.allValid = true
  within : ∀ j < t.nonBasicCount, Within (t.bounds.lowerOf (t.split.nonBasicVar j))
    (t.bounds.upperOf (t.split.nonBasicVar j)) (coord t.nonBasicValues j)
  prices : PricesFit t.toState t.pricing

/-- No entry of the change column is too small for a ratio test. -/
def ColumnCounts (t : Tableau (Extended K)) : Prop :=
  ∀ k < t.rowCount, coord t.plan.column k ≠ 0 →
    t.settings.columnTolerance ≤ fin |coord t.plan.column k|

instance (t : Tableau (Extended K)) : Decidable t.ColumnCounts :=
  inferInstanceAs (Decidable (∀ k < t.rowCount, coord t.plan.column k ≠ 0 →
    t.settings.columnTolerance ≤ fin |coord t.plan.column k|))

/-- An eligible variable is about to enter, and all of its change column counts. -/
structure Heading (t : Tableau (Extended K)) (j : Nat) : Prop where
  current : t.pricing.stale = false
  ready : t.Ready j
  eligible : t.isEligible j (fin (coord t.pricing.costs j)) = .ok true
  counts : t.ColumnCounts

omit [IsStrictOrderedRing K] in
/-- The slopes of the violations along the move of the entering variable add up
    to its reduced cost. -/
theorem InPhaseOne.sum_slopes (h : t.InPhaseOne) (hj : t.Heading j) (δ : K) :
    ∑ k ∈ Finset.range t.rowCount,
      (t.toState.standing (fin 0) k).slope * -(coord t.plan.column k * δ)
        = coord t.pricing.costs j * δ := by
  obtain ⟨hbasic, hpriced⟩ := h.prices.fresh hj.current
  rw [hpriced.reduced_eq hj.ready.lt hj.ready.column, ← Finset.sum_neg_distrib, Finset.sum_mul]
  refine Finset.sum_congr rfl fun k hk => ?_
  rw [hbasic, h.steady.coord_costs h.exact (Finset.mem_range.mp hk)]
  ring

/-- A row whose entry is not zero has a ratio, which limits the way. -/
theorem InPhaseOne.ratio (h : t.InPhaseOne) (hj : t.Heading j) {falls : Bool}
    {distance : Extended K} (hshort : t.ShortestOf falls t.plan.column.length distance) {k : Nat}
    (hk : k < t.rowCount) (hc : coord t.plan.column k ≠ 0) :
    distance.UpTo (Scalar.larger (room (t.toState.standing (fin 0) k)
      (rises (fin (coord t.plan.column k)) falls) (fin (coord t.basicValues k))
      (t.bounds.lowerOf (t.split.basicVar k)) (t.bounds.upperOf (t.split.basicVar k))) 0
        / fin |coord t.plan.column k|) := by
  have hn := hj.ready.column.1
  have hcounts : t.Counts (fin (coord t.plan.column k)) :=
    not_fin_lt_of_le (hj.counts k hk hc)
  obtain ⟨ratio, hratio, hupTo⟩ :=
    hshort.2 k (by rw [hn.length]; exact hk) _ (hn.getElem? hk) hcounts
  obtain ⟨-, -, rfl, -⟩ := ratioAt_spec h.steady h.exact hratio
  exact hupTo

/-- The violation of some row falls with the move. -/
theorem InPhaseOne.exists_falling (h : t.InPhaseOne) (hj : t.Heading j) : ∃ k < t.rowCount,
    (t.toState.standing (fin 0) k).slope
      * -(coord t.plan.column k * (if decide (0 < coord t.pricing.costs j) then -1 else 1))
        < 0 := by
  have hcost := cost_ne_zero_of_isEligible h.entryTolerance hj.eligible
  -- otherwise the sum of the slopes, which is the reduced cost, would not be negative
  by_contra hnone
  have hsum := Finset.sum_nonneg fun k hk => not_lt.mp fun hlt =>
    hnone ⟨k, Finset.mem_range.mp hk, hlt⟩
  rw [h.sum_slopes hj, cost_mul_change, mul_one] at hsum
  exact hcost (abs_nonpos_iff.mp (neg_nonneg.mp hsum))

/-- **Some violated variable stops the move**, for it heads for the bound that it violates. -/
theorem InPhaseOne.exists_distance (h : t.InPhaseOne) (hj : t.Heading j) {distance : Extended K}
    (hshort : t.ShortestOf (decide (0 < coord t.pricing.costs j)) t.plan.column.length distance) :
    ∃ d, distance = fin d := by
  obtain ⟨k, hk, hneg⟩ := h.exists_falling hj
  have hv := h.steady.state.split.basicVar_lt hk
  have hc : coord t.plan.column k ≠ 0 := by
    intro hc
    rw [hc, zero_mul, neg_zero, mul_zero] at hneg
    exact lt_irrefl 0 hneg
  -- the row moves by the size of its entry
  have hway : (t.toState.standing (fin 0) k).slope
      * (moved (rises (fin (coord t.plan.column k)) (decide (0 < coord t.pricing.costs j)))
          (coord t.basicValues k) (|coord t.plan.column k| * 1) - coord t.basicValues k) < 0 := by
    rw [moved_rises hc, sub_sub_cancel_left]
    exact hneg
  obtain ⟨e, he⟩ := room_of_descent (h.steady.state.bounds.lowerOf_lt hv)
    (h.steady.state.bounds.lt_upperOf hv) (by rw [mul_one]; exact abs_pos.mpr hc) hway
  have hlimit := h.ratio hj hshort hk hc
  unfold State.standing at hlimit
  rw [he, larger_fin, fin_div _ (abs_pos.mpr hc).ne'] at hlimit
  obtain ⟨d, -, hd⟩ := hlimit _ rfl
  exact ⟨d, hd⟩

/-- A way up to a ratio keeps to the room. -/
theorem way_le_of_upTo {space : Extended K} {c d : K} (hc : c ≠ 0)
    (hspace : space = top ∨ ∃ e, 0 ≤ e ∧ space = fin e)
    (h : (fin d : Extended K).UpTo (space / fin |c|)) : (fin (|c| * d) : Extended K) ≤ space := by
  have hpos : 0 < |c| := abs_pos.mpr hc
  obtain rfl | ⟨e, -, rfl⟩ := hspace
  · rfl
  · rw [fin_div _ hpos.ne'] at h
    obtain ⟨d', hd', heq⟩ := h _ rfl
    obtain rfl : d = d' := by injection heq
    rw [fin_le_fin, mul_comm]
    exact (le_div_iff₀ hpos).mp hd'

/-- **Every row keeps to its piece** of the violation. -/
theorem InPhaseOne.excess_followed (h : t.InPhaseOne) (hj : t.Heading j) {falls : Bool} {d : K}
    (hd : 0 ≤ d) (hshort : t.ShortestOf falls t.plan.column.length (fin d)) {k : Nat}
    (hk : k < t.rowCount) :
    excess (t.bounds.lowerOf (t.split.basicVar k)) (t.bounds.upperOf (t.split.basicVar k))
        (coord t.basicValues k - coord t.plan.column k * (if falls then -d else d))
      = t.excessAt k + (t.toState.standing (fin 0) k).slope
        * -(coord t.plan.column k * (if falls then -d else d)) := by
  have hv := h.steady.state.split.basicVar_lt hk
  by_cases hc : coord t.plan.column k = 0
  · rw [hc, zero_mul, sub_zero, neg_zero, mul_zero, add_zero]
    rfl
  · have hl := h.steady.state.bounds.lowerOf_lt hv
    have hu := h.steady.state.bounds.lt_upperOf hv
    have hroom := way_le_of_upTo hc (larger_cases _) (h.ratio hj hshort hk hc)
    have hmoved := excess_moved hl hu (h.steady.state.bounds.not_contradictory h.valid hv)
      (mul_nonneg (abs_nonneg (coord t.plan.column k)) hd) hroom
    rw [moved_rises hc, sub_sub_cancel_left] at hmoved
    exact hmoved

/-- **The sum of the violations** after the move, before anything is exchanged. -/
theorem InPhaseOne.sum_followed (h : t.InPhaseOne) (hj : t.Heading j) {d : K} (hd : 0 ≤ d)
    (hshort : t.ShortestOf (decide (0 < coord t.pricing.costs j)) t.plan.column.length (fin d)) :
    ∑ k ∈ Finset.range t.rowCount, excess (t.bounds.lowerOf (t.split.basicVar k))
        (t.bounds.upperOf (t.split.basicVar k)) (coord t.basicValues k
          - coord t.plan.column k * (if decide (0 < coord t.pricing.costs j) then -d else d))
      = ∑ k ∈ Finset.range t.rowCount, t.excessAt k - |coord t.pricing.costs j| * d := by
  rw [Finset.sum_congr rfl fun k hk => h.excess_followed hj hd hshort (Finset.mem_range.mp hk),
    Finset.sum_add_distrib, h.sum_slopes hj, cost_mul_change]
  ring

/-! ## §3.  The pivot -/

/-- The textbook test has settled for a way. -/
structure Poised (t : Tableau (Extended K)) (j : Nat) : Prop extends Heading t j where
  aimed : t.Aimed j
  falls : t.plan.enteringFalls = decide (0 < coord t.pricing.costs j)
  shortest : t.ShortestOf t.plan.enteringFalls t.plan.column.length t.plan.distance

/-- A move of the entering variable up to its range keeps it within its bounds. -/
theorem within_of_range {l u : Extended K} {x d : K} (hx : Within l u x) (hd : 0 ≤ d) {falls : Bool}
    (hl : l < Scalar.infinity) (hu : -Scalar.infinity < u)
    (h : (fin d : Extended K).UpTo (Scalar.larger (if falls then fin x - l else u - fin x) 0)) :
    Within l u (x + (if falls then -d else d)) := by
  rw [add_eq_moved]
  refine within_moved hx hl hu hd ?_
  have hflip : (if falls then fin x - l else u - fin x)
      = if (!falls) = true then u - fin x else fin x - l := by
    cases falls <;> rfl
  rw [← hflip]
  refine (le_iff_upTo (.inr ⟨d, rfl⟩) ?_).mpr h
  cases falls with
  | true =>
    obtain rfl | ⟨a, rfl⟩ := lt_infinity_iff.mp hl
    · exact .inl rfl
    · exact .inr ⟨max (x - a) 0, by rw [if_pos rfl, fin_sub, larger_fin]⟩
  | false =>
    obtain rfl | ⟨b, rfl⟩ := neg_infinity_lt_iff.mp hu
    · exact .inl rfl
    · exact .inr ⟨max (b - x) 0, by rw [if_neg Bool.false_ne_true, fin_sub, larger_fin]⟩

/-- A jump to the bound ahead is a move by the whole range. -/
theorem jump_eq {l u : Extended K} {x y d : K} (hx : Within l u x) {falls : Bool}
    (hy : (if falls then l else u) = fin y)
    (h : (fin d : Extended K) = Scalar.larger (if falls then fin x - l else u - fin x) 0) :
    y - x = if falls then -d else d := by
  cases falls with
  | true =>
    obtain rfl : l = fin y := hy
    have hyx := (fin_le_fin y x).mp hx.1
    rw [if_pos rfl, fin_sub, larger_fin, max_eq_left (sub_nonneg.mpr hyx)] at h
    injection h with h
    rw [if_pos rfl, h]
    ring
  | false =>
    obtain rfl : u = fin y := hy
    have hxy := (fin_le_fin x y).mp hx.2
    rw [if_neg Bool.false_ne_true, fin_sub, larger_fin, max_eq_left (sub_nonneg.mpr hxy)] at h
    injection h with h
    rw [if_neg Bool.false_ne_true, h]

omit [IsStrictOrderedRing K] in
/-- The range of the entering variable. -/
theorem Poised.range (hp : t.Poised j) (h : t.InPhaseOne) :
    t.plan.distance.UpTo (Scalar.larger (if t.plan.enteringFalls
      then fin (coord t.nonBasicValues j) - t.bounds.lowerOf (t.split.nonBasicVar j)
      else t.bounds.upperOf (t.split.nonBasicVar j) - fin (coord t.nonBasicValues j)) 0) := by
  obtain ⟨⟨range, hrange, hupTo⟩, -⟩ := hp.shortest
  obtain ⟨k, hk, -, rfl⟩ := enteringRange_spec h.steady.state hrange
  obtain rfl : j = k := Option.some.inj (hp.ready.entering.symm.trans hk)
  exact hupTo

/-- The way is a number that is not negative. -/
theorem Poised.exists_distance (hp : t.Poised j) (h : t.InPhaseOne) :
    ∃ d, t.plan.distance = fin d ∧ 0 ≤ d := by
  have hshort := hp.shortest
  rw [hp.falls] at hshort
  obtain ⟨d, hd⟩ := h.exists_distance hp.toHeading hshort
  obtain ⟨leaving, -, hstops⟩ := hp.aimed.stops
  rw [hd] at hstops
  exact ⟨d, hd, hstops.nonneg h.steady h.exact hp.ready.column.1⟩

/-- A jump goes as far as the test says, and ends within the bounds. -/
theorem Poised.jump (hp : t.Poised j) (h : t.InPhaseOne)
    (hl : t.plan.leaving = some .entering) {d y : K} (hd : t.plan.distance = fin d)
    (hnonneg : 0 ≤ d) (hahead : (if t.plan.enteringFalls
      then t.bounds.lowerOf (t.split.nonBasicVar j) else t.bounds.upperOf (t.split.nonBasicVar j))
        = fin y) :
    y - coord t.nonBasicValues j = (if t.plan.enteringFalls then -d else d)
      ∧ Within (t.bounds.lowerOf (t.split.nonBasicVar j))
          (t.bounds.upperOf (t.split.nonBasicVar j)) y := by
  have hv := h.steady.state.split.nonBasicVar_lt hp.ready.lt
  have hstart := h.within j hp.ready.lt
  obtain ⟨leaving, hleaving, hstops⟩ := hp.aimed.stops
  obtain rfl : .entering = leaving := Option.some.inj (hl.symm.trans hleaving)
  rw [hd] at hstops
  obtain ⟨k, hk, -, hrange⟩ := enteringRange_spec h.steady.state hstops
  obtain rfl : j = k := Option.some.inj (hp.ready.entering.symm.trans hk)
  have hjump := jump_eq hstart hahead hrange
  have hlimit := hp.range h
  rw [hd] at hlimit
  have hend := within_of_range hstart hnonneg (h.steady.state.bounds.lowerOf_lt hv)
    (h.steady.state.bounds.lt_upperOf hv) hlimit
  rw [← hjump, add_sub_cancel] at hend
  exact ⟨hjump, hend⟩

/-- The leaving variable lands where the move takes it, within its bounds, and the entering variable
    ends within its own. -/
theorem Poised.landed (hp : t.Poised j) (h : t.InPhaseOne) {d δ y : K} {i : Nat}
    (hi : i < t.rowCount) (hd : t.plan.distance = fin d) (hnonneg : 0 ≤ d)
    (hchange : t.change = fin δ)
    (hnear : |y - (coord t.basicValues i - coord t.plan.column i * δ)| ≤ |(0 : K)|)
    (hland : landing (t.toState.standing (fin 0) i) t.plan.leavingRises
      (t.bounds.lowerOf (t.split.basicVar i)) (t.bounds.upperOf (t.split.basicVar i)) = fin y) :
    δ = (if t.plan.enteringFalls then -d else d)
      ∧ Within (t.bounds.lowerOf (t.split.basicVar i)) (t.bounds.upperOf (t.split.basicVar i))
        (coord t.basicValues i - coord t.plan.column i * δ)
      ∧ Within (t.bounds.lowerOf (t.split.basicVar i)) (t.bounds.upperOf (t.split.basicVar i)) y
      ∧ Within (t.bounds.lowerOf (t.split.nonBasicVar j)) (t.bounds.upperOf (t.split.nonBasicVar j))
        (coord t.nonBasicValues j + δ) := by
  have hs := h.steady.state
  have hv := hs.split.nonBasicVar_lt hp.ready.lt
  have hv' := hs.split.basicVar_lt hi
  have hδ : δ = if t.plan.enteringFalls then -d else d := by
    have heq := (change_eq hd).symm.trans hchange
    injection heq with heq
    exact heq.symm
  have hin := within_of_eq (hs.bounds.lowerOf_lt hv') (hs.bounds.lt_upperOf hv')
    (onBound_of_landing hland) (hs.bounds.not_contradictory h.valid hv')
  have hy : y = coord t.basicValues i - coord t.plan.column i * δ := by
    rw [abs_zero] at hnear
    exact sub_eq_zero.mp (abs_nonpos_iff.mp hnear)
  have hlimit := hp.range h
  rw [hd] at hlimit
  have hend := within_of_range (h.within j hp.ready.lt) hnonneg (hs.bounds.lowerOf_lt hv)
    (hs.bounds.lt_upperOf hv) hlimit
  refine ⟨hδ, hy ▸ hin, hin, ?_⟩
  rw [hδ]
  exact hend

/-- **The pivot** lowers the sum of the violations by the way times the size of the reduced cost. -/
theorem Poised.sum_pivot (hp : t.Poised j) (h : t.InPhaseOne) {d : K} (hd : t.plan.distance = fin d)
    (hnonneg : 0 ≤ d) (hdone : t.performPivot = .ok u) :
    ∑ k ∈ Finset.range u.rowCount, u.excessAt k
      = ∑ k ∈ Finset.range t.rowCount, t.excessAt k - |coord t.pricing.costs j| * d := by
  have hshort := hp.shortest
  rw [hd, hp.falls] at hshort
  rw [← h.sum_followed hp.toHeading hnonneg hshort, ← hp.falls]
  cases performPivot_turns h.steady h.exact hp.aimed hdone with
  | ignored _ _ _ hfin => exact absurd (by rw [hd]; rfl) hfin
  | @jumped xs ss inverse y _ _ hc hahead hvalues hleaving =>
    obtain ⟨hjump, -⟩ := hp.jump h hleaving hd hnonneg hahead
    obtain ⟨_, _, rfl⟩ := hc
    refine Finset.sum_congr rfl fun k hk => ?_
    rw [← hjump, ← hvalues k (Finset.mem_range.mp hk)]
    rfl
  | @exchanged i δ y _ hx hnear hchange hland hvalues =>
    have hi := hx.row
    obtain ⟨hδ, hleaves, -, henters⟩ := hp.landed h hi hd hnonneg hchange hnear hland
    obtain ⟨xs, ss, inverse, pricing, -, _, _, rfl⟩ := hx.changes
    refine Finset.sum_congr rfl fun k hk => ?_
    rw [← hδ]
    show excess (t.bounds.lowerOf ((t.split.swapped j i).basicVar k))
      (t.bounds.upperOf ((t.split.swapped j i).basicVar k)) (coord xs k) = _
    rw [h.steady.state.split.basicVar_swapped hi, hvalues k (Finset.mem_range.mp hk)]
    by_cases hki : k = i
    · -- neither of the two that exchange their places violates a bound
      rw [if_pos hki, if_pos hki, hki, excess_of_within henters, excess_of_within hleaves]
    · rw [if_neg hki, if_neg hki]

/-- **Phase one goes on** after the pivot, with costs that fit if the row of the
    leaving variable does. -/
theorem Poised.pivot (hp : t.Poised j) (h : t.InPhaseOne) (hsolv : t.Solvable)
    (hrow : ∀ i row, t.plan.leaving = some (.basic i) → t.plan.row = some row → row.basicIndex = i →
      t.solvedRow i = .ok row) (hdone : t.performPivot = .ok u) : u.InPhaseOne := by
  obtain ⟨d, hd, hnonneg⟩ := hp.exists_distance h
  cases performPivot_turns h.steady h.exact hp.aimed hdone with
  | ignored _ _ _ hfin => exact absurd (by rw [hd]; rfl) hfin
  | @jumped xs ss inverse y hsteady _ hc hahead hvalues hleaving =>
    -- the entering variable stays non-basic, on its other bound
    obtain ⟨-, hend⟩ := hp.jump h hleaving hd hnonneg hahead
    obtain ⟨_, _, rfl⟩ := hc
    refine ⟨hsteady, h.exact, h.entryTolerance, h.columnTolerance, h.valid, fun l hl => ?_,
      ⟨h.prices.rule, fun hf => Bool.noConfusion hf⟩⟩
    show Within _ _ (coord (t.nonBasicValues.set j (fin y)) l)
    rw [coord_set (by rw [h.steady.state.nonBasic.length]; exact hp.ready.lt)]
    by_cases hlj : l = j
    · rw [if_pos hlj, hlj]
      exact hend
    · rw [if_neg hlj]
      exact h.within l hl
  | @exchanged i δ y hleaving hx hnear hchange hland hvalues =>
    -- the leaving variable takes its position, on the bound that it landed on
    have hi := hx.row
    have hsteady := hx.steady
    obtain ⟨-, -, hin, -⟩ := hp.landed h hi hd hnonneg hchange hnear hland
    obtain ⟨xs, ss, inverse, pricing, hprices, _, _, rfl⟩ := hx.changes
    have hlen : ss.length = t.rowCount := by
      have hst : ss = _ := hsteady.standings
      rw [hst, List.length_map, List.length_range]
      rfl
    refine ⟨hsteady, h.exact, h.entryTolerance, h.columnTolerance, h.valid, fun l hl => ?_,
      Repriced.prices hsolv h.prices hp.ready hi hx.pivot (fun row => hrow i row hleaving) (by rfl)
        (by rfl) hlen hprices⟩
    show Within (t.bounds.lowerOf ((t.split.swapped j i).nonBasicVar l))
      (t.bounds.upperOf ((t.split.swapped j i).nonBasicVar l))
      (coord (t.nonBasicValues.set j (fin y)) l)
    rw [h.steady.state.split.nonBasicVar_swapped hp.ready.lt,
      coord_set (by rw [h.steady.state.nonBasic.length]; exact hp.ready.lt)]
    by_cases hlj : l = j
    · rw [if_pos hlj, if_pos hlj]
      exact hin
    · rw [if_neg hlj, if_neg hlj]
      exact h.within l hl

end Move

end Tableau

end BoundedSimplex
