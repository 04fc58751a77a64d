/-
  BoundedSimplex.Proofs.Descent — a driver with the textbook test never raises the violation.

  In phase one an eligible variable enters, the textbook test says how far, and the pivot lowers the
  sum of the violations by that way times the size of the reduced cost.  Afterwards phase one goes
  on: the variables that are not basic are within their bounds, and costs that are not stale fit.
  So the sum of the violations does not rise in any number of iterations.

  The change columns are taken to have no entries that are too small for the test, for the rows of
  those would be passed over and could go anywhere.

  Main results:
    * `InPhaseOne.exists_standardPivot` — the test and the pivot;
    * `InPhaseOne.descends`, `InPhaseOne.search` — an iteration of the search, and all of them;
    * `infeasibility_of_pivots` — both, from costs that were just computed.
-/
import BoundedSimplex.Proofs.Driver
import BoundedSimplex.Proofs.Tableau.Following
import BoundedSimplex.Proofs.Tableau.Textbook
import Mathlib.Algebra.Field.Rat
import Mathlib.Algebra.Order.Ring.Rat

namespace BoundedSimplex.Tableau

open Extended

variable {K : Type} [Field K] [LinearOrder K] {t u v w : Tableau (Extended K)} {i j : Nat}

/-! ## §1.  Selections keep phase one -/

/-- Selections say nothing about phase one. -/
theorem InPhaseOne.replan {plan : PivotPlan (Extended K)} (h : t.InPhaseOne)
    (hw : Replans t w plan) :
    w.InPhaseOne := by
  have hsteady := hw.steady h.steady
  obtain ⟨_, _, rfl⟩ := hw
  exact ⟨hsteady, h.exact, h.entryTolerance, h.columnTolerance, h.valid, h.within, h.prices⟩

/-- The row of the leaving variable is no part of what the test settled for. -/
theorem Poised.withRow (hp : t.Poised j) (row : Option (SolvedRow (Extended K))) :
    Poised { t with plan := { t.plan with row } } j := by
  obtain ⟨haimed, hready⟩ := hp.aimed.withRow row
  exact ⟨⟨hp.current, hready hp.ready, hp.eligible, hp.counts⟩, haimed, hp.falls, hp.shortest⟩

/-- Neither is what is told. -/
theorem Silent.poised (h : Silent t u) (hp : t.Poised j) : u.Poised j := by
  have haimed := h.aimed hp.aimed
  have hready := h.ready hp.ready
  obtain ⟨_, _, rfl⟩ := h
  exact ⟨⟨hp.current, hready, hp.eligible, hp.counts⟩, haimed, hp.falls, hp.shortest⟩

section Ordered

variable [IsStrictOrderedRing K]

/-- **The textbook test** settles for a way. -/
theorem InPhaseOne.poised (h : t.InPhaseOne) (hj : t.Heading j) (hw : t.standardRatioTest = .ok w) :
    w.Poised j ∧ ∃ plan, Replans t w plan ∧ plan.row = t.plan.row := by
  have hn := hj.ready.column.1
  obtain ⟨hfalls, hshort⟩ := standardRatioTest_shortest hn hw
  obtain ⟨leaving, distance, falls, rfl, hstops⟩ := standardRatioTest_spec hn hw
  obtain ⟨haimed, hready⟩ := hj.ready.primed.aimed hstops
  obtain ⟨-, hpriced⟩ := h.prices.fresh hj.current
  have hdirection := hfalls.symm.trans (enteringFalls_spec hj.ready hpriced.reduced)
  exact ⟨⟨⟨hj.current, hready hj.ready, hj.eligible, hj.counts⟩, haimed, Except.ok.inj hdirection,
    hshort⟩, replans_concluded ⟨_, _, rfl⟩⟩

/-! ## §2.  One iteration -/

/-- The violation before and after a pivot whose way is a number. -/
theorem Poised.infeasibility (hp : t.Poised j) (h : t.InPhaseOne) {d : K}
    (hd : t.plan.distance = fin d) (hdone : t.performPivot = .ok u) :
    ∃ S, t.infeasibility = .ok (fin S)
      ∧ u.infeasibility = .ok (fin (S - |coord t.pricing.costs j| * d)) := by
  obtain ⟨d', hd', hnonneg⟩ := hp.exists_distance h
  obtain rfl : d = d' := by
    have heq := hd.symm.trans hd'
    injection heq
  obtain ⟨hsteady, hset, -⟩ := (performPivot_turns h.steady h.exact hp.aimed hdone).frame
  refine ⟨_, h.steady.infeasibility_eq h.exact, ?_⟩
  rw [hsteady.infeasibility_eq (hset ▸ h.exact), hp.sum_pivot h hd hnonneg hdone]

/-- **The test and the pivot** have outcomes: the way is a number, and the pivot lowers the sum of
    the violations by it times the size of the reduced cost, whether or not the row of the leaving
    variable is computed in between. -/
theorem InPhaseOne.exists_standardPivot {solved : Prop} {σ : Settings (Extended K)}
    (h : t.InPhaseOne) (ht : t.Shaped solved σ) (hsize : t.inverse.size = t.rowCount)
    (hc : t.Current) (hj : t.Heading j) :
    ∃ w d, t.standardRatioTest = .ok w ∧ w.plan.distance = fin d ∧ 0 ≤ d
      ∧ ∀ v, v = w ∨ w.computeRow = .ok v → ∃ u S, v.performPivot = .ok u
        ∧ t.infeasibility = .ok (fin S)
        ∧ u.infeasibility = .ok (fin (S - |coord t.pricing.costs j| * d)) := by
  have hb := h.steady.hasBasis
  have hcolumn := hj.ready.column.1.length
  have hσ : σ.PassesZeros := passesZeros_of_pos (ht.settings ▸ h.columnTolerance)
  obtain ⟨w, hw⟩ := exists_standardRatioTest ht hb hσ hcolumn hj.ready.entering
    (ht.costs hj.current)
  obtain ⟨hp, plan, hplan, -⟩ := h.poised hj hw
  obtain ⟨d, hd, hnonneg⟩ := hp.exists_distance (h.replan hplan)
  refine ⟨w, d, hw, hd, hnonneg, fun v hv => ?_⟩
  obtain ⟨row, u, rfl, hu⟩ := exists_performPivot_of_divides ht hb hsize (hc.knowsCosts ht hb)
    hj.ready.entering hcolumn (standardRatioTest_divides hw) hv
  have hphase : InPhaseOne { w with plan := { w.plan with row } } := by
    refine h.replan (show Replans t _ { w.plan with row } from ?_)
    obtain ⟨_, _, rfl⟩ := hplan
    exact ⟨_, _, rfl⟩
  obtain ⟨_, _, rfl⟩ := hplan
  obtain ⟨S, hS, hS'⟩ := (hp.withRow row).infeasibility hphase hd hu
  exact ⟨u, S, hu, hS, hS'⟩

/-! ## §3.  Iterations of a driver -/

omit [IsStrictOrderedRing K] in
/-- Costs that can be relied on. -/
theorem InPhaseOne.ensurePrices (h : t.InPhaseOne) (hsolv : t.Solvable)
    (hdone : t.ensurePrices = .ok u) : ∃ pricing, u = { t with pricing } ∧ pricing.stale = false
      ∧ InPhaseOne { t with pricing } := by
  have hlen : t.standings.length = t.rowCount := by
    rw [h.steady.standings, List.length_map, List.length_range]
  have hcurrent : u.pricing.stale = false := by
    unfold Tableau.ensurePrices at hdone
    split at hdone
    · exact stale_of_computePrices hdone
    · next hfresh =>
      cases hdone
      exact Bool.eq_false_iff.mpr hfresh
  obtain ⟨pricing, rfl, hfit⟩ := ensurePrices_spec hsolv hlen h.prices hdone
  exact ⟨pricing, rfl, hcurrent, ⟨⟨h.steady.state, h.steady.answers⟩, h.steady.standings,
    h.steady.hasBasis⟩, h.exact, h.entryTolerance, h.columnTolerance, h.valid, h.within, hfit⟩

omit [IsStrictOrderedRing K] in
/-- A candidate is eligible. -/
theorem isEligible_of_mem_candidates {js : List Nat} (h : t.candidates = .ok js)
    (hn : Numbers t.nonBasicCount t.pricing.costs) (hj : j ∈ js) :
    j < t.nonBasicCount ∧ t.isEligible j (fin (coord t.pricing.costs j)) = .ok true := by
  obtain ⟨_, -, h⟩ := Checked.bind_eq_ok.mp h
  obtain ⟨_, -, h⟩ := Checked.bind_eq_ok.mp h
  obtain ⟨judged, hjudged, h⟩ := Checked.bind_eq_ok.mp h
  cases h
  obtain ⟨⟨k, b⟩, hp, rfl⟩ := List.mem_map.mp hj
  obtain ⟨hp, htrue⟩ := List.mem_filter.mp hp
  obtain ⟨⟨c, l⟩, hentry, hpair⟩ := Checked.exists_of_mem_mapM hjudged hp
  obtain ⟨_, hb, hpair⟩ := Checked.bind_eq_ok.mp hpair
  cases hpair
  obtain rfl : b = true := htrue
  have hget : t.pricing.costs[k]? = some c := List.mem_zipIdx_iff_getElem?.mp hentry
  have hlt : k < t.nonBasicCount := by
    rw [← hn.length]
    exact (List.getElem?_eq_some_iff.mp hget).1
  rw [hn.getElem? hlt] at hget
  cases hget
  exact ⟨hlt, hb⟩

omit [IsStrictOrderedRing K] in
/-- A rule that found a variable selected an eligible one. -/
theorem chooseEntering_spec {rule next : EnteringRule}
    (h : t.chooseEntering rule = .ok (true, next, u))
    (hn : Numbers t.nonBasicCount t.pricing.costs) :
    ∃ j, u = { t with plan := { t.plan with entering := some j } } ∧ j < t.nonBasicCount
      ∧ t.isEligible j (fin (coord t.pricing.costs j)) = .ok true := by
  obtain ⟨js, hjs, h⟩ := Checked.bind_eq_ok.mp h
  obtain ⟨⟨chosen, next'⟩, hchosen, h⟩ := Checked.bind_eq_ok.mp h
  cases chosen with
  | none => cases h
  | some j =>
    obtain ⟨w, hw, h⟩ := Checked.bind_eq_ok.mp h
    cases h
    obtain ⟨-, rfl⟩ := selectEntering_spec hw
    exact ⟨j, rfl, isEligible_of_mem_candidates hjs hn (EnteringRule.mem_of_choose hchosen)⟩

/-- A row on record is the one of its basic variable. -/
def RowKnown (t : Tableau (Extended K)) : Prop :=
  ∀ row, t.plan.row = some row → t.solvedRow row.basicIndex = .ok row

/-- What an iteration by a rule relies on: the inverse is that of the basis, and all of the change
    column of the variable that enters counts. -/
structure Measured (t : Tableau (Extended K)) (rule : EnteringRule) : Prop where
  solvable : t.Solvable
  counts : ∀ a next b c, t.ensurePrices = .ok a → a.chooseEntering rule = .ok (true, next, b) →
    b.computeColumn = .ok c → c.ColumnCounts

omit [IsStrictOrderedRing K] in
/-- Selecting the leaving variable by the textbook test. -/
theorem standardRatioTest_of_chooseLeaving (hstandard : t.settings.useHarris = false)
    (h : t.chooseLeaving = .ok u) : ∃ w, t.standardRatioTest = .ok w ∧ Silent w u := by
  obtain ⟨_, -, h⟩ := Checked.bind_eq_ok.mp h
  rw [if_neg (by rw [hstandard]; exact Bool.false_ne_true)] at h
  obtain ⟨w, hw, h⟩ := Checked.bind_eq_ok.mp h
  obtain ⟨_, -, h⟩ := Checked.bind_eq_ok.mp h
  obtain ⟨_, -, h⟩ := Checked.bind_eq_ok.mp h
  cases h
  exact ⟨w, hw, silent_remark _ _⟩

omit [IsStrictOrderedRing K] in
/-- Before the test of an iteration everything is in place. -/
theorem InPhaseOne.heading (h : t.InPhaseOne) (hsolv : t.Solvable)
    (hcurrent : t.pricing.stale = false) {rule next : EnteringRule}
    (hu : t.chooseEntering rule = .ok (true, next, u)) (hw : u.computeColumn = .ok w)
    (hcounts : w.ColumnCounts) :
    ∃ j plan, w = { t with plan } ∧ plan.row = t.plan.row ∧ w.Heading j := by
  obtain ⟨-, hpriced⟩ := h.prices.fresh hcurrent
  obtain ⟨j, rfl, -, heligible⟩ := chooseEntering_spec hu hpriced.reduced
  have hsolv' : Solvable { t with plan := { t.plan with entering := some j } } :=
    ⟨hsolv.state, hsolv.unit, hsolv.inverse⟩
  obtain ⟨column, j', rfl, hprimed, hready⟩ := computeColumn_spec hsolv'.answering hw
  obtain rfl : j = j' := Option.some.inj hprimed.entering
  exact ⟨j, _, rfl, rfl, hcurrent, hready hsolv', heligible, hcounts⟩

omit [IsStrictOrderedRing K] in
/-- The parts of the second half of an iteration.  The row of the leaving variable is computed if it
    is wanted and there is one. -/
theorem of_leaveAndPivot {withRow : Bool} {x : Iteration (Extended K)}
    (h : t.leaveAndPivot withRow = .ok (x, u)) : ∃ c d e, t.computeColumn = .ok c
      ∧ c.chooseLeaving = .ok d ∧ d.iteration = .ok x
      ∧ (e = d ∧ (withRow = true → d.isFake = true) ∨ d.computeRow = .ok e)
      ∧ e.performPivot = .ok u := by
  obtain ⟨c, hc, h⟩ := Checked.bind_eq_ok.mp h
  obtain ⟨d, hd, h⟩ := Checked.bind_eq_ok.mp h
  obtain ⟨_, hx, h⟩ := Checked.bind_eq_ok.mp h
  by_cases hwith : (withRow && !d.isFake) = true
  · rw [if_pos hwith] at h
    obtain ⟨e, he, h⟩ := Checked.bind_eq_ok.mp h
    obtain ⟨_, hu, h⟩ := Checked.bind_eq_ok.mp h
    cases h
    exact ⟨c, d, e, hc, hd, hx, .inr he, hu⟩
  · rw [if_neg hwith] at h
    obtain ⟨_, hd', h⟩ := Checked.bind_eq_ok.mp h
    cases hd'
    obtain ⟨_, hu, h⟩ := Checked.bind_eq_ok.mp h
    cases h
    exact ⟨c, d, d, hc, hd, hx, .inl ⟨rfl, fun hrow => by simpa [hrow] using hwith⟩, hu⟩

/-- The second half of an iteration: the test, the row of the leaving variable, and the pivot. -/
theorem InPhaseOne.iterate (h : t.InPhaseOne) (hsolv : t.Solvable) (hj : t.Heading j)
    (hstandard : t.settings.useHarris = false) (hv : t.chooseLeaving = .ok v)
    (hw : w = v ∧ (t.RowKnown ∨ v.isFake = true) ∨ v.computeRow = .ok w)
    (hdone : w.performPivot = .ok u) : u.InPhaseOne ∧ u.plan = .none ∧ u.settings = t.settings
      ∧ v.infeasibility = t.infeasibility
      ∧ ∃ S S', t.infeasibility = .ok (fin S) ∧ u.infeasibility = .ok (fin S') ∧ S' ≤ S := by
  obtain ⟨a, ha, hsilent⟩ := standardRatioTest_of_chooseLeaving hstandard hv
  obtain ⟨hp, plan, hplan, hkept⟩ := h.poised hj ha
  have hp := hsilent.poised hp
  have hplan : Replans t v plan := Silent.trans hplan hsilent
  -- an exchange finds the row of this basis, if it finds one
  obtain ⟨row, rfl, hknown⟩ : ∃ row, w = { v with plan := { v.plan with row } }
      ∧ ∀ i r, v.plan.leaving = some (.basic i) → row = some r → r.basicIndex = i →
        t.solvedRow i = .ok r := by
    rcases hw with ⟨rfl, hrow⟩ | hw
    · refine ⟨w.plan.row, rfl, fun i r hl hr hi => ?_⟩
      rcases hrow with hrow | hfake
      · rw [← hi]
        refine hrow r ?_
        rw [← hkept, ← hplan.plan]
        exact hr
      · rw [isFake, hl] at hfake
        exact absurd hfake (by simp)
    · obtain ⟨i, row, -, hsolved, rfl⟩ := computeRow_spec hw
      rw [hplan.solvedRow] at hsolved
      refine ⟨some row, rfl, fun k r _ hr hk => ?_⟩
      cases hr
      rw [← hk, index_of_solvedRow hsolved]
      exact hsolved
  have hreplan : Replans t { v with plan := { v.plan with row } } { v.plan with row } := by
    obtain ⟨_, _, rfl⟩ := hplan
    exact ⟨_, _, rfl⟩
  have hphase := h.replan hreplan
  have hp := hp.withRow row
  have hturns := performPivot_turns hphase.steady hphase.exact hp.aimed hdone
  have hnext : u.InPhaseOne := hp.pivot hphase (hreplan.solvable hsolv)
    (fun i r hl hr hi => by
      rw [hreplan.solvedRow]
      exact hknown i r hl hr hi) hdone
  obtain ⟨d, hd, hnonneg⟩ := hp.exists_distance hphase
  obtain ⟨S, hS, hS'⟩ := hp.infeasibility hphase hd hdone
  obtain ⟨-, hset, -⟩ := hturns.frame
  obtain ⟨_, _, rfl⟩ := hplan
  exact ⟨hnext, hturns.plan, hset, rfl, S, _, hS, hS',
    sub_le_self S (mul_nonneg (abs_nonneg _) hnonneg)⟩

omit [IsStrictOrderedRing K] in
/-- An iteration records the violation that it starts from. -/
theorem infeasibility_of_iteration {x : Iteration (Extended K)} (h : t.iteration = .ok x) :
    t.infeasibility = .ok x.infeasibility := by
  obtain ⟨_, -, h⟩ := Checked.bind_eq_ok.mp h
  obtain ⟨_, -, h⟩ := Checked.bind_eq_ok.mp h
  obtain ⟨_, hx, h⟩ := Checked.bind_eq_ok.mp h
  cases h
  exact hx

variable {withRow : Bool} {rule next : EnteringRule}

/-- **An iteration does not raise the violation**, and phase one goes on. -/
theorem InPhaseOne.descends (h : t.InPhaseOne) (hstandard : t.settings.useHarris = false)
    (hm : t.Measured rule) (hrow : withRow = true ∨ t.RowKnown) {a b : Tableau (Extended K)}
    {x : Iteration (Extended K)} (hpriced : t.ensurePrices = .ok a)
    (hentered : a.chooseEntering rule = .ok (true, next, b))
    (hdone : b.leaveAndPivot withRow = .ok (x, u)) :
    u.InPhaseOne ∧ u.plan = .none ∧ u.settings = t.settings
      ∧ ∃ S S', t.infeasibility = .ok (fin S) ∧ x.infeasibility = fin S
        ∧ u.infeasibility = .ok (fin S') ∧ S' ≤ S := by
  have hcounts := hm.counts a next b
  obtain ⟨pricing, rfl, hcurrent, hphase⟩ := h.ensurePrices hm.solvable hpriced
  have hsolv := hm.solvable
  obtain ⟨c, d, e, hc, hd, hx, he, hu⟩ := of_leaveAndPivot hdone
  obtain ⟨j, plan, rfl, hkept, hj⟩ :=
    hphase.heading ⟨hsolv.state, hsolv.unit, hsolv.inverse⟩ hcurrent
    hentered hc (hcounts c hpriced hentered hc)
  -- a row left over from before belongs to this basis, or nothing is exchanged
  have he : e = d ∧ (RowKnown { t with pricing, plan } ∨ d.isFake = true)
    ∨ d.computeRow = .ok e := by
    rcases he with ⟨rfl, hfake⟩ | he
    · refine .inl ⟨rfl, ?_⟩
      rcases hrow with hrow | hrow
      · exact .inr (hfake hrow)
      · exact .inl fun row hplan => hrow row (hkept ▸ hplan)
    · exact .inr he
  obtain ⟨hnext, hplan, hset, hsame, S, S', hS, hS', hle⟩ :=
    (hphase.replan (replans_of_plan _ plan)).iterate
    ⟨hsolv.state, hsolv.unit, hsolv.inverse⟩ hj hstandard hd he hu
  refine ⟨hnext, hplan, hset, S, S', hS, ?_, hS', hle⟩
  exact Except.ok.inj ((infeasibility_of_iteration hx).symm.trans (hsame.trans hS))

/-! ## §4.  A whole search -/

section Search

omit [IsStrictOrderedRing K]

/-- Wherever an iteration of the search starts, everything that it relies on is in place. -/
def Measures (t : Tableau (Extended K)) (withRow : Bool) (rule : EnteringRule) : Prop :=
  ∀ limit result, t.search withRow limit rule = .ok result → result.verdict = .iterationLimit →
    result.tableau.existsOutOfBounds = true → result.tableau.Measured result.rule

/-- The sums of the violations that the iterations of a search record, and the
    last one, do not rise. -/
def FallsFrom (S : K) (result : SearchResult (Extended K)) : Prop :=
  ∃ sums last, result.trace.map Iteration.infeasibility = sums.map fin
    ∧ result.tableau.infeasibility = .ok (fin last) ∧ (S :: (sums ++ [last])).Pairwise (· ≥ ·)

/-- A search without iterations changes nothing. -/
theorem FallsFrom.of_nil {S : K} {result : SearchResult (Extended K)} (ht : result.trace = [])
    (h : result.tableau.infeasibility = .ok (fin S)) : FallsFrom S result :=
  ⟨[], S, by rw [ht]; rfl, h, by simp⟩

/-- One more iteration before the others. -/
theorem FallsFrom.cons {S S' : K} {result : SearchResult (Extended K)} (h : FallsFrom S' result)
    (hle : S' ≤ S) {x : Iteration (Extended K)} (hx : x.infeasibility = fin S) :
    FallsFrom S { result with trace := x :: result.trace } := by
  obtain ⟨sums, last, htrace, hlast, hfalls⟩ := h
  obtain ⟨hbelow, htail⟩ := List.pairwise_cons.mp hfalls
  have hbelow (y : K) (hy : y ∈ sums ++ [last]) : S ≥ y := (hbelow y hy).trans hle
  refine ⟨S :: sums, last, ?_, hlast, List.pairwise_cons.mpr ⟨fun y hy => ?_, ?_⟩⟩
  · rw [List.map_cons, List.map_cons, htrace, hx]
  · rcases List.mem_cons.mp hy with rfl | hy
    · exact le_rfl
    · exact hbelow y hy
  · exact List.pairwise_cons.mpr ⟨hbelow, htail⟩

/-- A search after its first iteration is a search. -/
theorem search_cons {a b : Tableau (Extended K)} {x : Iteration (Extended K)}
    (hout : t.existsOutOfBounds = true) (hpriced : t.ensurePrices = .ok a)
    (hentered : a.chooseEntering rule = .ok (true, next, b))
    (hdone : b.leaveAndPivot withRow = .ok (x, u)) {limit : Nat}
    {result : SearchResult (Extended K)} (hrest : u.search withRow limit next = .ok result) :
    t.search withRow (limit + 1) rule = .ok { result with trace := x :: result.trace } := by
  unfold search
  rw [if_pos hout, hpriced, Checked.ok_bind, hentered, Checked.ok_bind]
  show (b.leaveAndPivot withRow >>= _) = _
  rw [hdone, Checked.ok_bind]
  show (u.search withRow limit next >>= _) = _
  rw [hrest]
  rfl

/-- The parts of a search that has iterations left: it ends, or an iteration comes first. -/
theorem of_search_succ {limit : Nat} {result : SearchResult (Extended K)}
    (h : t.search withRow (limit + 1) rule = .ok result) :
    result = ⟨.feasible, [], rule, t⟩
      ∨ t.existsOutOfBounds = true ∧ ∃ a, t.ensurePrices = .ok a
        ∧ ((∃ next, result = ⟨.infeasible, [], next, a⟩)
          ∨ ∃ next b x u rest, a.chooseEntering rule = .ok (true, next, b)
            ∧ b.leaveAndPivot withRow = .ok (x, u) ∧ u.search withRow limit next = .ok rest
            ∧ result = { rest with trace := x :: rest.trace }) := by
  unfold search at h
  by_cases hout : t.existsOutOfBounds = true
  · rw [if_pos hout] at h
    obtain ⟨a, ha, h⟩ := Checked.bind_eq_ok.mp h
    obtain ⟨⟨found, next, b⟩, hb, h⟩ := Checked.bind_eq_ok.mp h
    refine .inr ⟨hout, a, ha, ?_⟩
    cases found with
    | true =>
      obtain ⟨⟨x, u⟩, hu, h⟩ := Checked.bind_eq_ok.mp h
      obtain ⟨rest, hrest, h⟩ := Checked.bind_eq_ok.mp h
      cases h
      exact .inr ⟨next, b, x, u, rest, hb, hu, hrest, rfl⟩
    | false =>
      -- a rule that finds no variable selects none
      obtain ⟨js, -, hb⟩ := Checked.bind_eq_ok.mp hb
      obtain ⟨⟨chosen, next'⟩, -, hb⟩ := Checked.bind_eq_ok.mp hb
      cases h
      cases chosen with
      | some j =>
        obtain ⟨_, -, hb⟩ := Checked.bind_eq_ok.mp hb
        cases hb
      | none =>
        cases hb
        exact .inl ⟨_, rfl⟩
  · rw [if_neg hout] at h
    cases h
    exact .inl rfl

/-- What the first iteration leads to. -/
theorem Measures.tail (h : t.Measures withRow rule) {a b : Tableau (Extended K)}
    {x : Iteration (Extended K)} (hout : t.existsOutOfBounds = true)
    (hpriced : t.ensurePrices = .ok a) (hentered : a.chooseEntering rule = .ok (true, next, b))
    (hdone : b.leaveAndPivot withRow = .ok (x, u)) : u.Measures withRow next :=
  fun limit result hrest =>
    h (limit + 1) { result with trace := x :: result.trace }
      (search_cons hout hpriced hentered hdone hrest)

/-- What the first iteration relies on, and what the others do. -/
theorem Measures.cons {a b : Tableau (Extended K)} {x : Iteration (Extended K)}
    (hm : t.Measured rule) (hpriced : t.ensurePrices = .ok a)
    (hentered : a.chooseEntering rule = .ok (true, next, b))
    (hdone : b.leaveAndPivot withRow = .ok (x, u)) (h : u.Measures withRow next) :
    t.Measures withRow rule := by
  intro limit result hsearch hverdict hout
  cases limit with
  | zero =>
    cases hsearch
    exact hm
  | succ limit =>
    rcases of_search_succ hsearch with rfl | ⟨-, a', ha, hcase⟩
    · cases hverdict
    rcases hcase with ⟨_, rfl⟩ | ⟨_, _, _, _, rest, hb, hu, hrest, rfl⟩
    · cases hverdict
    · cases hpriced.symm.trans ha
      cases hentered.symm.trans hb
      cases hdone.symm.trans hu
      exact h limit rest hrest hverdict hout

/-- Nothing is left to do. -/
theorem measures_of_feasible (h : t.existsOutOfBounds = false) : t.Measures withRow rule := by
  intro limit result hdone hverdict hout
  cases limit with
  | zero =>
    cases hdone
    exact Bool.noConfusion (h.symm.trans hout)
  | succ limit =>
    rcases of_search_succ hdone with rfl | ⟨hout', -⟩
    · cases hverdict
    · exact Bool.noConfusion (h.symm.trans hout')

end Search

/-- **The violation does not rise** in any number of iterations. -/
theorem InPhaseOne.search (h : t.InPhaseOne) (hstandard : t.settings.useHarris = false)
    (hrow : withRow = true ∨ t.RowKnown) (hm : t.Measures withRow rule) {limit : Nat}
    {result : SearchResult (Extended K)} (hdone : t.search withRow limit rule = .ok result) :
    ∃ S, t.infeasibility = .ok (fin S) ∧ FallsFrom S result := by
  have hstart := h.steady.infeasibility_eq h.exact
  -- on the iterations that are left: `descends` is the step
  induction limit generalizing t rule result with
  | zero =>
    cases hdone
    exact ⟨_, hstart, .of_nil rfl hstart⟩
  | succ limit ih =>
    rcases of_search_succ hdone with rfl | ⟨hout, a, ha, hcase⟩
    · exact ⟨_, hstart, .of_nil rfl hstart⟩
    rcases hcase with ⟨next, rfl⟩ | ⟨next, b, x, u, rest, hb, hu, hrest, rfl⟩
    · have hsolv := (hm 0 _ rfl rfl hout).solvable
      obtain ⟨pricing, rfl, -⟩ := h.ensurePrices hsolv ha
      exact ⟨_, hstart, .of_nil rfl hstart⟩
    · obtain ⟨hnext, hplan, hset, S, S', hS, hx, hS', hle⟩ :=
        h.descends hstandard (hm 0 _ rfl rfl hout) hrow ha hb hu
      -- nothing is left over from a pivot
      have hrow' : withRow = true ∨ u.RowKnown := .inr fun row hr => by
        rw [hplan] at hr
        cases hr
      obtain ⟨S'', hS'', hfalls⟩ := ih hnext (by rw [hset]; exact hstandard) hrow'
        (hm.tail hout ha hb hu) hrest (hnext.steady.infeasibility_eq hnext.exact)
      obtain rfl : S' = S'' := by
        have heq := Except.ok.inj (hS'.symm.trans hS'')
        injection heq
      exact ⟨S, hS, hfalls.cons hle hx⟩

/-- A tableau in phase one whose costs were just computed. -/
structure AtOutset (t : Tableau (Extended K)) : Prop where
  operable : t.Operable t.settings
  sound : t.Sound
  exact : t.settings.boundTolerance = fin 0
  entryTolerance : 0 < t.settings.entryTolerance
  columnTolerance : 0 < t.settings.columnTolerance
  valid : t.bounds.allValid = true
  within : ∀ j < t.nonBasicCount, Within (t.bounds.lowerOf (t.split.nonBasicVar j))
    (t.bounds.upperOf (t.split.nonBasicVar j)) (coord t.nonBasicValues j)
  rule : t.pricing.rule = .infeasibility
  computed : t.computePrices = .ok t

omit [IsStrictOrderedRing K] in
/-- A tableau at the outset of phase one is in it. -/
theorem AtOutset.inPhaseOne (h : t.AtOutset) : t.InPhaseOne := by
  obtain ⟨_, -, hcomputed⟩ := Checked.bind_eq_ok.mp h.computed
  obtain ⟨pricing, hcompute, hsame⟩ := Checked.bind_eq_ok.mp hcomputed
  obtain rfl : pricing = t.pricing := congrArg Tableau.pricing (Except.ok.inj hsame)
  have hlen : t.standings.length = t.rowCount := by
    rw [h.sound.standings, List.length_map, List.length_range]
  obtain ⟨-, hfit⟩ := compute_spec h.sound.toSolvable hlen h.rule hcompute
  exact ⟨h.sound.steady, h.exact, h.entryTolerance, h.columnTolerance, h.valid, h.within,
    ⟨h.rule, fun _ => hfit⟩⟩

/-- A start that was accepted puts phase one at its outset, if the bounds are to be compared exactly
    and do not contradict each other. -/
theorem atOutset_of_startFrom (ht : t.Configured) {vs : List Nat}
    (hu : t.startFrom vs = .ok (.ok (), u)) (hexact : t.settings.boundTolerance = fin 0)
    (hentry : 0 < t.settings.entryTolerance) (hcolumn : 0 < t.settings.columnTolerance)
    (hvalid : t.bounds.allValid = true) (hrule : t.pricing.rule = .infeasibility) : u.AtOutset := by
  have hstarted := startFrom_spec ht.prepared hu
  have hs := hstarted.sound.state
  obtain ⟨pricing, hp, hcompute⟩ := hstarted.priced
  have hlen : u.standings.length = u.rowCount := by
    rw [hstarted.sound.standings, List.length_map, List.length_range]
  obtain ⟨hrule', -⟩ := compute_spec hstarted.sound.toSolvable hlen (hp.trans hrule) hcompute
  -- all that a computation reads of the costs before is where they come from
  have hcompute' : u.pricing.compute u.pricingView = .ok u.pricing := by
    rw [← hcompute]
    unfold Pricing.compute
    rw [hrule', hp, hrule]
  refine ⟨Initialized.operable ⟨t, ht.operated, .inr ⟨vs, hu⟩⟩, hstarted.sound,
    by rw [hstarted.settings]; exact hexact, by rw [hstarted.settings]; exact hentry,
    by rw [hstarted.settings]; exact hcolumn, by rw [hstarted.bounds]; exact hvalid, fun j hj => ?_,
    hrule', ?_⟩
  · rw [hstarted.values j hj]
    have hv := hs.split.nonBasicVar_lt hj
    exact hs.bounds.within_startOf hv
      (hs.bounds.not_contradictory (by rw [hstarted.bounds]; exact hvalid) hv)
  · unfold computePrices requireBasis
    rw [Checked.require, if_pos hstarted.sound.hasBasis, Checked.ok_bind, hcompute']
    rfl

omit [IsStrictOrderedRing K] in
/-- Once a rule has selected a variable to enter and its change column was computed, everything is
    in place for the test. -/
theorem AtOutset.measured (h : t.AtOutset) {b c : Tableau (Extended K)}
    (hb : t.chooseEntering rule = .ok (true, next, b)) (hc : b.computeColumn = .ok c)
    (hcounts : c.ColumnCounts) : c.AtOutset ∧ ∃ j, c.Heading j := by
  have hcurrent := stale_of_computePrices h.computed
  have hcosts : Standing.CostsApart (Extended K) := fun _ _ hsame => eq_of_same hsame
  have hdriven : Driven t .measured c := by
    have hselect : t.perform (.chooseEntering rule) = .ok (.selected true next, b) :=
      Checked.bind_eq_ok.mpr ⟨_, hb, rfl⟩
    have hmeasure : b.perform .computeColumn = .ok (.done, c) := Checked.bind_eq_ok.mpr ⟨_, hc, rfl⟩
    have hentered : Driven t .entered b :=
      Driven.begun.asked (.chooseEntering rule hcurrent) (fun _ _ h => by cases h) hselect
    exact hentered.asked .computeColumn (fun _ _ h => by cases h) hmeasure
  obtain ⟨hoperable, -⟩ := hdriven.invariant hcosts h.operable
  obtain ⟨j, plan, rfl, -, hj⟩ := h.inPhaseOne.heading h.sound.toSolvable hcurrent hb hc hcounts
  refine ⟨⟨hoperable, ⟨⟨h.sound.state, h.sound.unit, h.sound.inverse⟩, h.sound.standings,
    h.sound.hasBasis⟩, h.exact, h.entryTolerance, h.columnTolerance, h.valid, h.within, h.rule, ?_⟩,
    j, hj⟩
  obtain ⟨_, hbasis, hcomputed⟩ := Checked.bind_eq_ok.mp h.computed
  obtain ⟨pricing, hcompute, hsame⟩ := Checked.bind_eq_ok.mp hcomputed
  refine Checked.bind_eq_ok.mpr ⟨_, hbasis, Checked.bind_eq_ok.mpr ⟨pricing, hcompute, ?_⟩⟩
  obtain rfl : pricing = t.pricing := congrArg Tableau.pricing (Except.ok.inj hsame)
  rfl

/-- **Progress of phase one.**  With an eligible variable about to enter and a change column
    that counts, the textbook test settles for a way that is a number, and the pivot lowers the
    sum of the violations by exactly this way times the size of the reduced cost.  So the sum
    does not rise in a search. -/
theorem infeasibility_of_pivots (h : t.AtOutset) :
    (∀ j, t.Ready j → t.isEligible j (fin (coord t.pricing.costs j)) = .ok true → t.ColumnCounts →
      ∃ w d, t.standardRatioTest = .ok w ∧ w.plan.distance = fin d ∧ 0 ≤ d
        ∧ ∀ v, v = w ∨ w.computeRow = .ok v → ∃ u S, v.performPivot = .ok u
          ∧ t.infeasibility = .ok (fin S)
          ∧ u.infeasibility = .ok (fin (S - |coord t.pricing.costs j| * d)))
    ∧ (t.settings.useHarris = false → ∀ withRow rule, withRow = true ∨ t.RowKnown →
      t.Measures withRow rule → ∀ limit, ∃ result S, t.search withRow limit rule = .ok result
        ∧ t.infeasibility = .ok (fin S) ∧ FallsFrom S result) := by
  have hphase := h.inPhaseOne
  have hcurrent := stale_of_computePrices h.computed
  constructor
  · intro j hready heligible hcounts
    exact hphase.exists_standardPivot h.operable.shaped h.operable.size h.operable.current
      ⟨hcurrent, hready, heligible, hcounts⟩
  · intro hstandard withRow rule hrow hmeasures limit
    have hcosts : Standing.CostsApart (Extended K) := fun _ _ hsame => eq_of_same hsame
    obtain ⟨result, hresult, -⟩ :=
      exists_search hcosts (passesZeros_of_pos h.columnTolerance) withRow limit rule h.operable
    obtain ⟨S, hS, hfalls⟩ := hphase.search hstandard hrow hmeasures hresult
    exact ⟨result, S, hresult, hS, hfalls⟩

end Ordered

/-- In `x + y = 1` and `x + z = 5` with `z ≤ 3` the variable `x` enters with the reduced cost `-1`,
    until `z` is within its bounds. -/
theorem infeasibility_of_first_pivot : ∃ t c : Tableau (Extended ℚ), t.AtOutset ∧ c.AtOutset
    ∧ (∃ w u d, c.Ready 0 ∧ c.standardRatioTest = .ok w ∧ w.plan.distance = fin d ∧ 0 ≤ d
      ∧ w.performPivot = .ok u ∧ c.infeasibility = .ok (fin 2)
      ∧ u.infeasibility = .ok (fin (2 - 1 * d)))
    ∧ ∃ result, t.Measures true .first ∧ t.search true 9 .first = .ok result
      ∧ result.verdict = .feasible ∧ FallsFrom 2 result := by
  have hrun : (do
      let t ← (create (α := Extended ℚ) { boundTolerance := 0, useHarris := false }).run
        [.setSize 2 3, .setCoefficients [fin 1, fin 1, fin 0, fin 1, fin 0, fin 1],
        .setRightHandSide [fin 1, fin 5], .setLower 0 (fin 0), .setUpper 0 (fin 10),
        .setLower 1 (fin (-10)), .setUpper 1 (fin 10), .setLower 2 (fin 0), .setUpper 2 (fin 3)]
      let (r, s) ← t.startFrom [1, 2]
      let (found, next, b) ← s.chooseEntering .first
      let c ← b.computeColumn
      let (_, u) ← b.leaveAndPivot true
      let result ← s.search true 9 .first
      Checked.require (r = Except.ok () ∧ t.settings.boundTolerance = fin 0
        ∧ 0 < t.settings.entryTolerance ∧ 0 < t.settings.columnTolerance ∧ t.bounds.allValid = true
        ∧ t.pricing.records = false ∧ found = true ∧ c.plan.entering = some 0
        ∧ u.existsOutOfBounds = false ∧ c.ColumnCounts ∧ coord c.pricing.costs 0 = -1
        ∧ s.infeasibility = Except.ok (fin 2) ∧ c.infeasibility = Except.ok (fin 2)
        ∧ result.verdict = Verdict.feasible ∧ s.settings.useHarris = false) .inconsistent)
      = .ok () := by
    decide +kernel
  obtain ⟨t, ht, hrun⟩ := Checked.bind_eq_ok.mp hrun
  obtain ⟨⟨r, s⟩, hs, hrun⟩ := Checked.bind_eq_ok.mp hrun
  obtain ⟨⟨found, next, b⟩, hb, hrun⟩ := Checked.bind_eq_ok.mp hrun
  obtain ⟨c, hc, hrun⟩ := Checked.bind_eq_ok.mp hrun
  obtain ⟨⟨x, u⟩, hu, hrun⟩ := Checked.bind_eq_ok.mp hrun
  obtain ⟨result, hresult, hrun⟩ := Checked.bind_eq_ok.mp hrun
  obtain ⟨rfl, hτ, hentry, hcolumn, hvalid, hrule, rfl, hentering, hfeasible, hcounts,
    hcost, hbefore, hS, hverdict, hstandard⟩ := Checked.require_eq_ok.mp hrun
  have hconf : t.Configured := (Configured.created _).run (by decide +kernel) ht
  -- the theorem is applied to the state after the start, and to the one that knows its column
  have h : s.AtOutset := atOutset_of_startFrom hconf hs hτ hentry hcolumn hvalid
    (Pricing.rule_of_records hrule)
  obtain ⟨hout, j, hj⟩ := h.measured hb hc hcounts
  obtain rfl : j = 0 := Option.some.inj (hj.ready.entering.symm.trans hentering)
  have hensured : s.ensurePrices = .ok s := by
    unfold ensurePrices
    rw [stale_of_computePrices h.computed]
    rfl
  have hmeasures : s.Measures true .first := by
    refine .cons ⟨h.sound.toSolvable, fun a next' b' c' ha hb' hc' => ?_⟩ hensured hb hu
      (measures_of_feasible hfeasible)
    cases hensured.symm.trans ha
    cases hb.symm.trans hb'
    cases hc.symm.trans hc'
    exact hcounts
  obtain ⟨w, d, hw, hd, hnonneg, hpivot⟩ :=
    (infeasibility_of_pivots hout).1 0 hj.ready hj.eligible hcounts
  obtain ⟨u', S, hu', hS', hdone⟩ := hpivot w (.inl rfl)
  obtain ⟨result', S', hresult', hS'', hfalls⟩ :=
    (infeasibility_of_pivots h).2 hstandard true .first (.inl rfl) hmeasures 9
  obtain rfl : S = 2 := Extended.fin.inj (Except.ok.inj (hS'.symm.trans hS))
  obtain rfl : S' = 2 := Extended.fin.inj (Except.ok.inj (hS''.symm.trans hbefore))
  obtain rfl : result' = result := Except.ok.inj (hresult'.symm.trans hresult)
  -- the price of the entering variable is `-1`, so the infeasibility falls by the step itself
  rw [hcost, abs_neg, abs_one] at hdone
  exact ⟨s, c, h, hout, ⟨w, u', d, hj.ready, hw, hd, hnonneg, hu', hS, hdone⟩, result', hmeasures,
    hresult, hverdict, hfalls⟩

end BoundedSimplex.Tableau
