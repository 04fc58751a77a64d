/-
  BoundedSimplex.Proofs.Verdict — both verdicts of phase one are right.

  A search starts with a basis that was accepted and goes on with iterations: prices are computed, a
  variable enters, one leaves, and the pivot is performed.  In between, bounds may be tightened but
  not loosened.  Bounds are compared exactly.

  Two things are kept that a sound tableau does not have in general: a variable that is not basic
  stays within its bounds as long as these do not contradict each other, and costs that are not
  stale are those of the present standings.

  Main results:
    * `Search.inv` — every state of every search keeps both;
    * `verdict_of_search` — without a violated bound the values are a solution, and without a
      candidate there is none.
-/
import BoundedSimplex.PhaseOne
import BoundedSimplex.Proofs.Home
import BoundedSimplex.Proofs.Tableau.Optimality
import Mathlib.Algebra.Field.Rat
import Mathlib.Algebra.Order.Ring.Rat

namespace BoundedSimplex

open Extended Tableau

variable {K : Type} [Field K] [LinearOrder K]

/-! ## §1.  Searches -/

/-- The tableaux between the iterations of a search that was set up as `t₀`. -/
inductive Search (t₀ : Tableau (Extended K)) : Tableau (Extended K) → Prop
  | started {u : Tableau (Extended K)} (configured : t₀.Configured)
      (exact : t₀.settings.boundTolerance = fin 0) (rule : t₀.pricing.rule = .infeasibility)
      (done : t₀.start = .ok (.ok (), u)) : Search t₀ u
  | startedFrom {u : Tableau (Extended K)} {vs : List Nat} (configured : t₀.Configured)
      (exact : t₀.settings.boundTolerance = fin 0) (rule : t₀.pricing.rule = .infeasibility)
      (done : t₀.startFrom vs = .ok (.ok (), u)) : Search t₀ u
  /-- Prices that cannot be relied on are computed. -/
  | priced {t u : Tableau (Extended K)} (before : Search t₀ t) (done : t.ensurePrices = .ok u) :
      Search t₀ u
  /-- A variable enters, a ratio test selects what leaves, and the pivot is performed. -/
  | pivoted {t w u : Tableau (Extended K)} (before : Search t₀ t) (selected : Selected t w)
      (keeps : w.KeepsColumn) (done : w.performPivot = .ok u) : Search t₀ u
  /-- A lower bound is raised. -/
  | raised {t u : Tableau (Extended K)} {v : Nat} {x : Extended K} (before : Search t₀ t)
      (below : x < Scalar.infinity) (tighter : ¬x < t.bounds.lowerOf v)
      (done : t.tightenLower v x = .ok u) : Search t₀ u
  /-- An upper bound is lowered. -/
  | cut {t u : Tableau (Extended K)} {v : Nat} {x : Extended K} (before : Search t₀ t)
      (above : -Scalar.infinity < x) (tighter : ¬t.bounds.upperOf v < x)
      (done : t.tightenUpper v x = .ok u) : Search t₀ u

/-! ## §2.  The invariant -/

/-- The variables that are not basic are within their bounds, if these allow for any number. -/
def AtHome (s : State (Extended K)) : Prop :=
  ∀ j < s.nonBasicCount,
    ¬s.bounds.upperOf (s.split.nonBasicVar j) < s.bounds.lowerOf (s.split.nonBasicVar j) →
      Within (s.bounds.lowerOf (s.split.nonBasicVar j)) (s.bounds.upperOf (s.split.nonBasicVar j))
        (coord s.nonBasicValues j)

/-- What a search keeps of the tableau that it was set up as. -/
structure Search.Inv (t₀ t : Tableau (Extended K)) : Prop where
  sound : t.Sound
  exact : t.settings.boundTolerance = fin 0
  matrix : t.matrix = t₀.matrix
  rhs : t.rightHandSide = t₀.rightHandSide
  merges : t.merges = .none
  plan : t.plan = .none
  residual : ∀ i < t.rowCount, t.toState.residual i = 0
  home : AtHome t.toState
  prices : PricesFit t.toState t.pricing

section Steps

variable {t₀ t u w : Tableau (Extended K)}

/-- At home is at home on both sides, variable by variable. -/
theorem atHome_iff {s : State (Extended K)} : AtHome s ↔ ∀ side v, Home side s v := by
  constructor
  · intro h side v j hj hjv hvalid
    subst hjv
    exact Side.met_of_within (h j hj hvalid)
  · exact fun h j hj hvalid => ⟨h .lower _ j hj rfl hvalid, h .upper _ j hj rfl hvalid⟩

/-- The start puts the variables on their bounds. -/
theorem Search.Inv.of_started (hs : Started t₀ t) (hτ : t₀.settings.boundTolerance = fin 0)
    (hrule : t₀.pricing.rule = .infeasibility) : Search.Inv t₀ t := by
  have hlen : t.standings.length = t.rowCount := by
    rw [hs.sound.standings, List.length_map, List.length_range]
  refine ⟨hs.sound, by rw [hs.settings]; exact hτ, hs.matrix, hs.rhs, hs.merges, hs.plan,
    hs.residual, fun j hj hvalid => ?_, ?_⟩
  · rw [hs.values j hj]
    exact hs.sound.state.bounds.within_startOf (hs.sound.state.split.nonBasicVar_lt hj) hvalid
  · obtain ⟨pricing, hp, hcompute⟩ := hs.priced
    obtain ⟨hr, hc⟩ := compute_spec hs.sound.toSolvable hlen (hp.trans hrule) hcompute
    exact ⟨hr, fun _ => hc⟩

namespace Search.Inv

/-- Computing the prices. -/
theorem ensurePrices (h : Search.Inv t₀ t) (hdone : t.ensurePrices = .ok u) : Search.Inv t₀ u := by
  have hlen : t.standings.length = t.rowCount := by
    rw [h.sound.standings, List.length_map, List.length_range]
  obtain ⟨pricing, rfl, hfit⟩ := ensurePrices_spec h.sound.toSolvable hlen h.prices hdone
  have hsound : Sound { t with pricing } :=
    ⟨⟨h.sound.state, h.sound.unit, h.sound.inverse⟩, h.sound.standings, h.sound.hasBasis⟩
  exact ⟨hsound, h.exact, h.matrix, h.rhs, h.merges, h.plan, h.residual, h.home, hfit⟩

/-- Costs after a change of the standings that was noticed. -/
theorem prices_of_enforced (h : Search.Inv t₀ t) {s : State (Extended K)} (hm : s.matrix = t.matrix)
    (hsplit : s.split = t.split) {pricing : Pricing (Extended K)}
    (hp : pricing = t.pricing ∧ s.standings = t.standings ∨ pricing = t.pricing.invalidate) :
    PricesFit s pricing := by
  rcases hp with ⟨rfl, hss⟩ | rfl
  · refine ⟨h.prices.rule, fun hf => ?_⟩
    obtain ⟨hbasic, hpriced⟩ := h.prices.fresh hf
    exact ⟨hss ▸ hbasic, hpriced.congr hm hsplit⟩
  · exact ⟨h.prices.rule, fun hf => Bool.noConfusion hf⟩

/-- A tighter bound, on either side. -/
theorem tighten (h : Search.Inv t₀ t) (side : Side) {v : Nat} {x : Extended K} (hx : side.Proper x)
    (hstrict : side.Stricter x (side.bound t.bounds v)) (hdone : side.tighten t v x = .ok u) :
    Search.Inv t₀ u := by
  have htight := h.sound.steady.tighten hx hdone
  have hhome := atHome_iff.mpr fun s k => (atHome_iff.mp h.home s k).tighten hstrict hx htight
  have hpricing := htight.pricing
  obtain ⟨hsolv, hresidual⟩ := htight.solvable h.sound.toSolvable
  have hsound := htight.steady.sound hsolv
  obtain ⟨xs, ys, ss, pricing, _, _, hu⟩ := htight.changes
  -- Matrix and split are untouched, so the equations and the prices are those of before.
  have hm : u.matrix = t.matrix := by rw [hu]
  have hsplit : u.split = t.split := by rw [hu]
  refine ⟨hsound, by rw [hu]; exact h.exact, hm.trans h.matrix, by rw [hu]; exact h.rhs,
    by rw [hu]; exact h.merges, by rw [hu]; exact h.plan, fun i hi => ?_, hhome,
    h.prices_of_enforced hm hsplit hpricing⟩
  rw [State.rowCount, hm] at hi
  exact (hresidual i hi).trans (h.residual i hi)

variable [IsStrictOrderedRing K]

/-- One iteration. -/
theorem pivot (h : Search.Inv t₀ t) (hsel : Selected t w) (hk : w.KeepsColumn)
    (hdone : w.performPivot = .ok u) : Search.Inv t₀ u := by
  have hhome := atHome_iff.mpr fun s k =>
    (atHome_iff.mp h.home s k).pivot h.sound.steady h.exact hsel hdone
  obtain ⟨j, plan, -, hw, hfits, hp⟩ := selected_spec h.sound.steady hsel
  have hp := hp h.sound.toSolvable
  have hsound := hw.sound h.sound
  obtain ⟨_, _, rfl⟩ := hw
  cases performPivot_spec hsound h.exact hp hk hdone with
  | ignored hs hc =>
    obtain ⟨_, _, rfl⟩ := hc
    exact ⟨hs, h.exact, h.matrix, h.rhs, h.merges, rfl, h.residual, hhome, h.prices⟩
  | jumped hs hc hr =>
    obtain ⟨_, _, rfl⟩ := hc
    exact ⟨hs, h.exact, h.matrix, h.rhs, h.merges, rfl, fun i hi =>
      (hr i hi).trans (h.residual i hi), hhome, h.prices.rule, fun hf => Bool.noConfusion hf⟩
  | @exchanged i y e hleaving hx hnear =>
    have he : e = 0 := abs_nonpos_iff.mp (by simpa using hnear)
    have hrow := hx.row
    have hlen : u.standings.length = t.rowCount := by
      rw [hx.sound.standings, List.length_map, List.length_range]
      obtain ⟨_, _, _, _, -, _, _, rfl⟩ := hx.changes
      rfl
    obtain ⟨xs, ss, inverse, pricing, hprices, _, _, rfl⟩ := hx.changes
    refine ⟨hx.sound, h.exact, h.matrix, h.rhs, h.merges, rfl, fun k hk => ?_, hhome, ?_⟩
    · rw [hx.residual k hk, he, mul_zero, add_zero]
      exact h.residual k hk
    · refine Repriced.prices hsound.toSolvable h.prices hp.toReady hrow hx.pivot
        (fun row hplan _ => ?_) (by rfl) (by rfl) hlen hprices
      -- the row was computed in this iteration
      rcases hfits with hnone | ⟨i', row', hl, hsolved, hsome⟩
      · rw [h.plan] at hnone
        rw [hnone] at hplan
        cases hplan
      · rw [hleaving] at hl
        rw [hsome] at hplan
        cases hl
        cases hplan
        exact hsolved

end Search.Inv

variable [IsStrictOrderedRing K]

/-- **Every search** keeps the invariant. -/
theorem Search.inv (h : Search t₀ t) : Search.Inv t₀ t := by
  induction h with
  | started hc hτ hr hdone => exact .of_started (start_spec hc.prepared hdone) hτ hr
  | startedFrom hc hτ hr hdone => exact .of_started (startFrom_spec hc.prepared hdone) hτ hr
  | priced _ hdone ih => exact ih.ensurePrices hdone
  | pivoted _ hsel hk hdone ih => exact ih.pivot hsel hk hdone
  | raised _ hx ht hdone ih => exact ih.tighten .lower hx ht hdone
  | cut _ hx ht hdone ih => exact ih.tighten .upper hx ht hdone

/-! ## §3.  The verdicts -/

/-- Where no bound is violated and no bounds contradict each other, all values are within them. -/
theorem Search.Inv.admits (h : Search.Inv t₀ t) (hvalid : t.bounds.allValid = true)
    (hin : t.toState.existsOutOfBounds = false) : t.toState.Admits t.toState.stored := by
  intro v hv
  have hmet (side : Side) : side.Met (side.bound t.bounds v) (t.toState.stored v) :=
    met_of_home (atHome_iff.mp h.home side v) h.sound.steady h.exact hvalid hin hv
  exact ⟨hmet .lower, hmet .upper⟩

/-- **The verdicts of phase one**, between the iterations of a search and in the course of one.  If
    no bounds contradict each other and no basic variable violates its own, the reported values
    satisfy the equations that were set up and the bounds of all variables.  If a basic variable
    violates a bound, the costs can be relied on, none of them is too small to count, and no
    variable is eligible, then nothing satisfies the equations and the bounds. -/
theorem verdict_of_search (h : Search t₀ t) {plan : PivotPlan (Extended K)}
    (hw : Replans t w plan) :
    (w.bounds.allValid = true → w.existsOutOfBounds = false →
      ∃ x : Nat → K, (∀ v < w.varCount, w.value v = .ok (fin (x v)))
        ∧ t₀.toState.Solves x ∧ w.toState.Admits x)
      ∧ (w.pricing.stale = false → w.existsOutOfBounds = true →
        (∀ c ∈ w.pricing.costs, c = 0 ∨ w.settings.entryTolerance ≤ Scalar.magnitude c) →
        w.candidates = .ok [] → ¬∃ x : Nat → K, t₀.toState.Solves x ∧ w.toState.Admits x) := by
  have hinv := h.inv
  have hsound := hw.sound hinv.sound
  obtain ⟨_, _, rfl⟩ := hw
  -- the system is the one that was set up
  have hsolves (x : Nat → K) : t₀.toState.Solves x ↔ t.toState.Solves x := by
    unfold State.Solves State.rowCount State.varCount
    rw [hinv.matrix, hinv.rhs]
  refine ⟨fun hvalid hin => ⟨t.toState.stored, fun v hv => ?_, ?_, hinv.admits hvalid hin⟩,
    fun hfresh hout hgap hnone => ?_⟩
  · show t.toState.value v = _
    unfold State.value State.requireVariable
    rw [hinv.merges, Merges.Grounded.resolve_of_stands Merges.grounded_none rfl,
      Checked.require, if_pos hv]
    exact hinv.sound.state.storedValue_eq hv
  · exact (hsolves _).mpr (State.solves_stored hinv.residual)
  · rintro ⟨x, hx, hadmits⟩
    exact no_solution_of_no_candidates hsound hinv.exact hinv.residual hinv.prices hfresh hout hgap
      hnone ⟨x, (hsolves x).mp hx, hadmits⟩

end Steps

/-- The equation `x + y = 10` has a solution with `x ≤ 3` and `y ≤ 8`, which a pivot finds, and none
    after the second bound is lowered to 4. -/
theorem verdicts_around_tightening : ∃ t₀ a b : Tableau (Extended ℚ), Search t₀ a ∧ Search t₀ b
    ∧ a.basicValues = [fin 2] ∧ a.nonBasicValues = [fin 8]
    ∧ (∃ x : Nat → ℚ, t₀.toState.Solves x ∧ a.toState.Admits x)
    ∧ ¬∃ x : Nat → ℚ, t₀.toState.Solves x ∧ b.toState.Admits x := by
  have hrun : (do
      let t ← (create (α := Extended ℚ) { boundTolerance := 0 }).run [.setSize 1 2,
        .setCoefficients [fin 1, fin 1], .setRightHandSide [fin 10], .setLower 0 (fin 0),
        .setUpper 0 (fin 3), .setLower 1 (fin 0), .setUpper 1 (fin 8)]
      let (r, s) ← t.startFrom [1]
      let w ← s.run [.chooseEntering .first, .computeColumn, .chooseLeaving, .computeRow]
      let a ← w.performPivot
      let c ← a.tightenUpper 1 (fin 4)
      let b ← c.ensurePrices
      let candidates ← b.candidates
      Checked.require (r = Except.ok () ∧ t.settings.boundTolerance = fin 0
        ∧ (t.pricing.rule matches .infeasibility) = true ∧ w.KeepsColumn
        ∧ a.bounds.allValid = true ∧ a.existsOutOfBounds = false ∧ a.basicValues = [fin 2]
        ∧ a.nonBasicValues = [fin 8] ∧ ¬a.bounds.upperOf 1 < fin 4 ∧ b.pricing.stale = false
        ∧ b.existsOutOfBounds = true
        ∧ (∀ c ∈ b.pricing.costs, c = 0 ∨ b.settings.entryTolerance ≤ Scalar.magnitude c)
        ∧ candidates = []) .inconsistent) = .ok () := by decide +kernel
  obtain ⟨t, ht, hrun⟩ := Checked.bind_eq_ok.mp hrun
  obtain ⟨⟨r, s⟩, hs, hrun⟩ := Checked.bind_eq_ok.mp hrun
  obtain ⟨w, hw, hrun⟩ := Checked.bind_eq_ok.mp hrun
  obtain ⟨a, ha, hrun⟩ := Checked.bind_eq_ok.mp hrun
  obtain ⟨c, hc, hrun⟩ := Checked.bind_eq_ok.mp hrun
  obtain ⟨b, hb, hrun⟩ := Checked.bind_eq_ok.mp hrun
  obtain ⟨candidates, hnone, hrun⟩ := Checked.bind_eq_ok.mp hrun
  obtain ⟨rfl, hτ, hrule, hkeeps, hvalid, hin, hbasic, hother, htight, hfresh, hout, hgap, rfl⟩ :=
    Checked.require_eq_ok.mp hrun
  have hconf : t.Configured := (Configured.created _).run (by decide +kernel) ht
  -- A new tableau is priced by its infeasibilities.
  have hrule : t.pricing.rule = .infeasibility := by
    cases h : t.pricing.rule with
    | infeasibility => rfl
    | fixed _ | weighted _ =>
      rw [h] at hrule
      cases hrule
  have hsel : Selected s w := ⟨.chooseEntering .first, .chooseLeaving, trivial, trivial, .inr hw⟩
  -- Cutting the second variable at 4 leaves nothing: the first one would have to be 6.
  have hfeasible := (Search.startedFrom hconf hτ hrule hs).pivoted hsel hkeeps ha
  have hinfeasible := (hfeasible.cut (by decide +kernel) htight hc).priced hb
  obtain ⟨x, -, hx⟩ := (verdict_of_search hfeasible (replans_of_plan a a.plan)).1 hvalid hin
  exact ⟨t, a, b, hfeasible, hinfeasible, hbasic, hother, ⟨x, hx⟩,
    (verdict_of_search hinfeasible (replans_of_plan b b.plan)).2 hfresh hout hgap hnone⟩

end BoundedSimplex
