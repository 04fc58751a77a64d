/-
  BoundedSimplex.Proofs.Tableau.Selection — the operations that lead up to a pivot.

  A variable is selected to enter, its change column is computed, a ratio test selects the
  variable that leaves, and the row of that one may be computed.  Nothing but the selections
  changes on the way.

  Main results:
    * `prepares_spec` — what preparations change at most;
    * `selected_spec` — the selections are in order at the end;
    * `chosen_spec` — the same without a ratio test, which is enough for an exchange without a move.
-/
import BoundedSimplex.Proofs.Tableau.Pivot
import BoundedSimplex.Proofs.Tableau.Setup

namespace BoundedSimplex

open Extended

variable {K : Type} [Field K] [LinearOrder K]

/-! ## §1.  The operations -/

namespace Operation

variable {α : Type}

/-- A variable is selected to enter. -/
def Enters : Operation α → Prop
  | .selectEntering _ | .chooseEntering _ => True
  | _ => False

/-- A ratio test selects the variable that leaves. -/
def Tests : Operation α → Prop
  | .standardRatioTest | .harrisRatioTest | .chooseLeaving => True
  | _ => False

/-- A variable is selected to leave, with or without a ratio test. -/
def Leaves : Operation α → Prop
  | .selectLeaving _ | .standardRatioTest | .harrisRatioTest | .chooseLeaving => True
  | _ => False

/-- Selections, prices and multipliers, in any order; nothing else depends on them until a pivot. -/
def Prepares : Operation α → Prop
  | .selectEntering _ | .chooseEntering _ | .selectLeaving _ | .setDistance _ | .setColumn _
  | .computeColumn | .chooseLeaving | .standardRatioTest | .harrisRatioTest | .computeRow
  | .computePrices | .usePricing _ | .computeMultipliers _ => True
  | _ => False

end Operation

namespace Tableau

variable {t u w : Tableau (Extended K)}

/-- A run of operations, one at a time. -/
theorem run_cons {α : Type} [Scalar α] {t u : Tableau α} {op : Operation α}
    {ops : List (Operation α)} :
    t.run (op :: ops) = .ok u ↔ ∃ reply w, t.perform op = .ok (reply, w) ∧ w.run ops = .ok u := by
  constructor
  · intro h
    obtain ⟨⟨reply, w⟩, hw, h⟩ := Checked.bind_eq_ok.mp h
    exact ⟨reply, w, hw, h⟩
  · rintro ⟨reply, w, hw, h⟩
    exact Checked.bind_eq_ok.mpr ⟨(reply, w), hw, h⟩

/-- The selections for a pivot were made, ending with a ratio test and possibly the row. -/
def Selected (t w : Tableau (Extended K)) : Prop :=
  ∃ enter test : Operation (Extended K), enter.Enters ∧ test.Tests
    ∧ (t.run [enter, .computeColumn, test] = .ok w
      ∨ t.run [enter, .computeColumn, test, .computeRow] = .ok w)

/-- The selections for an exchange were made, and its change column was computed. -/
def Chosen (t w : Tableau (Extended K)) : Prop :=
  ∃ enter leave : Operation (Extended K), enter.Enters ∧ leave.Leaves
    ∧ (t.run [enter, .computeColumn, leave] = .ok w
      ∨ t.run [enter, .computeColumn, leave, .computeRow] = .ok w)

/-! ## §2.  What they change -/

/-- Only the selections differ. -/
def Replans (t u : Tableau (Extended K)) (plan : PivotPlan (Extended K)) : Prop :=
  Silent { t with plan } u

theorem replans_of_plan (t : Tableau (Extended K)) (plan : PivotPlan (Extended K)) :
    Replans t { t with plan } plan :=
  ⟨_, _, rfl⟩

theorem Replans.trans {p q : PivotPlan (Extended K)} (h : Replans t u p) (h' : Replans u w q) :
    Replans t w q := by
  obtain ⟨_, _, rfl⟩ := h
  obtain ⟨j, s, rfl⟩ := h'
  exact ⟨j, s, rfl⟩

theorem Replans.plan {p : PivotPlan (Extended K)} (h : Replans t u p) : u.plan = p := by
  obtain ⟨_, _, rfl⟩ := h
  rfl

theorem Replans.solvable {p : PivotPlan (Extended K)} (h : Replans t u p) (ht : t.Solvable) :
    u.Solvable := by
  obtain ⟨_, _, rfl⟩ := h
  exact ⟨ht.state, ht.unit, ht.inverse⟩

theorem Replans.steady {p : PivotPlan (Extended K)} (h : Replans t u p) (ht : t.Steady) :
    u.Steady := by
  obtain ⟨_, _, rfl⟩ := h
  exact ⟨⟨ht.state, ht.answers⟩, ht.standings, ht.hasBasis⟩

theorem Replans.sound {p : PivotPlan (Extended K)} (h : Replans t u p) (ht : t.Sound) : u.Sound :=
  (h.steady ht.steady).sound (h.solvable ht.toSolvable)

theorem Replans.settings {p : PivotPlan (Extended K)} (h : Replans t u p) :
    u.settings = t.settings := by
  obtain ⟨_, _, rfl⟩ := h
  rfl

/-- Selecting the entering variable leaves the row of the leaving one alone. -/
theorem enters_spec {op : Operation (Extended K)} (hop : op.Enters) {reply : Reply (Extended K)}
    (h : t.perform op = .ok (reply, u)) : ∃ plan, Replans t u plan ∧ plan.row = t.plan.row := by
  cases op with
  | selectEntering j =>
    obtain ⟨-, rfl⟩ := selectEntering_spec (of_replyDone h)
    exact ⟨_, replans_of_plan t _, rfl⟩
  | chooseEntering rule =>
    obtain ⟨⟨found, rule', w⟩, hw, h⟩ := Checked.bind_eq_ok.mp h
    cases h
    obtain ⟨candidates, -, hw⟩ := Checked.bind_eq_ok.mp hw
    obtain ⟨⟨chosen, next⟩, -, hw⟩ := Checked.bind_eq_ok.mp hw
    -- Nothing was chosen, or it was selected.
    cases chosen with
    | none =>
      cases hw
      exact ⟨_, replans_of_plan t t.plan, rfl⟩
    | some j =>
      obtain ⟨v, hv, hw⟩ := Checked.bind_eq_ok.mp hw
      cases hw
      obtain ⟨-, rfl⟩ := selectEntering_spec hv
      exact ⟨_, replans_of_plan t _, rfl⟩
  | _ => exact hop.elim

theorem replans_concluded {leaving : Leaving} {distance : Extended K} {falls : Bool}
    (h : Silent (t.concluded leaving distance falls) u) :
    ∃ plan, Replans t u plan ∧ plan.row = t.plan.row :=
  ⟨(t.concluded leaving distance falls).plan, h, rfl⟩

/-- A variable that enters and its column. -/
theorem primed_spec {enter : Operation (Extended K)} (hop : enter.Enters)
    {ops : List (Operation (Extended K))} (ht : t.Steady)
    (h : t.run (enter :: .computeColumn :: ops) = .ok w) :
    ∃ v j plan, Replans t v plan ∧ plan.row = t.plan.row ∧ v.Primed j ∧ (t.Solvable → v.Ready j)
      ∧ v.run ops = .ok w := by
  obtain ⟨_, v, hv, h⟩ := run_cons.mp h
  obtain ⟨_, v', hv', h⟩ := run_cons.mp h
  obtain ⟨p, hp, hrow⟩ := enters_spec hop hv
  obtain ⟨column, j, hplan, hprimed, hready⟩ :=
    computeColumn_spec (hp.steady ht).toAnswering (of_replyDone hv')
  -- The column replaces only the column of the plan.
  refine ⟨v', j, _, hp.trans (show Replans v v' { v.plan with column } from ?_), ?_, hprimed,
    fun hsolv => hready (hp.solvable hsolv), h⟩
  · rw [hplan]
    exact ⟨_, _, rfl⟩
  · show v.plan.row = _
    rw [hp.plan, hrow]

/-- The row of the leaving variable does not depend on the selections. -/
theorem Replans.solvedRow {p : PivotPlan (Extended K)} (h : Replans t u p) (i : Nat) :
    u.solvedRow i = t.solvedRow i := by
  obtain ⟨_, _, rfl⟩ := h
  rfl

/-- **Preparations** change selections, prices and multipliers only. -/
theorem prepares_spec {op : Operation (Extended K)} (hop : op.Prepares) {reply : Reply (Extended K)}
    (h : t.perform op = .ok (reply, u)) :
    ∃ plan pricing multipliers, Silent { t with plan, pricing, multipliers } u := by
  have replans (plan : PivotPlan (Extended K)) (h : Replans t u plan) :
      ∃ plan pricing multipliers, Silent { t with plan, pricing, multipliers } u :=
    ⟨plan, t.pricing, t.multipliers, h⟩
  cases op with
  | selectEntering j =>
    obtain ⟨-, rfl⟩ := selectEntering_spec (of_replyDone h)
    exact replans _ (replans_of_plan t _)
  | chooseEntering rule =>
    obtain ⟨plan, hp, -⟩ := enters_spec (show (Operation.chooseEntering rule).Enters from trivial) h
    exact replans plan hp
  | selectLeaving i =>
    obtain ⟨-, rfl⟩ := selectLeaving_spec (of_replyDone h)
    exact replans _ (replans_of_plan t _)
  | setDistance x =>
    obtain ⟨_, -, h⟩ := Checked.bind_eq_ok.mp (of_replyDone h)
    cases h
    exact replans _ (replans_of_plan t _)
  | setColumn column =>
    obtain ⟨_, -, h⟩ := Checked.bind_eq_ok.mp (of_replyDone h)
    cases h
    exact replans _ (replans_of_plan t _)
  | computeColumn =>
    obtain ⟨j, -, h⟩ := Checked.bind_eq_ok.mp (of_replyDone h)
    obtain ⟨v, -, h⟩ := Checked.bind_eq_ok.mp h
    obtain ⟨col, -, h⟩ := Checked.bind_eq_ok.mp h
    obtain ⟨column, -, h⟩ := Checked.bind_eq_ok.mp h
    cases h
    exact replans _ (replans_of_plan t _)
  | standardRatioTest =>
    obtain ⟨leaving, distance, falls, -, hs⟩ := standardRatioTest_concludes (of_replyDone h)
    exact replans (t.concluded leaving distance falls).plan hs
  | harrisRatioTest =>
    obtain ⟨leaving, distance, falls, -, hs⟩ := harrisRatioTest_concludes (of_replyDone h)
    exact replans (t.concluded leaving distance falls).plan hs
  | chooseLeaving =>
    obtain ⟨leaving, distance, falls, -, hs⟩ := chooseLeaving_concludes (of_replyDone h)
    exact replans (t.concluded leaving distance falls).plan hs
  | computeRow =>
    obtain ⟨i, row, -, -, rfl⟩ := computeRow_spec (of_replyDone h)
    exact replans _ (replans_of_plan t _)
  -- costs and multipliers are not part of the plan
  | computePrices =>
    obtain ⟨_, -, h⟩ := Checked.bind_eq_ok.mp (of_replyDone h)
    obtain ⟨pricing, -, h⟩ := Checked.bind_eq_ok.mp h
    cases h
    exact ⟨t.plan, pricing, t.multipliers, _, _, rfl⟩
  | usePricing rule =>
    cases of_replyDone h
    exact ⟨t.plan, .unpriced rule, t.multipliers, _, _, rfl⟩
  | computeMultipliers costs =>
    obtain ⟨_, -, h⟩ := Checked.bind_eq_ok.mp (of_replyDone h)
    obtain ⟨multipliers, -, h⟩ := Checked.bind_eq_ok.mp h
    cases h
    exact ⟨t.plan, t.pricing, multipliers, _, _, rfl⟩
  | _ => exact hop.elim

/-- What is selected and priced is not part of what has to be sound. -/
theorem Steady.replan (ht : t.Steady) {plan : PivotPlan (Extended K)}
    {pricing : Pricing (Extended K)} {multipliers : List (Extended K)}
    (h : Silent { t with plan, pricing, multipliers } u) :
    u.Steady :=
  h.steady ⟨⟨ht.state, ht.answers⟩, ht.standings, ht.hasBasis⟩

/-- Another plan, other prices and multipliers: the basis is as sound as before. -/
theorem Sound.replan (ht : t.Sound) {plan : PivotPlan (Extended K)} {pricing : Pricing (Extended K)}
    {multipliers : List (Extended K)} (h : Silent { t with plan, pricing, multipliers } u) :
    u.Sound :=
  h.sound ⟨⟨ht.state, ht.unit, ht.inverse⟩, ht.standings, ht.hasBasis⟩

section Specs

variable [IsStrictOrderedRing K] {τ : K}

/-- The outcome of a ratio test. -/
theorem tests_spec {op : Operation (Extended K)} (hop : op.Tests)
    {reply : Reply (Extended K)} {j : Nat} (hp : t.Primed j) (h : t.perform op = .ok (reply, u)) :
    u.Aimed j ∧ (t.Ready j → u.Ready j) ∧ ∃ plan, Replans t u plan ∧ plan.row = t.plan.row := by
  -- Each test ends in a conclusion.
  have concluded {leaving : Leaving} {distance : Extended K} {falls : Bool}
      (hsil : Silent (t.concluded leaving distance falls) u) (hs : t.Stops leaving distance falls) :
      u.Aimed j ∧ (t.Ready j → u.Ready j) ∧ ∃ plan, Replans t u plan ∧ plan.row = t.plan.row :=
    ⟨hsil.aimed (hp.aimed hs).1, fun hr => hsil.ready ((hp.aimed hs).2 hr), replans_concluded hsil⟩
  cases op with
  | standardRatioTest =>
    obtain ⟨leaving, distance, falls, rfl, hs⟩ := standardRatioTest_spec hp.numbers (of_replyDone h)
    exact concluded ⟨_, _, rfl⟩ hs
  | harrisRatioTest =>
    obtain ⟨leaving, distance, falls, hsil, hs⟩ := harrisRatioTest_spec hp.numbers (of_replyDone h)
    exact concluded hsil hs
  | chooseLeaving =>
    obtain ⟨leaving, distance, falls, hsil, hs⟩ := chooseLeaving_spec hp.numbers (of_replyDone h)
    exact concluded hsil hs
  | _ => exact hop.elim

/-- The row that is at hand for a pivot belongs to the leaving variable, if it was not left over. -/
def RowFits (t w : Tableau (Extended K)) : Prop :=
  w.plan.row = t.plan.row ∨ ∃ i row, w.plan.leaving = some (.basic i) ∧ t.solvedRow i = .ok row
    ∧ w.plan.row = some row

/-- **The selections for a pivot are in order.** -/
theorem selected_spec (ht : t.Steady) (h : Selected t w) :
    ∃ j plan, w.Aimed j ∧ Replans t w plan ∧ RowFits t w ∧ (t.Solvable → w.Planned j) := by
  obtain ⟨enter, test, henter, htest, h⟩ := h
  rcases h with h | h
  -- The row is computed after the test, or the one of before is left.
  · obtain ⟨v, j, p, hp, hrow, hprimed, hready, h⟩ := primed_spec henter ht h
    obtain ⟨_, v', hv', h⟩ := run_cons.mp h
    cases h
    obtain ⟨haimed, hready', q, hq, hrow'⟩ := tests_spec htest hprimed hv'
    refine ⟨j, q, haimed, hp.trans hq, .inl ?_, fun hsolv =>
      haimed.planned (hready' (hready hsolv))⟩
    rw [hq.plan, hrow', hp.plan, hrow]
  · obtain ⟨v, j, p, hp, hrow, hprimed, hready, h⟩ := primed_spec henter ht h
    obtain ⟨_, v', hv', h⟩ := run_cons.mp h
    obtain ⟨haimed, hready', q, hq, -⟩ := tests_spec htest hprimed hv'
    obtain ⟨_, v₂, hv₂, h⟩ := run_cons.mp h
    cases h
    obtain ⟨i, row, hleaving, hsolved, rfl⟩ := computeRow_spec (of_replyDone hv₂)
    obtain ⟨haimed', hready₂⟩ := haimed.withRow (some row)
    refine ⟨j, _, haimed', (hp.trans hq).trans (replans_of_plan _ _),
      .inr ⟨i, row, hleaving, ?_, rfl⟩, fun hsolv =>
      haimed'.planned (hready₂ (hready' (hready hsolv)))⟩
    rw [← (hp.trans hq).solvedRow]
    exact hsolved

/-- **A pivot after a ratio test** leaves the system and its bounds alone. -/
theorem pivot_frame (ht : t.Steady) (hτ : t.settings.boundTolerance = fin τ) (hsel : Selected t w)
    (h : w.performPivot = .ok u) :
    u.Steady ∧ u.settings = t.settings ∧ u.matrix = t.matrix ∧ u.bounds = t.bounds
      ∧ u.merges = t.merges := by
  obtain ⟨j, plan, hp, hw, -⟩ := selected_spec ht hsel
  have hsteady := hw.steady ht
  obtain ⟨_, _, rfl⟩ := hw
  exact (performPivot_turns hsteady hτ hp h).frame

/-- **The selections for an exchange without a move are in order.** -/
theorem chosen_spec (ht : t.Sound) (h : Chosen t w) :
    ∃ j plan, w.Ready j ∧ Replans t w plan := by
  obtain ⟨enter, leave, henter, hleave, h⟩ := h
  -- the selection of the leaving variable keeps the column
  have hleaves {v v' : Tableau (Extended K)} {j : Nat} {reply : Reply (Extended K)}
    (hready : v.Ready j)
      (h : v.perform leave = .ok (reply, v')) : v'.Ready j ∧ ∃ plan, Replans v v' plan := by
    have tested {op : Operation (Extended K)} (hop : op.Tests)
      (h : v.perform op = .ok (reply, v')) :
        v'.Ready j ∧ ∃ plan, Replans v v' plan := by
      obtain ⟨-, hready', q, hq, -⟩ := tests_spec hop hready.primed h
      exact ⟨hready' hready, q, hq⟩
    cases leave with
    | selectLeaving i =>
      obtain ⟨-, rfl⟩ := selectLeaving_spec (of_replyDone h)
      exact ⟨⟨hready.entering, hready.lt, hready.column⟩, _, replans_of_plan _ _⟩
    | standardRatioTest => exact tested (show Operation.standardRatioTest.Tests from trivial) h
    | harrisRatioTest => exact tested (show Operation.harrisRatioTest.Tests from trivial) h
    | chooseLeaving => exact tested (show Operation.chooseLeaving.Tests from trivial) h
    | _ => exact hleave.elim
  rcases h with h | h
  · obtain ⟨v, j, p, hp, -, -, hready, h⟩ := primed_spec henter ht.steady h
    obtain ⟨_, v', hv', h⟩ := run_cons.mp h
    cases h
    obtain ⟨hready', q, hq⟩ := hleaves (hready ht.toSolvable) hv'
    exact ⟨j, q, hready', hp.trans hq⟩
  · obtain ⟨v, j, p, hp, -, -, hready, h⟩ := primed_spec henter ht.steady h
    obtain ⟨_, v', hv', h⟩ := run_cons.mp h
    obtain ⟨hready', q, hq⟩ := hleaves (hready ht.toSolvable) hv'
    obtain ⟨_, v₂, hv₂, h⟩ := run_cons.mp h
    cases h
    obtain ⟨i, row, -, -, rfl⟩ := computeRow_spec (of_replyDone hv₂)
    exact ⟨j, _, ⟨hready'.entering, hready'.lt, hready'.column⟩,
      (hp.trans hq).trans (replans_of_plan _ _)⟩

end Specs

end Tableau

end BoundedSimplex
