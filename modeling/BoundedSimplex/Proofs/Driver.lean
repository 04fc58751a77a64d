/-
  BoundedSimplex.Proofs.Driver — a driver that keeps to the protocol breaks no contract.

  Between pivots a driver may tighten bounds, move non-basic variables, compute values and costs,
  start the inverse over, add equations and merge variables, in any order.  For a pivot it lets a
  rule select the entering variable, computes its change column, runs the ratio test, computes the
  row of the leaving variable if it wants to, and pivots.  What each step has to find was provided
  several steps before it: costs that are current, a column of the present rows, an entry to divide
  by that is not zero.

  So the protocol is an automaton (`Phase`, `Asks`), and the invariant of a run has a part that
  holds throughout (`Operable`) and a part for the phase it is in (`Phase.Holds`).

  Main results:
    * `Asks.exists_perform` — what is asked for in its phase has an outcome;
    * `Asks.operable`, `Asks.holds` — and leads to the next phase;
    * `exists_search` — a whole search, which is such a driver;
    * `exists_perform_of_driven` — every run from a basis, in exact arithmetic.
-/
import BoundedSimplex.PhaseOne
import BoundedSimplex.Proofs.Tableau.ProgressGrowth
import BoundedSimplex.Proofs.Tableau.ProgressPivot

namespace BoundedSimplex

variable {α : Type} [Scalar α]

/-! ## §1.  The protocol -/

/-- How far the next pivot is prepared. -/
inductive Phase where
  /-- Not at all. -/
  | between
  /-- A variable was selected to enter. -/
  | entered
  /-- Its change column was computed. -/
  | measured
  /-- A variable was selected to leave. -/
  | aimed
deriving DecidableEq

/-- The phase after an operation was performed. -/
def Phase.next (phase : Phase) (op : Operation α) (reply : Reply α) : Phase :=
  match op, reply with
  | .chooseEntering _, .selected found _ => if found then .entered else .between
  | .computeColumn, _ => .measured
  | .chooseLeaving, _ => .aimed
  | .performPivot, _ => .between
  | _, _ => phase

namespace Tableau

/-- What a driver may ask for in a phase. -/
inductive Asks (t : Tableau α) : Phase → Operation α → Prop
  | computePrices : Asks t .between .computePrices
  | chooseEntering (rule : EnteringRule) (current : t.pricing.stale = false) :
      Asks t .between (.chooseEntering rule)
  | tightenLower {v : Nat} (x : α) (exists_ : v < t.varCount) : Asks t .between (.tightenLower v x)
  | tightenUpper {v : Nat} (x : α) (exists_ : v < t.varCount) : Asks t .between (.tightenUpper v x)
  | moveNonBasic {v : Nat} (x : α) (follow : Bool) (exists_ : v < t.varCount)
      (role : t.split.isBasic v = false) : Asks t .between (.moveNonBasic v x follow)
  | computeValues : Asks t .between .computeValues
  | refactor : Asks t .between .refactor
  | addEquation {e : LinearEquation α} (exist : ∀ term ∈ e.terms, term.var < t.varCount) :
      Asks t .between (.addEquation e)
  /-- Of two variables that were not merged before. -/
  | merge {source target : Nat} (distinct : source ≠ target)
      (exists_ : source < t.varCount) (exists_' : target < t.varCount)
      (role : t.split.isBasic source = false) (role' : t.split.isBasic target = false)
      (stands : t.merges.Stands source) (stands' : t.merges.Stands target) :
      Asks t .between (.merge source target)
  | computeColumn : Asks t .entered .computeColumn
  | chooseLeaving : Asks t .measured .chooseLeaving
  | computeRow (exchange : t.isFake = false) : Asks t .aimed .computeRow
  | performPivot : Asks t .aimed .performPivot

/-- The runs of a driver.  They end with an equation whose new basis has no usable inverse. -/
inductive Driven (t₀ : Tableau α) : Phase → Tableau α → Prop
  | begun : Driven t₀ .between t₀
  | asked {phase : Phase} {t u : Tableau α} {op : Operation α} {reply : Reply α}
      (before : Driven t₀ phase t) (asks : t.Asks phase op)
      (goesOn : ∀ e cause, op = .addEquation e → reply ≠ .failed cause)
      (done : t.perform op = .ok (reply, u)) : Driven t₀ (phase.next op reply) u

/-! ## §2.  The invariant -/

/-- A tableau with a basis that was never left without an inverse of its size. -/
structure Operable (σ : Settings α) (t : Tableau α) : Prop where
  shaped : t.Shaped True σ
  hasBasis : t.hasBasis = true
  current : t.Current
  anchored : t.toState.Anchored
  counted : t.pricing.costs.length = t.nonBasicCount

/-- What is prepared in a phase. -/
def Holds (t : Tableau α) : Phase → Prop
  | .between => True
  | .entered => (∃ j, t.plan.entering = some j) ∧ t.pricing.stale = false
  | .measured => (∃ j, t.plan.entering = some j) ∧ t.pricing.stale = false
      ∧ t.plan.column.length = t.rowCount
  | .aimed => t.Targeted

variable {σ : Settings α} {t u : Tableau α} {phase : Phase} {op : Operation α} {reply : Reply α}

/-- The inverse has the size of the basis. -/
theorem Operable.size (h : t.Operable σ) : t.inverse.size = t.rowCount :=
  h.shaped.size trivial h.hasBasis

/-! ## §3.  What is asked for has an outcome -/

/-- A step that goes through has a reply. -/
theorem exists_replyDone {r : Checked (Tableau α)} (h : ∃ u, r = .ok u) :
    ∃ p, replyDone r = .ok p :=
  Checked.exists_bind h fun _ _ => ⟨_, rfl⟩

/-- An attempt that goes through has a reply. -/
theorem exists_replyAttempt {β : Type} {success : β → Reply α} {r : Attempt α β}
    (h : ∃ p, r = .ok p) :
    ∃ p, replyAttempt success r = .ok p := by
  refine Checked.exists_bind h fun p _ => ?_
  obtain ⟨r, u⟩ := p
  cases r <;> exact ⟨_, rfl⟩

/-- **Progress.** -/
theorem Asks.exists_perform [LawfulZero α] (h : t.Asks phase op) (hσ : σ.PassesZeros)
    (ht : t.Operable σ) (hp : t.Holds phase) : ∃ r, t.perform op = .ok r := by
  have hs := ht.shaped
  have hb := ht.hasBasis
  cases h with
  | computePrices => exact exists_replyDone (exists_computePrices hs hb ht.size)
  | chooseEntering rule current =>
    obtain ⟨⟨found, next, u⟩, hu⟩ := exists_chooseEntering hs hb current rule
    exact Checked.exists_bind_of_ok hu ⟨_, rfl⟩
  | tightenLower x hv => exact exists_replyDone (exists_tightenLower hs hb ht.size hv x)
  | tightenUpper x hv => exact exists_replyDone (exists_tightenUpper hs hb ht.size hv x)
  | moveNonBasic x follow hv role =>
    exact exists_replyDone (exists_moveNonBasic hs hb ht.size hv role x follow)
  | computeValues => exact exists_replyDone (exists_computeValues hs hb ht.size)
  | refactor => exact exists_replyAttempt (exists_refactor hs hb)
  | addEquation exist => exact exists_replyAttempt (exists_addEquation hs hb ht.anchored exist)
  | merge distinct hsource htarget role role' stands stands' =>
    exact exists_replyAttempt (exists_merge hs hb ht.size ht.anchored hsource htarget role role'
      stands stands' distinct)
  | computeColumn =>
    obtain ⟨⟨j, hj⟩, -⟩ := hp
    exact exists_replyDone (exists_computeColumn hs hb ht.size hj)
  | chooseLeaving =>
    obtain ⟨⟨j, hj⟩, -, hcolumn⟩ := hp
    exact exists_replyDone (exists_chooseLeaving hs hb hσ hcolumn hj ht.counted)
  -- the row is asked for in a change of the basis only, so a row leaves
  | computeRow hfake =>
    obtain ⟨l, hl⟩ := hp.leaving
    cases l with
    | entering =>
      rw [isFake, hl] at hfake
      exact absurd hfake (by decide)
    | basic i => exact exists_replyDone (exists_computeRow hs hb ht.size hl)
  | performPivot =>
    exact exists_replyDone (exists_performPivot hs hb ht.size (ht.current.knowsCosts hs hb) hp)

/-! ## §4.  And leads to the next phase -/

/-- Whether it can be relied on or not, there is one cost for each non-basic position: an equation
    adds a row and a variable, and an exchange takes the costs along. -/
theorem Asks.counted (h : t.Asks phase op) (ht : t.Operable σ)
    (hdone : t.perform op = .ok (reply, u)) : u.pricing.costs.length = u.nonBasicCount := by
  have hs := ht.shaped
  have aside (hu : Spares t u) : u.pricing.costs.length = u.nonBasicCount := by
    rw [hu.costs, hu.toSameSystem.nonBasicCount]
    exact ht.counted
  have planned (hu : ∃ plan, u = { t with plan }) : u.pricing.costs.length = u.nonBasicCount := by
    obtain ⟨plan, rfl⟩ := hu
    exact ht.counted
  cases h with
  | computePrices =>
    have hprices := of_replyDone hdone
    exact (hs.computePrices hprices).costs (stale_of_computePrices hprices)
  | chooseEntering rule current =>
    obtain ⟨⟨found, next, w⟩, hw, hdone⟩ := Checked.bind_eq_ok.mp hdone
    cases hdone
    exact planned (chooseEntering_replans hw)
  | tightenLower x _ => exact aside (tightenLower_spares hs (of_replyDone hdone))
  | tightenUpper x _ => exact aside (tightenUpper_spares hs (of_replyDone hdone))
  | moveNonBasic x follow _ _ =>
    obtain ⟨w, hw, rfl⟩ := moveNonBasic_moves hs.state (of_replyDone hdone)
    exact aside hw.revalues.spares
  | computeValues => exact aside (computeValues_spares (of_replyDone hdone)).1
  | refactor =>
    obtain ⟨r, hr, -⟩ := of_replyAttempt hdone
    rw [(refactor_sameCosts hr).pricing, (refactor_sameSystem hr).1.nonBasicCount]
    exact ht.counted
  | addEquation _ =>
    obtain ⟨r, hr, -⟩ := of_replyAttempt hdone
    obtain ⟨hcosts, hcount⟩ := addEquation_costs hs hr
    rw [hcosts, hcount]
    exact ht.counted
  | merge _ _ _ _ _ _ _ =>
    obtain ⟨r, hr, -⟩ := of_replyAttempt hdone
    obtain ⟨hcosts, hcount⟩ := merge_costs hs hr
    rw [hcosts, hcount]
    exact ht.counted
  | computeColumn =>
    obtain ⟨column, -, hu⟩ := column_of_computeColumn hs (of_replyDone hdone)
    exact planned ⟨_, hu⟩
  | chooseLeaving => exact aside (Concludes.spares (chooseLeaving_concludes (of_replyDone hdone)))
  | computeRow _ =>
    obtain ⟨i, row, -, -, hu⟩ := computeRow_spec (of_replyDone hdone)
    exact planned ⟨_, hu⟩
  | performPivot =>
    -- an exchange replaces the costs by as many, and starting the inverse over leaves them alone
    have hpivot := of_replyDone hdone
    rw [(performPivot_sameSystem hs hpivot).nonBasicCount, ← ht.counted]
    obtain ⟨w, hw, hend⟩ := performPivot_cases hs hpivot
    have hcosts : w.pricing.costs.length = t.pricing.costs.length := by
      rcases hw with hw | ⟨v, j, i, pricing, -, hp, -, hr, _, _, rfl⟩
      · rw [hw.spares.costs]
      · exact hr.length_costs.trans (congrArg (List.length ∘ Pricing.costs) hp)
    rcases refactorIfDue_reinverts hend with ⟨_, _, rfl⟩ | ⟨_, -, -, _, _, rfl⟩ <;> exact hcosts

/-- No request leaves the basis behind. -/
theorem Asks.goesOn (h : t.Asks phase op) : op.goesOn = true := by
  cases h <;> rfl

/-- No request records standings anew. -/
theorem Asks.not_restands (h : t.Asks phase op) : ¬Restands op reply := by
  cases h <;> exact id

/-- **Preservation.** -/
theorem Asks.operable [LawfulZero α] (h : t.Asks phase op) (hcosts : Standing.CostsApart α)
    (ht : t.Operable σ) (hgoesOn : ∀ e cause, op = .addEquation e → reply ≠ .failed cause)
    (hdone : t.perform op = .ok (reply, u)) : u.Operable σ where
  shaped := by
    have hforward (s : State α) : op ≠ .restore s := by
      rintro rfl
      cases h
    exact (ht.shaped.perform (fun s hs => absurd hs (hforward s)) hdone).2
      fun e cause he => hgoesOn e _ he
  hasBasis := (Reports.perform ht.shaped ht.hasBasis h.goesOn hdone).basis.trans ht.hasBasis
  current := current_of_not_restands hcosts ht.shaped ht.current h.not_restands hdone
  anchored := by
    refine Anchored.perform ht.anchored ht.shaped (fun s hs => ?_) hdone
    subst hs
    cases h
  counted := h.counted ht hdone

/-- **Preparing a pivot.** -/
theorem Asks.holds (h : t.Asks phase op) (ht : t.Operable σ) (hp : t.Holds phase)
    (hdone : t.perform op = .ok (reply, u)) : u.Holds (phase.next op reply) := by
  cases h with
  | chooseEntering rule current =>
    obtain ⟨⟨found, next, w⟩, hw, hdone⟩ := Checked.bind_eq_ok.mp hdone
    cases hdone
    cases found with
    | false => trivial
    | true =>
      exact ⟨entering_of_chooseEntering hw, (chooseEntering_sameCosts hw).pricing.symm ▸ current⟩
  | computeColumn =>
    obtain ⟨column, hlen, rfl⟩ := column_of_computeColumn ht.shaped (of_replyDone hdone)
    exact ⟨hp.1, hp.2, hlen⟩
  | chooseLeaving =>
    obtain ⟨⟨j, hj⟩, -⟩ := hp
    exact targeted_of_chooseLeaving hj (of_replyDone hdone)
  | computeRow _ => exact hp.withRow (of_replyDone hdone)
  | _ => trivial

/-! ## §5.  Whole runs -/

/-- A tableau that was given a basis, whatever was done to it before. -/
def Initialized (t₀ : Tableau α) : Prop :=
  ∃ t, Operated anyStep t ∧ (t.start = .ok (.ok (), t₀) ∨ ∃ vs, t.startFrom vs = .ok (.ok (), t₀))

/-- A tableau is operable once it is initialized. -/
theorem Initialized.operable [LawfulZero α] {t₀ : Tableau α} (h : Initialized t₀) :
    t₀.Operable t₀.settings := by
  obtain ⟨t, hrun, hstart⟩ := h
  obtain ⟨σ, ht⟩ := hrun.shaped
  -- earlier operations may have left an inverse of another size; the start itself mends that
  obtain ⟨hshaped, hbegun⟩ : t₀.Shaped False σ ∧ Begun t t₀ := by
    rcases hstart with hstart | ⟨vs, hstart⟩
    · exact ⟨ht.start hstart, (start_sameSystem hstart).2 rfl⟩
    · exact ⟨ht.startFrom hstart, (startFrom_sameSystem hstart).2 rfl⟩
  rw [hshaped.settings]
  exact ⟨hshaped.grant hbegun.size, hbegun.hasBasis, hbegun.current,
    hbegun.sameSystem.anchored hrun.anchored, hshaped.costs hbegun.priced⟩

/-- **What holds along every run.** -/
theorem Driven.invariant [LawfulZero α] (hcosts : Standing.CostsApart α) {t₀ : Tableau α}
    (h₀ : t₀.Operable σ) (h : Driven t₀ phase t) : t.Operable σ ∧ t.Holds phase := by
  -- on the run: `operable` and `holds` are the step
  induction h with
  | begun => exact ⟨h₀, trivial⟩
  | asked _ asks goesOn done ih =>
    obtain ⟨ht, hp⟩ := ih
    exact ⟨asks.operable hcosts ht goesOn done, asks.holds ht hp done⟩

/-! ## §6.  A whole search -/

/-- The infeasibility can be computed. -/
theorem exists_infeasibility (hs : t.toState.Shaped)
    (hsplit : t.split.WellFormed t.rowCount t.varCount) : ∃ x, t.infeasibility = .ok x := by
  refine Checked.exists_bind (Checked.exists_mapM fun entry hentry => ?_) fun _ _ => ⟨_, rfl⟩
  obtain ⟨⟨standing, slot⟩, x⟩ := entry
  have hslot : slot ∈ t.split.basic := (List.of_mem_zip (List.of_mem_zip hentry).1).2
  obtain ⟨i, hi, rfl⟩ := List.mem_iff_getElem.mp hslot
  obtain ⟨v, hv, hlt, -⟩ := hsplit.basic.of_getElem? (List.getElem?_eq_getElem hi)
  have hassigned : ∃ w, Checked.assigned t.split.basic[i] = .ok w :=
    ⟨v, Checked.assigned_eq_ok.mpr hv⟩
  have named {w : Nat} (hw : Checked.assigned t.split.basic[i] = .ok w) : w < t.varCount := by
    cases hv.symm.trans (Checked.assigned_eq_ok.mp hw)
    exact hlt
  cases standing with
  | belowLower =>
    exact Checked.exists_bind hassigned fun w hw =>
      Checked.exists_bind (hs.exists_lower (named hw)) fun _ _ => ⟨_, rfl⟩
  | aboveUpper =>
    exact Checked.exists_bind hassigned fun w hw =>
      Checked.exists_bind (hs.exists_upper (named hw)) fun _ _ => ⟨_, rfl⟩
  | atLower | between | atUpper => exact ⟨0, rfl⟩

/-- The selections of a pivot can be read. -/
theorem exists_iteration (ht : t.Operable σ) (hp : t.Targeted) : ∃ x, t.iteration = .ok x := by
  have hsplit := ht.shaped.split ht.hasBasis
  obtain ⟨j, hj⟩ := hp.entering
  obtain ⟨l, hl⟩ := hp.leaving
  have hentering : ∃ v, t.enteringVariable = .ok v := by
    unfold enteringVariable
    simp only [hj]
    exact Checked.exists_bind_of_ok (hsplit.nonBasicAt_eq (ht.shaped.plan.entering j hj)) ⟨_, rfl⟩
  have hleaving : ∃ v, t.leavingVariable = .ok v := by
    unfold leavingVariable
    simp only [hl]
    cases l with
    | entering => exact hentering
    | basic i =>
      exact Checked.exists_getAt (ht.shaped.state.rows.symm ▸ ht.shaped.plan.leaving i hl)
  exact Checked.exists_bind hentering fun _ _ => Checked.exists_bind hleaving fun _ _ =>
    Checked.exists_bind (exists_infeasibility ht.shaped.state hsplit) fun _ _ => ⟨_, rfl⟩

section Search

variable [LawfulZero α] (hcosts : Standing.CostsApart α) (hσ : σ.PassesZeros)
include hcosts hσ

/-- One step of the protocol that only changes the tableau. -/
theorem Asks.exists_next (h : t.Asks phase op) (ht : t.Operable σ) (hp : t.Holds phase)
    {r : Checked (Tableau α)} (hr : t.perform op = replyDone r) :
    ∃ u, r = .ok u ∧ u.Operable σ ∧ u.Holds (phase.next op (.done : Reply α)) := by
  obtain ⟨⟨reply, u⟩, hu⟩ := h.exists_perform hσ ht hp
  obtain ⟨w, hw, hreply⟩ := Checked.bind_eq_ok.mp (hr ▸ hu)
  cases hreply
  exact ⟨u, hw, h.operable hcosts ht (fun _ _ _ h => by cases h) hu, h.holds ht hp hu⟩

/-- **An iteration**, once a variable is selected to enter. -/
theorem exists_leaveAndPivot (ht : t.Operable σ) (hp : t.Holds .entered) (withRow : Bool) :
    ∃ iteration u, t.leaveAndPivot withRow = .ok (iteration, u) ∧ u.Operable σ := by
  obtain ⟨v, hv, ht, hp⟩ := Asks.computeColumn.exists_next hcosts hσ ht hp rfl
  obtain ⟨w, hw, ht, hp⟩ := Asks.chooseLeaving.exists_next hcosts hσ ht hp rfl
  obtain ⟨x, hx⟩ := exists_iteration ht hp
  unfold leaveAndPivot
  rw [hv, Checked.ok_bind, hw, Checked.ok_bind, hx, Checked.ok_bind]
  -- with the row or without it, everything is selected
  have hpivot {y : Tableau α} (ht : y.Operable σ) (hp : y.Targeted) : ∃ iteration u,
      (do return (x, ← y.performPivot) : Checked (Iteration α × Tableau α)) = .ok (iteration, u)
        ∧ u.Operable σ := by
    obtain ⟨u, hu, ht, -⟩ := Asks.performPivot.exists_next hcosts hσ ht hp rfl
    exact ⟨x, u, Checked.bind_eq_ok.mpr ⟨u, hu, rfl⟩, ht⟩
  split
  next hrow =>
    have hfake : w.isFake = false := by simpa using (Bool.and_eq_true_iff.mp hrow).2
    obtain ⟨y, hy, ht, hp⟩ := (Asks.computeRow hfake).exists_next hcosts hσ ht hp rfl
    rw [hy, Checked.ok_bind]
    exact hpivot ht hp
  · exact hpivot ht hp

/-- **A search** comes to a verdict or to the end of its iterations. -/
theorem exists_search (withRow : Bool) (limit : Nat) (rule : EnteringRule) (ht : t.Operable σ) :
    ∃ result, t.search withRow limit rule = .ok result ∧ result.tableau.Operable σ := by
  -- on the iterations that are left; the rule changes with them, for some rules remember a position
  induction limit generalizing rule t with
  | zero => exact ⟨_, rfl, ht⟩
  | succ limit ih =>
    unfold search
    split
    · -- the costs are current before a rule looks at them
      obtain ⟨v, hv, ht, hstale⟩ : ∃ v, t.ensurePrices = .ok v ∧ v.Operable σ
          ∧ v.pricing.stale = false := by
        unfold ensurePrices
        split
        next hstale =>
          obtain ⟨v, hv, ht, -⟩ := Asks.computePrices.exists_next hcosts hσ ht trivial rfl
          exact ⟨v, hv, ht, stale_of_computePrices hv⟩
        next hstale => exact ⟨t, rfl, ht, by simpa using hstale⟩
      have hasks := Asks.chooseEntering rule hstale
      obtain ⟨⟨found, next, w⟩, hw⟩ :=
        exists_chooseEntering ht.shaped ht.hasBasis hstale rule
      have hdone : v.perform (.chooseEntering rule) = .ok (.selected found next, w) :=
        Checked.bind_eq_ok.mpr ⟨_, hw, rfl⟩
      have hp := hasks.holds ht trivial hdone
      have ht := hasks.operable hcosts ht (fun _ _ h => by cases h) hdone
      rw [hv, Checked.ok_bind, hw, Checked.ok_bind]
      cases found with
      | false => exact ⟨_, rfl, ht⟩
      | true =>
        obtain ⟨iteration, y, hy, ht⟩ := exists_leaveAndPivot hcosts hσ ht hp withRow
        obtain ⟨result, hresult, ht⟩ := ih next ht
        simp only [if_true, hy, Checked.ok_bind, hresult]
        exact ⟨_, rfl, ht⟩
    · exact ⟨_, rfl, ht⟩

end Search

/-! ## §7.  Exact arithmetic -/

section Exact

open Extended

variable {K : Type} [Field K] [LinearOrder K]

/-- A positive tolerance passes over zeros. -/
theorem passesZeros_of_pos {σ : Settings (Extended K)} (h : 0 < σ.columnTolerance) :
    σ.PassesZeros := by
  intro x hx
  rw [eq_of_same hx]
  show fin |(0 : K)| < σ.columnTolerance
  rw [abs, neg_zero, max_self]
  exact h

/-- **Every run of a driver.**  Whatever it may ask for has an outcome, there is always one cost and
    one entry of a computed row for each non-basic position, an entry that a pivot divides by is not
    zero, and the search for an assignment can take over between two pivots. -/
theorem exists_perform_of_driven {t₀ t : Tableau (Extended K)} {phase : Phase}
    (h₀ : Initialized t₀) (hτ : 0 < t₀.settings.columnTolerance) (h : Driven t₀ phase t) :
    (∀ op, t.Asks phase op → ∃ r, t.perform op = .ok r)
      ∧ t.pricing.costs.length = t.nonBasicCount
      ∧ (∀ row, t.plan.row = some row → row.entries.length = t.nonBasicCount)
      ∧ (phase = .aimed → ∀ i, t.plan.leaving = some (.basic i) →
        ∃ element, t.pivotElement i = .ok element ∧ element ≠ 0)
      ∧ (phase = .between → ∀ withRow limit rule, ∃ r, t.search withRow limit rule = .ok r) := by
  have hσ := passesZeros_of_pos hτ
  have hcosts : Standing.CostsApart (Extended K) := fun _ _ hsame => eq_of_same hsame
  obtain ⟨ht, hp⟩ := h.invariant hcosts h₀.operable
  refine ⟨fun op hop => hop.exists_perform hσ ht hp, ht.counted,
    fun row hrow => (ht.shaped.row ht.hasBasis row hrow).2, ?_, ?_⟩
  · rintro rfl i hi
    -- in the last phase before a pivot, everything is selected
    obtain ⟨element, helement, hne⟩ := Targeted.exists_pivotElement hp hi
    refine ⟨element, helement, ?_⟩
    rintro rfl
    exact hne (decide_eq_true rfl)
  · rintro rfl withRow limit rule
    obtain ⟨r, hr, -⟩ := exists_search hcosts hσ withRow limit rule ht
    exact ⟨r, hr⟩

/-- A merge, an equation over the merged variable, a bound, and the selections of a pivot. -/
theorem pivotElement_after_merge : ∃ t₀ t : Tableau (Extended ℚ), Initialized t₀
    ∧ 0 < t₀.settings.columnTolerance ∧ Driven t₀ .aimed t ∧ t.rowCount = 2
    ∧ t.merges.isMerged 1 = true ∧ t.plan.leaving = some (.basic 0)
    ∧ (∃ r, t.perform .performPivot = .ok r) ∧ t.pricing.costs.length = 3
    ∧ ∃ element, t.pivotElement 0 = .ok element ∧ element ≠ 0 := by
  have hrun : (do
      let t ← (create (α := Extended ℚ) {}).run [.setSize 1 4, .setCoefficients [1, 1, 1, 1],
        .setRightHandSide [fin 10], .setLower 0 0, .setLower 1 0, .setLower 2 0, .setLower 3 0,
        .setUpper 3 (fin 20)]
      let (r, t₀) ← t.startFrom [3]
      let (_, a) ← t₀.perform (.merge 1 0)
      let (reply, b) ← a.perform (.addEquation ⟨[⟨1, 1⟩, ⟨1, 2⟩], 0⟩)
      let (_, c) ← b.perform (.tightenUpper 3 (fin 5))
      let (_, d) ← c.perform .computePrices
      let (found, e) ← d.perform (.chooseEntering .first)
      let (_, f) ← e.perform .computeColumn
      let (_, g) ← f.perform .chooseLeaving
      Checked.require (0 < t₀.settings.columnTolerance ∧ 1 < t₀.varCount
        ∧ t₀.split.isBasic 1 = false ∧ t₀.split.isBasic 0 = false
        ∧ t₀.merges.Stands 1 ∧ t₀.merges.Stands 0) .inconsistent
      Checked.require (2 < a.varCount ∧ 3 < b.varCount ∧ d.pricing.stale = false) .inconsistent
      Checked.require ((r matches .ok _) = true ∧ (reply matches .variable _) = true
        ∧ (found matches .selected true _) = true) .inconsistent
      Checked.require (g.rowCount = 2 ∧ g.merges.isMerged 1 = true
        ∧ g.plan.leaving = some (Leaving.basic 0) ∧ g.nonBasicCount = 3) .inconsistent)
      = .ok () := by
    decide +kernel
  obtain ⟨t, ht, hrun⟩ := Checked.bind_eq_ok.mp hrun
  obtain ⟨⟨r, t₀⟩, ht₀, hrun⟩ := Checked.bind_eq_ok.mp hrun
  obtain ⟨⟨merged, a⟩, ha, hrun⟩ := Checked.bind_eq_ok.mp hrun
  obtain ⟨⟨reply, b⟩, hb, hrun⟩ := Checked.bind_eq_ok.mp hrun
  obtain ⟨⟨tightened, c⟩, hc, hrun⟩ := Checked.bind_eq_ok.mp hrun
  obtain ⟨⟨priced, d⟩, hd, hrun⟩ := Checked.bind_eq_ok.mp hrun
  obtain ⟨⟨found, e⟩, he, hrun⟩ := Checked.bind_eq_ok.mp hrun
  obtain ⟨⟨measured, f⟩, hf, hrun⟩ := Checked.bind_eq_ok.mp hrun
  obtain ⟨⟨aimed, g⟩, hg, hrun⟩ := Checked.bind_eq_ok.mp hrun
  obtain ⟨_, hbefore, hrun⟩ := Checked.bind_eq_ok.mp hrun
  obtain ⟨_, hlater, hrun⟩ := Checked.bind_eq_ok.mp hrun
  obtain ⟨_, hreplies, hrun⟩ := Checked.bind_eq_ok.mp hrun
  obtain ⟨hτ, hvars, hrole, hrole', hstands, hstands'⟩ := Checked.require_eq_ok.mp hbefore
  obtain ⟨hvars', hvar, hcurrent⟩ := Checked.require_eq_ok.mp hlater
  obtain ⟨hstarted, hreply, hfound⟩ := Checked.require_eq_ok.mp hreplies
  obtain ⟨hrows, hmerged, hleaving, hcount⟩ := Checked.require_eq_ok.mp hrun
  have h₀ : Initialized t₀ := by
    refine ⟨t, (Operated.created _).runForward (by simp) ht, .inr ⟨[3], ?_⟩⟩
    cases r with
    | ok => exact ht₀
    | error => cases hstarted
  -- the run of the example, one request after the other
  have hdriven : Driven t₀ .aimed g := by
    have hmerge :=
      Driven.begun.asked (.merge (by decide) hvars (Nat.zero_lt_of_lt hvars) hrole hrole'
      hstands hstands') (fun _ _ h => by cases h) ha
    have hequation := hmerge.asked (.addEquation (by simp; omega)) (fun _ cause _ h => by
      subst h
      cases hreply) hb
    have hpriced := (hequation.asked (.tightenUpper _ hvar) (fun _ _ h => by cases h) hc).asked
      .computePrices (fun _ _ h => by cases h) hd
    have hentered : Driven t₀ .entered e := by
      have hentering := hpriced.asked (.chooseEntering .first hcurrent) (fun _ _ h => by cases h) he
      cases found with
      | selected entering _ =>
        cases entering with
        | true => exact hentering
        | false => cases hfound
      | _ => cases hfound
    exact (hentered.asked .computeColumn (fun _ _ h => by cases h) hf).asked
      .chooseLeaving (fun _ _ h => by cases h) hg
  obtain ⟨hgoes, hcosts, -, hpivot, -⟩ := exists_perform_of_driven h₀ hτ hdriven
  exact ⟨t₀, g, h₀, hτ, hdriven, hrows, hmerged, hleaving, hgoes _ .performPivot,
    hcosts.trans hcount, hpivot rfl 0 hleaving⟩

end Exact

end Tableau

end BoundedSimplex
