/-
  BoundedSimplex.Proofs.Tableau.ProgressPivot — a pivot that cannot break a contract.

  A ratio test divides by entries of the change column, a pivot by the one in the row that leaves.
  Entries below the column tolerance are passed over; where that takes care of zeros
  (`PassesZeros`), a test comes to an outcome, and the pivot divides by an entry that the test
  divided by before it.

  Main results:
    * `exists_computeColumn`, `exists_chooseLeaving`, `exists_computeRow` — the selections;
    * `Targeted` — what a pivot needs, and `targeted_of_chooseLeaving` — that a test provides it;
    * `exists_performPivot`, `exists_performDegenerate` — the pivots, and
      `exists_performPivot_of_divides` — the one right after a test.
-/
import BoundedSimplex.Proofs.Tableau.Anchored
import BoundedSimplex.Proofs.Tableau.Progress

namespace BoundedSimplex

variable {α : Type} [Scalar α]

/-- Zero is below the column tolerance. -/
def Settings.PassesZeros (σ : Settings α) : Prop :=
  ∀ x : α, (x == 0) = true → Scalar.magnitude x < σ.columnTolerance

namespace Tableau

variable {solved : Prop} {σ : Settings α} {t u : Tableau α}

/-! ## §1.  The change column -/

theorem exists_computeColumn (ht : t.Shaped solved σ) (hb : t.hasBasis = true)
    (hsize : t.inverse.size = t.rowCount) {j : Nat} (hj : t.plan.entering = some j) :
    ∃ u, t.computeColumn = .ok u := by
  have hlt := ht.plan.entering j hj
  obtain ⟨c, hc, hlen⟩ := ht.state.matrix.exists_column ((ht.split hb).nonBasicVar_lt hlt)
  obtain ⟨column, hsolve, -⟩ := ht.inverse.exists_solveColumn (hlen.trans hsize.symm)
  refine Checked.exists_bind_of_ok (enteringIndex_eq_ok.mpr hj) ?_
  refine Checked.exists_bind_of_ok ((ht.split hb).nonBasicAt_eq hlt) ?_
  exact Checked.exists_bind_of_ok hc (Checked.exists_bind_of_ok hsolve ⟨_, rfl⟩)

/-! ## §2.  The ratio test -/

/-- Everything that a ratio test asks for has an answer. -/
structure Testable (t : Tableau α) : Prop where
  falls : ∃ falls, t.enteringFalls = .ok falls
  range : ∀ falls, ∃ range, t.enteringRange falls = .ok range
  room : ∀ i < t.rowCount, ∀ rises, ∃ space, t.basicRoom i rises = .ok space
  column : t.plan.column.length = t.rowCount
  passesZeros : t.settings.PassesZeros

namespace Testable

variable (ht : t.Testable)
include ht

theorem row_of_mem_zipIdx {entry : α × Nat} (hentry : entry ∈ t.plan.column.zipIdx) :
    entry.2 < t.rowCount :=
  ht.column ▸ (List.getElem?_eq_some_iff.mp (List.mem_zipIdx_iff_getElem?.mp hentry)).1

/-- An entry that is not passed over is not zero. -/
theorem exists_ratioAt {i : Nat} (hi : i < t.rowCount) {entry : α}
    (hentry : ¬Scalar.magnitude entry < t.settings.columnTolerance) (falls : Bool) :
    ∃ ratio, t.ratioAt i entry falls = .ok ratio := by
  have hne : ¬(entry == 0) = true := fun hz => hentry (ht.passesZeros entry hz)
  exact Checked.exists_bind (Checked.exists_require hne) fun _ _ =>
    Checked.exists_bind (ht.room i hi _) fun _ _ => ⟨_, rfl⟩

theorem exists_relaxedBound (falls : Bool) (range : α) :
    ∃ bound, t.relaxedBound falls range = .ok bound := by
  refine Checked.exists_bind (Checked.exists_mapM fun entry hentry => ?_) fun _ _ => ⟨_, rfl⟩
  have hi := ht.row_of_mem_zipIdx (List.mem_of_mem_filter hentry)
  exact Checked.exists_bind (ht.room _ hi _) fun _ _ => ⟨_, rfl⟩

/-- **The textbook test.** -/
theorem exists_standard : ∃ u, t.standardRatioTest = .ok u := by
  refine Checked.exists_bind ht.falls fun falls _ =>
    Checked.exists_bind (ht.range falls) fun range _ =>
      Checked.exists_bind (Checked.exists_foldlM_of_forall (fun entry hentry best => ?_) _)
        fun _ hbest => exists_conclude (dividesAt_of_tightest hbest) _ _
  unfold tighter
  split
  · exact ⟨best, rfl⟩
  next hlarge =>
    exact Checked.exists_bind (ht.exists_ratioAt (ht.row_of_mem_zipIdx hentry) hlarge falls)
      fun _ _ => ⟨_, rfl⟩

/-- **The relaxed test.** -/
theorem exists_harris : ∃ u, t.harrisRatioTest = .ok u := by
  refine Checked.exists_bind ht.falls fun falls _ =>
    Checked.exists_bind (ht.range falls) fun range _ =>
      Checked.exists_bind (ht.exists_relaxedBound falls range) fun bound _ => ?_
  -- Without a bound nothing is scanned.
  split
  · exact exists_conclude (fun _ h => by cases h) _ _
  refine Checked.exists_bind (Checked.exists_foldlM_of_forall (fun entry hentry scan => ?_) _)
    fun scan hscan => ?_
  · unfold HarrisScan.look
    dsimp only
    split
    · exact ⟨scan, rfl⟩
    next hlarge =>
      exact Checked.exists_bind (ht.exists_ratioAt (ht.row_of_mem_zipIdx hentry) hlarge falls)
        fun _ _ => ⟨_, rfl⟩
  -- The scan may have found no row, or one whose entry was large enough to divide by.
  · rcases hchosen : scan.chosen with _ | ⟨i, size, ratio⟩
    · exact exists_conclude (fun _ h => by cases h) _ _
    · have hrow := dividesAt_of_scan hscan i size ratio hchosen
      obtain ⟨_, _, hsilent⟩ := silent_remarkIf t (decide (ratio > scan.exactMinimum))
        (.harrisAccepts ratio scan.exactMinimum)
      dsimp only
      rw [hsilent]
      exact exists_conclude (fun _ h => by cases h; exact hrow) _ _

end Testable

section RatioTest

variable (ht : t.Shaped solved σ) (hb : t.hasBasis = true)
include ht

/-- Current or not, there is a cost for the entering variable. -/
theorem exists_enteringFalls {j : Nat} (hj : t.plan.entering = some j)
    (hcosts : t.pricing.costs.length = t.nonBasicCount) : ∃ falls, t.enteringFalls = .ok falls := by
  refine Checked.exists_bind_of_ok (enteringIndex_eq_ok.mpr hj) ?_
  exact Checked.exists_bind
    (Checked.exists_getAt (hcosts.symm ▸ ht.plan.entering j hj)) fun _ _ => ⟨_, rfl⟩

include hb

theorem exists_enteringRange {j : Nat} (hj : t.plan.entering = some j) (falls : Bool) :
    ∃ range, t.enteringRange falls = .ok range := by
  have hlt := ht.plan.entering j hj
  have hv := (ht.split hb).nonBasicVar_lt hlt
  refine Checked.exists_bind_of_ok (enteringIndex_eq_ok.mpr hj) ?_
  refine Checked.exists_bind_of_ok ((ht.split hb).nonBasicAt_eq hlt) ?_
  exact Checked.exists_bind (ht.state.exists_nonBasicValue hlt) fun _ _ =>
    Checked.exists_bind (ht.state.exists_lower hv) fun _ _ =>
      Checked.exists_bind (ht.state.exists_upper hv) fun _ _ => ⟨_, rfl⟩

theorem exists_basicRoom {i : Nat} (hi : i < t.rowCount) (rises : Bool) :
    ∃ space, t.basicRoom i rises = .ok space := by
  have hv := (ht.split hb).basicVar_lt hi
  refine Checked.exists_bind_of_ok ((ht.split hb).basicAt_eq hi) ?_
  exact Checked.exists_bind (ht.state.exists_basicValue hi) fun _ _ =>
    Checked.exists_bind (ht.state.exists_lower hv) fun _ _ =>
      Checked.exists_bind (ht.state.exists_upper hv) fun _ _ =>
        Checked.exists_bind (ht.state.exists_recorded hi) fun _ _ => ⟨_, rfl⟩

variable (hσ : σ.PassesZeros) (hcolumn : t.plan.column.length = t.rowCount) {j : Nat}
  (hj : t.plan.entering = some j)
include hσ hcolumn hj

/-- What has the right dimensions can be tested once there is a direction. -/
theorem Shaped.testable (hfalls : ∃ falls, t.enteringFalls = .ok falls) : t.Testable where
  falls := hfalls
  range falls := exists_enteringRange ht hb hj falls
  room _ hi rises := exists_basicRoom ht hb hi rises
  column := hcolumn
  passesZeros := ht.settings.symm ▸ hσ

variable (hcosts : t.pricing.costs.length = t.nonBasicCount)
include hcosts

theorem exists_standardRatioTest : ∃ u, t.standardRatioTest = .ok u :=
  (ht.testable hb hσ hcolumn hj (exists_enteringFalls ht hj hcosts)).exists_standard

theorem exists_harrisRatioTest : ∃ u, t.harrisRatioTest = .ok u :=
  (ht.testable hb hσ hcolumn hj (exists_enteringFalls ht hj hcosts)).exists_harris

/-- **The ratio test** comes to an outcome, whichever one is asked for. -/
theorem exists_chooseLeaving : ∃ u, t.chooseLeaving = .ok u := by
  refine Checked.exists_bind (Checked.exists_require hcolumn) fun _ _ => ?_
  -- both tests leave the entering variable as it is, which is named in the remark
  have hnamed {w : Tableau α} (hw : Concludes t w) : ∃ u, (do
      let v ← w.split.nonBasicAt (← w.enteringIndex)
      return w.remark (.ratioTest (w.plan.leaving.getD .entering) w.plan.distance v) :
        Checked (Tableau α)) = .ok u := by
    obtain ⟨_, _, _, -, _, _, rfl⟩ := hw
    exact Checked.exists_bind_of_ok (enteringIndex_eq_ok.mpr hj)
      (Checked.exists_bind_of_ok ((ht.split hb).nonBasicAt_eq (ht.plan.entering j hj)) ⟨_, rfl⟩)
  split
  · exact Checked.exists_bind (exists_harrisRatioTest ht hb hσ hcolumn hj hcosts)
      fun _ hw => hnamed (harrisRatioTest_concludes hw)
  · exact Checked.exists_bind (exists_standardRatioTest ht hb hσ hcolumn hj hcosts)
      fun _ hw => hnamed (standardRatioTest_concludes hw)

end RatioTest

/-! ## §3.  The selections of a pivot -/

/-- Everything that a pivot needs is selected, and the entry that it divides by is not zero. -/
structure Targeted (t : Tableau α) : Prop where
  entering : ∃ j, t.plan.entering = some j
  leaving : ∃ l, t.plan.leaving = some l
  column : t.plan.column.length = t.rowCount
  divides : ∀ i, t.plan.leaving = some (.basic i) → t.DividesAt i

/-- **A ratio test** selects what a pivot needs. -/
theorem Divides.targeted {j : Nat} (hj : t.plan.entering = some j)
    (hcolumn : t.plan.column.length = t.rowCount) (h : Divides t u) : u.Targeted := by
  obtain ⟨leaving, distance, falls, hrow, _, _, rfl⟩ := h
  exact ⟨⟨j, hj⟩, ⟨leaving, rfl⟩, hcolumn, fun i hi => hrow i (Option.some.inj hi)⟩

theorem targeted_of_chooseLeaving {j : Nat} (hj : t.plan.entering = some j)
    (h : t.chooseLeaving = .ok u) : u.Targeted := by
  have hcolumn : t.plan.column.length = t.rowCount := by
    obtain ⟨_, hlen, -⟩ := Checked.bind_eq_ok.mp h
    exact Checked.require_eq_ok.mp hlen
  exact (chooseLeaving_divides h).targeted hj hcolumn

/-- **The row of the leaving variable** can be computed unless the basis stays. -/
theorem exists_computeRow (ht : t.Shaped solved σ) (hb : t.hasBasis = true)
    (hsize : t.inverse.size = t.rowCount) {i : Nat} (hi : t.plan.leaving = some (.basic i)) :
    ∃ u, t.computeRow = .ok u := by
  have hlt := ht.plan.leaving i hi
  unfold computeRow
  simp only [hi]
  refine Checked.exists_bind ?_ fun _ _ => ⟨_, rfl⟩
  -- The row of the inverse, and its product with each non-basic column.
  obtain ⟨rho, hrho, hlen⟩ := ht.inverse.exists_solveRow
    ((Scalar.length_unit t.rowCount i).trans hsize.symm)
  refine Checked.exists_bind (Checked.exists_require hlt) fun _ _ =>
    Checked.exists_bind_of_ok hrho (Checked.exists_bind (Checked.exists_mapM fun v hv => ?_)
      fun _ _ => Checked.exists_bind (Checked.exists_getAt (ht.state.rows.symm ▸ hlt))
        fun _ _ => ⟨_, rfl⟩)
  obtain ⟨k, hk, rfl⟩ := List.mem_iff_getElem.mp hv
  have hvar := ((ht.split hb).nonBasic.of_getElem? (List.getElem?_eq_getElem hk)).1
  obtain ⟨column, hc, hshaped⟩ := ht.state.matrix.exists_sparseColumn hvar
  have hdot := hshaped.inRange.dot_eq ((hlen.trans hsize).trans hshaped.length.symm)
  exact Checked.exists_bind_of_ok hc (Checked.exists_bind_of_ok hdot ⟨_, rfl⟩)

theorem Targeted.withRow (h : t.Targeted) (hu : t.computeRow = .ok u) : u.Targeted := by
  obtain ⟨i, row, -, -, rfl⟩ := computeRow_spec hu
  exact ⟨h.entering, h.leaving, h.column, h.divides⟩

/-- The pivot element is there, and not zero. -/
theorem Targeted.exists_pivotElement (h : t.Targeted) {i : Nat}
    (hi : t.plan.leaving = some (.basic i)) :
    ∃ element, t.pivotElement i = .ok element ∧ ¬(element == 0) = true := by
  obtain ⟨element, hget, hne⟩ := h.divides i hi
  refine ⟨element, ?_, hne⟩
  exact Checked.bind_eq_ok.mpr ⟨(), Checked.require_eq_ok.mpr h.column,
    Checked.bind_eq_ok.mpr ⟨element, Checked.getAt_eq_ok.mpr hget,
      Checked.bind_eq_ok.mpr ⟨(), Checked.require_eq_ok.mpr hne, rfl⟩⟩⟩

/-! ## §4.  The pivot -/

/-- The costs of the basic variables are known where they are needed, whichever
    standings they are of. -/
def KnowsCosts (t : Tableau α) : Prop :=
  t.pricing.rule = .infeasibility → t.pricing.stale = false →
    t.pricing.basicCosts.length = t.rowCount

section Pivot

variable (ht : t.Shaped solved σ) (hb : t.hasBasis = true)
include ht hb

/-- A jump to the other bound goes through. -/
theorem exists_jump (hcolumn : t.plan.column.length = t.rowCount) {j : Nat}
    (hj : j < t.nonBasicCount) :
    ∃ u, t.jump j = .ok u := by
  have hv := (ht.split hb).nonBasicVar_lt hj
  refine Checked.exists_bind_of_ok ((ht.split hb).nonBasicAt_eq hj) ?_
  refine Checked.exists_bind (ht.state.exists_nonBasicValue hj) fun x _ =>
    Checked.exists_bind (ht.state.exists_lower hv) fun l _ =>
      Checked.exists_bind (ht.state.exists_upper hv) fun b _ => ?_
  -- The values are shifted and told, the places are kept.
  have hmoved : Moves t ({ t with
      basicValues := shift ((if t.plan.enteringFalls then l else b) - x) t.basicValues t.plan.column
      nonBasicValues := t.nonBasicValues.set j (if t.plan.enteringFalls then l else b) }.remark
        (.fakePivot (t.split.nonBasicVar j) t.change)) :=
    ⟨_, _, _, _, _, _, length_shift _ _ _, List.length_set, rfl, rfl⟩
  refine Checked.exists_bind (exists_classifyAll (hmoved.shaped ht).state (ht.split hb))
    fun w hw => ?_
  have hmoved := hmoved.trans (classifyAll_moves (hmoved.shaped ht).state hw)
  have hw := hmoved.shaped ht
  have hrows : t.plan.column.length = w.rowCount := by
    rw [State.rowCount, hmoved.spares.matrix]
    exact hcolumn
  exact Checked.exists_bind (exists_movedPairs (t := w.invalidatePrices.tellValue _ _) hw.state
    (hw.split (hmoved.hasBasis.trans hb)) hrows) fun _ _ => ⟨_, rfl⟩

theorem exists_performFake (hcolumn : t.plan.column.length = t.rowCount) {j : Nat}
    (hj : j < t.nonBasicCount) : ∃ u, t.performFake j = .ok u := by
  unfold performFake
  split
  · exact exists_jump ht hb hcolumn hj
  · exact ⟨_, rfl⟩

/-- The costs that claim to be current can follow an exchange. -/
theorem exists_followExchange {i j : Nat} (hi : t.pricing.rule = .infeasibility →
    t.pricing.stale = false → i < t.pricing.basicCosts.length) (hj : j < t.nonBasicCount)
    (element : α) :
    ∃ u, t.followExchange j i element = .ok u := by
  unfold followExchange
  split
  next row hrow =>
    have hlen := (ht.row hb row hrow).2
    split
    · exact Checked.exists_bind (Pricing.exists_follow hi (fun hstale =>
        (ht.costs hstale).trans hlen.symm) (hlen.symm ▸ hj)) fun _ _ => ⟨_, rfl⟩
    · exact ⟨_, rfl⟩
  · exact ⟨_, rfl⟩

/-- Two variables can exchange their places if the inverse can follow. -/
theorem exists_exchangePlaces (hsize : t.inverse.size = t.rowCount)
    (hcolumn : t.plan.column.length = t.rowCount) {i j : Nat} (hi : i < t.rowCount)
    (hj : j < t.nonBasicCount) (hdivides : t.DividesAt i) (x y : α) :
    ∃ r, t.exchangePlaces j i x y = .ok r := by
  obtain ⟨element, helement, hne⟩ := hdivides
  refine Checked.exists_bind_of_ok ((ht.split hb).swap_eq hj hi) ?_
  exact Checked.exists_bind (Checked.exists_setAt (ht.state.basicValues.symm ▸ hi) x) fun _ _ =>
    Checked.exists_bind (Checked.exists_setAt (ht.state.nonBasicValues.symm ▸ hj) y) fun _ _ =>
      Checked.exists_bind (ht.inverse.exists_update (hsize.symm ▸ hi) (hcolumn.trans hsize.symm)
        helement hne) fun _ _ => ⟨_, rfl⟩

/-- Costs of the right standings are as many. -/
theorem Current.knowsCosts (hc : t.Current) : t.KnowsCosts := by
  intro hrule hstale
  rw [hc ⟨hb, hrule, hstale⟩, List.length_map, ht.state.standings]

theorem exists_performExchange (hsize : t.inverse.size = t.rowCount) (hc : t.KnowsCosts)
    (hp : t.Targeted) {i j : Nat} (hi : t.plan.leaving = some (.basic i))
    (hj : j < t.nonBasicCount) :
    ∃ u, t.performExchange j i = .ok u := by
  have hlt := ht.plan.leaving i hi
  have hv := (ht.split hb).basicVar_lt hlt
  obtain ⟨element, helement, -⟩ := hp.exists_pivotElement hi
  refine Checked.exists_bind_of_ok helement ?_
  refine Checked.exists_bind_of_ok ((ht.split hb).basicAt_eq hlt) ?_
  refine Checked.exists_bind (ht.state.exists_recorded hlt) fun standing _ =>
    Checked.exists_bind (ht.state.exists_lower hv) fun l _ =>
      Checked.exists_bind (ht.state.exists_upper hv) fun b _ =>
        Checked.exists_bind (ht.state.exists_nonBasicValue hj) fun x _ => ?_
  have hshift : Moves t { t with basicValues := shift t.change t.basicValues t.plan.column } :=
    ⟨_, _, _, _, _, _, length_shift _ _ _, rfl, rfl, rfl⟩
  have hshifted := hshift.shaped ht
  refine Checked.exists_bind (exists_exchangePlaces hshifted hb hsize hp.column hlt hj
    (hp.divides i hi)
    _ _) fun r hr => ?_
  obtain ⟨⟨q, p⟩, w⟩ := r
  obtain ⟨hw, hplan, hpricing, -⟩ := hshifted.exchangePlaces hb hr
  obtain ⟨hsame, hbasis⟩ := exchangePlaces_sameSystem hr
  have hbasis : w.hasBasis = true := hbasis.trans hb
  -- from here on the rows stand for the new basic variables
  refine Checked.exists_bind (exists_classifyAll (t := w.remark _) hw.state (hw.split hbasis))
    fun w' hclass => ?_
  have hmoves : Moves w w' := (silent_remark w _).moves.trans
    (classifyAll_moves ((silent_remark w _).shaped hw).state hclass)
  have hw' := hmoves.shaped hw
  have hpricing' : w'.pricing = t.pricing := hmoves.pricing.trans hpricing
  have hmatrix : w'.matrix = t.matrix := hmoves.spares.matrix.trans hsame.matrix
  refine Checked.exists_bind (exists_followExchange hw' (hmoves.hasBasis.trans hbasis)
    (fun hrule hstale => ?_) ?_ element) fun y hy => ?_
  · rw [hpricing'] at hrule hstale ⊢
    exact (hc hrule hstale).symm ▸ hlt
  · show j < w'.matrix.columnCount - w'.matrix.rowCount
    rw [hmatrix]
    exact hj
  · obtain ⟨hstate, hplan', -⟩ := followExchange_frame hy
    have hcolumn : y.plan.column.length = y.rowCount := by
      rw [hplan', hmoves.plan, hplan, State.rowCount, hstate, hmatrix]
      exact hp.column
    refine Checked.exists_bind (exists_movedPairs (hstate ▸ hw'.state) ?_ hcolumn)
      fun _ _ => ⟨_, rfl⟩
    rw [hstate]
    exact hw'.split (hmoves.hasBasis.trans hbasis)

/-- **A pivot** that everything is selected for. -/
theorem exists_performPivot (hsize : t.inverse.size = t.rowCount) (hc : t.KnowsCosts)
    (hp : t.Targeted) : ∃ u, t.performPivot = .ok u := by
  obtain ⟨j, hj⟩ := hp.entering
  obtain ⟨l, hl⟩ := hp.leaving
  have hlt := ht.plan.entering j hj
  refine Checked.exists_bind (Checked.exists_require hb) fun _ _ =>
    Checked.exists_bind_of_ok (enteringIndex_eq_ok.mpr hj) ?_
  simp only [hl]
  -- The entering variable jumps to its other bound, or trades places with a row.
  cases l with
  | entering =>
    refine Checked.exists_bind (exists_performFake ht hb hp.column hlt) fun w hw => ?_
    have hmoved := performFake_revalues ht hw
    exact exists_finish (hmoved.shaped ht) (hmoved.spares.hasBasis.trans hb)
  | basic i =>
    refine Checked.exists_bind (exists_performExchange ht hb hsize hc hp hl hlt) fun w hw => ?_
    exact exists_finish (performExchange_reprices ht hb hw).shaped
      ((performExchange_sameSystem hw).2.trans hb)

/-- **The pivot after a ratio test**, with the row of the leaving variable or without it. -/
theorem exists_performPivot_of_divides (hsize : t.inverse.size = t.rowCount) (hc : t.KnowsCosts)
    {j : Nat} (hj : t.plan.entering = some j) (hcolumn : t.plan.column.length = t.rowCount)
    {v w : Tableau α} (hw : Divides t w) (hv : v = w ∨ w.computeRow = .ok v) :
    ∃ row u, v = { w with plan := { w.plan with row } } ∧ v.performPivot = .ok u := by
  have hshaped := hw.concludes.shaped ht
  have htargeted := hw.targeted hj hcolumn
  -- computing the row leaves everything else alone
  obtain ⟨hshaped', htargeted', row, rfl⟩ : v.Shaped solved σ ∧ v.Targeted
      ∧ ∃ row, v = { w with plan := { w.plan with row } } := by
    rcases hv with rfl | hv
    · exact ⟨hshaped, htargeted, _, rfl⟩
    · obtain ⟨i, row, -, -, he⟩ := computeRow_spec hv
      exact ⟨hshaped.computeRow hv, htargeted.withRow hv, _, he⟩
  obtain ⟨_, _, _, -, _, _, rfl⟩ := hw
  obtain ⟨u, hu⟩ := exists_performPivot hshaped' hb hsize hc htargeted'
  exact ⟨row, u, rfl, hu⟩

/-- **An exchange without a move**, for a leaving variable that violates no bound. -/
theorem exists_performDegenerate (hsize : t.inverse.size = t.rowCount) (hc : t.KnowsCosts)
    (hp : t.Targeted) {i : Nat} (hi : t.plan.leaving = some (.basic i))
    (hin : ∀ s, t.standings[i]? = some s → s.isOutOfBounds = false) :
    ∃ u, t.performDegenerate = .ok u := by
  obtain ⟨j, hj⟩ := hp.entering
  have hlt := ht.plan.leaving i hi
  have hjlt := ht.plan.entering j hj
  have hrow : t.leavingRow = .ok i := by
    unfold leavingRow
    rw [hi]
  obtain ⟨standing, hstanding⟩ := ht.state.exists_recorded hlt
  obtain ⟨element, helement, -⟩ := hp.exists_pivotElement hi
  -- the reads come first, and then the exchange itself
  refine Checked.exists_bind (Checked.exists_require hb) fun _ _ =>
    Checked.exists_bind_of_ok (enteringIndex_eq_ok.mpr hj) ?_
  refine Checked.exists_bind_of_ok hrow (Checked.exists_bind_of_ok hstanding ?_)
  refine Checked.exists_bind
    (Checked.exists_require (hin standing (Checked.getAt_eq_ok.mp hstanding)))
    fun _ _ => Checked.exists_bind_of_ok helement ?_
  refine Checked.exists_bind (ht.state.exists_nonBasicValue hjlt) fun x _ =>
    Checked.exists_bind (ht.state.exists_basicValue hlt) fun y _ =>
      Checked.exists_bind (exists_exchangePlaces ht hb hsize hp.column hlt hjlt
        (hp.divides i hi) x y)
        fun r hr => ?_
  obtain ⟨⟨q, p⟩, w⟩ := r
  obtain ⟨hw, hplan, hpricing, -⟩ := ht.exchangePlaces hb hr
  obtain ⟨hsame, hbasis⟩ := exchangePlaces_sameSystem hr
  have hbasis : w.hasBasis = true := hbasis.trans hb
  have hrows : i < w.rowCount := by
    rw [State.rowCount, hsame.matrix]
    exact hlt
  refine Checked.exists_bind (exists_classifyAt (t := w.remark _) hw.state (hw.split hbasis) hrows)
    fun w' hclass => ?_
  have hmoves : Moves w w' := (silent_remark w _).moves.trans (classifyAt_moves hclass)
  have hw' := hmoves.shaped hw
  refine Checked.exists_bind (exists_followExchange hw' (hmoves.hasBasis.trans hbasis)
    (fun hrule hstale => ?_) ?_ element) fun v hv => ?_
  · rw [hmoves.pricing.trans hpricing] at hrule hstale ⊢
    exact (hc hrule hstale).symm ▸ hlt
  · show j < w'.matrix.columnCount - w'.matrix.rowCount
    rw [hmoves.spares.matrix.trans hsame.matrix]
    exact hjlt
  · have he : w'.plan.column.getD i 0 = element := by
      rw [hmoves.plan, hplan]
      exact getD_of_pivotElement helement
    obtain ⟨pricing, hs, hrepriced⟩ := followExchange_spec he hv
    have hreprices : Reprices solved σ w' v := ⟨w', j, i, pricing, hw', rfl, rfl, hrepriced, hs⟩
    obtain ⟨-, -, hvbasis⟩ := followExchange_frame hv
    have hcounted := (silent_count v .pivots).trans (silent_count _ .degeneratePivots)
    refine exists_finish (hreprices.silent hcounted).shaped ?_
    exact hvbasis.trans (hmoves.hasBasis.trans hbasis)

end Pivot

end Tableau

end BoundedSimplex
