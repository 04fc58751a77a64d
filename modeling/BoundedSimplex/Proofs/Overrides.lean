/-
  BoundedSimplex.Proofs.Overrides — pivots over a distance that no ratio test chose.

  The distance and the leaving variable can be set by hand.  A pivot without an exchange takes the
  entering variable to its other bound all the same, and an exchange puts the leaving variable on
  the bound ahead, wherever the step takes it.  So the entering variable moves by the distance and
  the equations hold afterwards exactly if that bound is where the distance takes the variable
  that is put on it.

  Main results:
    * `jump_state`, `performExchange_state` — the values after the two kinds of pivot,
      in any arithmetic;
    * `satisfied_of_jump`, `satisfied_of_exchange` — when the equations hold afterwards;
    * `performPivot_overridden` — both kinds in one.
-/
import BoundedSimplex.Proofs.SafeStep

namespace BoundedSimplex

open Extended

/-! ## §1.  The values after a pivot -/

namespace State

variable {α : Type} {s : State α} {x : α}

/-- The value of a basic variable is that of its row. -/
theorem storedValue_basicVar (h : s.split.WellFormed s.rowCount s.varCount) {i : Nat}
    (hi : i < s.rowCount) (hx : s.basicValues[i]? = some x) :
    s.storedValue (s.split.basicVar i) = .ok x := by
  unfold storedValue
  rw [h.positionOf_eq (h.basicVar_lt hi), Checked.ok_bind, if_pos (h.isBasic_basicVar hi),
    h.place_basicVar hi]
  exact Checked.getAt_eq_ok.mpr hx

/-- The stored value of a non-basic variable is the one at its position. -/
theorem storedValue_nonBasicVar (h : s.split.WellFormed s.rowCount s.varCount) {j : Nat}
    (hj : j < s.nonBasicCount) (hx : s.nonBasicValues[j]? = some x) :
    s.storedValue (s.split.nonBasicVar j) = .ok x := by
  unfold storedValue
  rw [h.positionOf_eq (h.nonBasicVar_lt hj), Checked.ok_bind, h.isBasic_nonBasicVar hj,
    if_neg Bool.false_ne_true, h.place_nonBasicVar hj]
  exact Checked.getAt_eq_ok.mpr hx

end State

namespace Tableau

section Values

variable {α : Type} [Scalar α] {t u : Tableau α} {j : Nat}

/-- **A jump** puts the entering variable on the bound ahead, and the rows follow. -/
theorem jump_state (hs : t.split.WellFormed t.rowCount t.varCount)
    (hj : j < t.nonBasicCount) {x l b : α} (hx : t.nonBasicValues[j]? = some x)
    (hl : t.bounds.lower (t.split.nonBasicVar j) = .ok l)
    (hb : t.bounds.upper (t.split.nonBasicVar j) = .ok b) (h : t.jump j = .ok u) :
    ∃ ss, u.toState = { t.toState with
      basicValues := shift ((if t.plan.enteringFalls then l else b) - x) t.basicValues t.plan.column
      nonBasicValues := t.nonBasicValues.set j (if t.plan.enteringFalls then l else b)
      standings := ss } := by
  obtain ⟨v, hv, h⟩ := Checked.bind_eq_ok.mp h
  obtain ⟨x', hx', h⟩ := Checked.bind_eq_ok.mp h
  obtain ⟨l', hl', h⟩ := Checked.bind_eq_ok.mp h
  obtain ⟨b', hb', h⟩ := Checked.bind_eq_ok.mp h
  obtain ⟨w, hw, h⟩ := Checked.bind_eq_ok.mp h
  obtain ⟨pairs, -, h⟩ := Checked.bind_eq_ok.mp h
  obtain rfl := Except.ok.inj ((hs.nonBasicAt_eq hj).symm.trans hv)
  obtain rfl := Except.ok.inj ((Checked.getAt_eq_ok.mpr hx).symm.trans hx')
  obtain rfl := Except.ok.inj (hl.symm.trans hl')
  obtain rfl := Except.ok.inj (hb.symm.trans hb')
  obtain ⟨ss, -, rfl⟩ := of_classifyAll hw
  cases h
  exact ⟨ss, (silent_tellValues _ pairs).toState⟩

/-- **An exchange** moves the entering variable by the distance and puts the leaving one
    on the bound ahead. -/
theorem performExchange_state (hs : t.split.WellFormed t.rowCount t.varCount) {i : Nat}
    (hj : j < t.nonBasicCount) (hi : i < t.rowCount) {x l b : α} {s : Standing}
    (hx : t.nonBasicValues[j]? = some x) (hst : t.standings[i]? = some s)
    (hl : t.bounds.lower (t.split.basicVar i) = .ok l)
    (hb : t.bounds.upper (t.split.basicVar i) = .ok b) (h : t.performExchange j i = .ok u) :
    ∃ ss, u.toState = { t.toState with
      split := t.split.swapped j i
      basicValues := (shift t.change t.basicValues t.plan.column).set i (x + t.change)
      nonBasicValues := t.nonBasicValues.set j (landing s t.plan.leavingRises l b)
      standings := ss } := by
  obtain ⟨element, -, h⟩ := Checked.bind_eq_ok.mp h
  obtain ⟨leaving, hv, h⟩ := Checked.bind_eq_ok.mp h
  obtain ⟨s', hst', h⟩ := Checked.bind_eq_ok.mp h
  obtain ⟨l', hl', h⟩ := Checked.bind_eq_ok.mp h
  obtain ⟨b', hb', h⟩ := Checked.bind_eq_ok.mp h
  obtain ⟨x', hx', h⟩ := Checked.bind_eq_ok.mp h
  obtain ⟨⟨⟨q, p⟩, w⟩, hplaces, h⟩ := Checked.bind_eq_ok.mp h
  obtain ⟨w', hclass, h⟩ := Checked.bind_eq_ok.mp h
  obtain ⟨w₂, hfollow, h⟩ := Checked.bind_eq_ok.mp h
  obtain ⟨pairs, -, h⟩ := Checked.bind_eq_ok.mp h
  have htold : u.toState = w₂.toState := by
    have htold := (((silent_tellValues w₂ pairs).trans (silent_tellValue _ leaving
      (landing s' t.plan.leavingRises l' b'))).trans (silent_count _ .pivots)).toState
    cases h
    split
    · exact htold
    · exact htold
  obtain rfl := Except.ok.inj ((hs.basicAt_eq hi).symm.trans hv)
  obtain rfl := Except.ok.inj ((Checked.getAt_eq_ok.mpr hst).symm.trans hst')
  obtain rfl := Except.ok.inj ((Checked.getAt_eq_ok.mpr hx).symm.trans hx')
  obtain rfl := Except.ok.inj (hl.symm.trans hl')
  obtain rfl := Except.ok.inj (hb.symm.trans hb')
  -- the two variables exchange their places
  obtain ⟨⟨names', split⟩, hswap, hplaces⟩ := Checked.bind_eq_ok.mp hplaces
  obtain ⟨xs, hbasic, hplaces⟩ := Checked.bind_eq_ok.mp hplaces
  obtain ⟨ys, hnon, hplaces⟩ := Checked.bind_eq_ok.mp hplaces
  obtain ⟨inverse, -, hplaces⟩ := Checked.bind_eq_ok.mp hplaces
  obtain ⟨-, rfl⟩ := Checked.setAt_eq_ok.mp hbasic
  obtain ⟨-, rfl⟩ := Checked.setAt_eq_ok.mp hnon
  rw [hs.swap_eq hj hi] at hswap
  cases hswap
  cases hplaces
  -- the rest of it changes standings, costs and what is told
  obtain ⟨ss, -, rfl⟩ := of_classifyAll hclass
  exact ⟨ss, htold.trans (followExchange_frame hfollow).1⟩

/-- Nothing of this changes when a pivot ends. -/
theorem finish_state (h : t.finish = .ok u) : u.toState = t.toState := by
  rcases refactorIfDue_reinverts h with ⟨_, _, rfl⟩ | ⟨_, -, -, _, _, rfl⟩
  · rfl
  · rfl

end Values

end Tableau

/-! ## §2.  Whether the equations hold -/

variable {K : Type} [Field K] [LinearOrder K]

namespace State

variable {s : State (Extended K)}

/-- Columns of a basis that has an inverse are not zero. -/
theorem exists_coeff_ne_zero (hunit : IsUnit s.basis) {i : Nat} (hi : i < s.rowCount) :
    ∃ k < s.rowCount, s.matrix.coeff k (s.split.basicVar i) ≠ 0 := by
  by_contra hnone
  refine ((Matrix.isUnit_iff_isUnit_det _).mp hunit).ne_zero ?_
  refine Matrix.det_eq_zero_of_column_eq_zero (⟨i, hi⟩ : Fin s.rowCount) fun k => ?_
  by_contra hne
  exact hnone ⟨k, k.isLt, hne⟩

end State

namespace Tableau

variable {t u : Tableau (Extended K)} {j : Nat} {leaving : Leaving} {r : K}

/-- The variable that a pivot puts on a bound: the leaving one, or else the entering one. -/
def settler (t : Tableau (Extended K)) (j : Nat) : Leaving → Nat
  | .entering => t.split.nonBasicVar j
  | .basic i => t.split.basicVar i

/-- The bound that it is put on. -/
def settledOn (t : Tableau (Extended K)) (j : Nat) : Leaving → Extended K
  | .entering => if t.plan.enteringFalls then t.bounds.lowerOf (t.split.nonBasicVar j)
      else t.bounds.upperOf (t.split.nonBasicVar j)
  | .basic i => landing (t.toState.standing t.settings.boundTolerance i) t.plan.leavingRises
      (t.bounds.lowerOf (t.split.basicVar i)) (t.bounds.upperOf (t.split.basicVar i))

/-- **The values after a jump**, which satisfy the equations if there is a bound to jump to. -/
theorem satisfied_of_jump (ht : t.Sound) (hj : t.Ready j) (hsat : t.toState.Satisfied)
    (hu : t.jump j = .ok u) :
    u.storedValue (t.split.nonBasicVar j) = .ok (t.settledOn j .entering)
      ∧ (u.toState.Satisfied ↔ ∃ y, t.settledOn j .entering = fin y) := by
  have hs := ht.state
  have hv := hs.split.nonBasicVar_lt hj.lt
  obtain ⟨ss, hstate⟩ := jump_state hs.split hj.lt (hs.nonBasic.getElem? hj.lt)
    (hs.bounds.lower_eq hv) (hs.bounds.upper_eq hv) hu
  have hvalue : u.storedValue (t.split.nonBasicVar j) = .ok (t.settledOn j .entering) := by
    rw [hstate]
    refine State.storedValue_nonBasicVar ?_ hj.lt ?_
    · exact hs.split
    · exact List.getElem?_set_self (by rw [hs.nonBasic.length]; exact hj.lt)
  refine ⟨hvalue, fun hsat' => ?_, fun ⟨y, hy⟩ => ?_⟩
  · refine hsat'.exists_fin ?_ hvalue
    rw [hstate]
    exact hv
  · have hy : (if t.plan.enteringFalls then t.bounds.lowerOf (t.split.nonBasicVar j)
      else t.bounds.upperOf (t.split.nonBasicVar j)) = fin y := hy
    -- All rows are shifted by what the column carries, so each of them stays satisfied.
    rw [hy, fin_sub] at hstate
    obtain ⟨hn, hcoord⟩ := numbers_shift (y - coord t.nonBasicValues j) hs.basic hj.column.1
    have hwell : State.WellFormed { t.toState with
        basicValues := shift (fin (y - coord t.nonBasicValues j)) t.basicValues t.plan.column
        nonBasicValues := t.nonBasicValues.set j (fin y)
        standings := ss } := hs.revalue hn (hs.nonBasic.set j y)
    rw [hstate]
    refine hwell.satisfied_iff.mpr fun i hi => ?_
    rw [State.residual_shifted hs hwell rfl rfl rfl hj.lt hj.column hcoord rfl hi]
    exact hs.satisfied_iff.mp hsat i hi

/-- The residuals after an exchange say how far the leaving variable is from where
    the step takes it. -/
theorem satisfied_iff_of_landing (ht : t.Sound) (hj : t.Ready j)
    (hsat : t.toState.Satisfied) {i : Nat} (hi : i < t.rowCount) {δ y : K} {ss : List Standing}
    (hu : u.toState = { t.toState with
      split := t.split.swapped j i
      basicValues := (shift (fin δ) t.basicValues t.plan.column).set i
        (fin (coord t.nonBasicValues j + δ))
      nonBasicValues := t.nonBasicValues.set j (fin y)
      standings := ss }) :
    u.toState.Satisfied ↔ y = coord t.basicValues i - coord t.plan.column i * δ := by
  have hs := ht.state
  obtain ⟨hn, hcoord⟩ := numbers_shift δ hs.basic hj.column.1
  have hwell : State.WellFormed { t.toState with
      split := t.split.swapped j i
      basicValues := (shift (fin δ) t.basicValues t.plan.column).set i
        (fin (coord t.nonBasicValues j + δ))
      nonBasicValues := t.nonBasicValues.set j (fin y)
      standings := ss } :=
    ⟨hs.matrix, hs.rhs, hs.bounds, hs.split.swap hj.lt hi, hn.set i _, hs.nonBasic.set j y⟩
  have hresidual (k : Nat) (hk : k < t.rowCount) : u.toState.residual k
      = t.matrix.coeff k (t.split.basicVar i)
        * (y - (coord t.basicValues i - coord t.plan.column i * δ)) := by
    rw [hu, State.residual_exchanged hs hwell rfl rfl hj.lt hi rfl hj.column δ
      (fun l hl => ?_) rfl hk, hs.satisfied_iff.mp hsat k hk, zero_add]
    rw [coord_set (by rw [hn.length]; exact hi), hcoord l hl]
  have hrows : u.rowCount = t.rowCount := by
    rw [hu]
    rfl
  rw [State.WellFormed.satisfied_iff (hu ▸ hwell), hrows]
  constructor
  · intro hzero
    -- the leaving variable has an entry in some row, which would show a difference
    obtain ⟨k, hk, hne⟩ := State.exists_coeff_ne_zero ht.unit hi
    have hprod := (hresidual k hk).symm.trans (hzero k hk)
    exact sub_eq_zero.mp ((mul_eq_zero.mp hprod).resolve_left hne)
  · intro hy k hk
    rw [hresidual k hk, hy, sub_self, mul_zero]

/-- **The values after an exchange**, which satisfy the equations if the leaving variable is put
    where the step takes it. -/
theorem satisfied_of_exchange (ht : t.Sound) (hj : t.Ready j) (hsat : t.toState.Satisfied) {i : Nat}
    (hi : i < t.rowCount) (hd : t.plan.distance = fin r) (hu : t.performExchange j i = .ok u) :
    u.storedValue (t.split.basicVar i) = .ok (t.settledOn j (.basic i))
      ∧ u.storedValue (t.split.nonBasicVar j)
        = .ok (fin (t.carried j t.plan.enteringFalls r .entering))
      ∧ (u.toState.Satisfied
        ↔ t.settledOn j (.basic i) = fin (t.carried j t.plan.enteringFalls r (.basic i))) := by
  have hs := ht.state
  have hv := hs.split.basicVar_lt hi
  have hswap := hs.split.swap hj.lt hi
  have hstanding : t.standings[i]? = some (t.toState.standing t.settings.boundTolerance i) := by
    rw [ht.standings, List.getElem?_map, List.getElem?_range hi, Option.map_some]
  obtain ⟨ss, hstate⟩ :=
    performExchange_state hs.split hj.lt hi (hs.nonBasic.getElem? hj.lt) hstanding
    (hs.bounds.lower_eq hv) (hs.bounds.upper_eq hv) hu
  rw [change_eq hd, fin_add] at hstate
  obtain ⟨hn, -⟩ := numbers_shift (if t.plan.enteringFalls then -r else r) hs.basic hj.column.1
  -- the two variables have changed places
  have hentered : u.split.basicVar i = t.split.nonBasicVar j := by
    rw [hstate]
    exact (hs.split.basicVar_swapped hi i).trans (if_pos rfl)
  have hleft : u.split.nonBasicVar j = t.split.basicVar i := by
    rw [hstate]
    exact (hs.split.nonBasicVar_swapped hj.lt j).trans (if_pos rfl)
  have hvalue : u.storedValue (t.split.basicVar i) = .ok (t.settledOn j (.basic i)) := by
    rw [← hleft, hstate]
    refine State.storedValue_nonBasicVar ?_ hj.lt ?_
    · exact hswap
    · exact List.getElem?_set_self (by rw [hs.nonBasic.length]; exact hj.lt)
  refine ⟨hvalue, ?_, ?_⟩
  · rw [← hentered, hstate]
    refine State.storedValue_basicVar ?_ hi ?_
    · exact hswap
    · exact List.getElem?_set_self (by rw [hn.length]; exact hi)
  have hiff {y : K} (hy : t.settledOn j (.basic i) = fin y) :
      u.toState.Satisfied ↔ y = t.carried j t.plan.enteringFalls r (.basic i) := by
    have hy : landing (t.toState.standing t.settings.boundTolerance i) t.plan.leavingRises
      (t.bounds.lowerOf (t.split.basicVar i)) (t.bounds.upperOf (t.split.basicVar i)) = fin y := hy
    rw [hy] at hstate
    exact satisfied_iff_of_landing ht hj hsat hi hstate
  constructor
  · intro hsat'
    obtain ⟨y, hy⟩ := hsat'.exists_fin (by rw [hstate]; exact hv) hvalue
    rw [hy, (hiff hy).mp hsat']
  · exact fun hy => (hiff hy).mpr rfl

/-- The equations hold, a variable was selected to enter and its change column was computed, so that
    the rest of a pivot can be selected. -/
structure Awaiting (t : Tableau (Extended K)) (j : Nat) : Prop where
  sound : t.Sound
  sized : t.Sized
  ready : t.Ready j
  satisfied : t.toState.Satisfied

namespace Awaiting

/-- The selections other than the entering variable may be replaced. -/
theorem replans (ht : t.Awaiting j) {plan : PivotPlan (Extended K)} (h : Replans t u plan)
    (hshaped : u.Shaped True t.settings) (hentering : plan.entering = t.plan.entering)
    (hcolumn : plan.column = t.plan.column) : u.Awaiting j := by
  have hsound := h.sound ht.sound
  obtain ⟨_, _, rfl⟩ := h
  refine ⟨hsound, ⟨hshaped, ht.sized.costs, ht.sized.knowsCosts⟩, ⟨?_, ht.ready.lt, ?_⟩,
    ht.satisfied⟩
  · exact hentering.trans ht.ready.entering
  · show t.toState.IsColumn plan.column (t.split.nonBasicVar j)
    rw [hcolumn]
    exact ht.ready.column

/-- Selecting a leaving row does not disturb what the pivot waits for. -/
theorem selectLeaving (ht : t.Awaiting j) {i : Nat} (h : t.selectLeaving i = .ok u) :
    u.Awaiting j := by
  have hshaped := ht.sized.shaped.selectLeaving h
  obtain ⟨-, rfl⟩ := selectLeaving_spec h
  exact ht.replans (replans_of_plan t _) hshaped rfl rfl

/-- Setting another distance does not either. -/
theorem setDistance (ht : t.Awaiting j) {x : Extended K} (h : t.setDistance x = .ok u) :
    u.Awaiting j := by
  have hshaped := ht.sized.shaped.setDistance h
  obtain ⟨_, -, h⟩ := Checked.bind_eq_ok.mp h
  cases h
  exact ht.replans (replans_of_plan t _) hshaped rfl rfl

/-- A ratio test selects the rest. -/
theorem concludes (ht : t.Awaiting j) (h : Concludes t u) : u.Awaiting j := by
  have hshaped := h.shaped ht.sized.shaped
  obtain ⟨leaving, distance, falls, -, hsilent⟩ := h
  have hplan : Replans t u (t.concluded leaving distance falls).plan := hsilent
  exact ht.replans hplan hshaped rfl rfl

/-- What a pivot asks for, selected one by one. -/
theorem targeted (ht : t.Awaiting j) (hl : t.plan.leaving = some leaving)
    (hpivot : ∀ i, leaving = .basic i → coord t.plan.column i ≠ 0) : t.Targeted where
  entering := ⟨j, ht.ready.entering⟩
  leaving := ⟨leaving, hl⟩
  column := ht.ready.column.1.length
  divides i hi := by
    have hlt := ht.sized.shaped.plan.leaving i hi
    have hne := hpivot i (Option.some.inj (hl.symm.trans hi))
    exact ⟨_, ht.ready.column.1.getElem? hlt, by simpa using hne⟩

end Awaiting

/-- **A pivot over a distance that was set by hand**, with the leaving variable of a ratio test or
    with one that was set too.  It puts the settler on the bound ahead; an exchange moves the
    entering variable by the distance.  So the entering variable moves by the distance and the
    equations hold afterwards exactly if the bound is where the distance takes the settler. -/
theorem performPivot_overridden (ht : t.Awaiting j) (hl : t.plan.leaving = some leaving)
    (hd : t.plan.distance = fin r) (hpivot : ∀ i, leaving = .basic i → coord t.plan.column i ≠ 0) :
    ∃ u, t.performPivot = .ok u
      ∧ u.storedValue (t.settler j leaving) = .ok (t.settledOn j leaving)
      ∧ (leaving = .entering → (u.toState.Satisfied ↔ ∃ y, t.settledOn j leaving = fin y))
      ∧ (leaving ≠ .entering → u.storedValue (t.split.nonBasicVar j)
        = .ok (fin (t.carried j t.plan.enteringFalls r .entering)))
      ∧ (u.storedValue (t.split.nonBasicVar j)
          = .ok (fin (t.carried j t.plan.enteringFalls r .entering)) ∧ u.toState.Satisfied
        ↔ t.settledOn j leaving = fin (t.carried j t.plan.enteringFalls r leaving)) := by
  have htargeted := ht.targeted hl hpivot
  obtain ⟨hsound, hsized, hready, hsat⟩ := ht
  obtain ⟨u, hu⟩ := exists_performPivot hsized.shaped hsound.hasBasis
    (hsized.shaped.size trivial hsound.hasBasis) hsized.knowsCosts htargeted
  refine ⟨u, hu, ?_⟩
  obtain ⟨_, -, hu⟩ := Checked.bind_eq_ok.mp hu
  obtain ⟨k, hk, hu⟩ := Checked.bind_eq_ok.mp hu
  obtain rfl := Option.some.inj (hready.entering.symm.trans (enteringIndex_eq_ok.mp hk))
  rw [hl] at hu
  -- each kind of pivot puts another variable on a bound
  cases leaving with
  | entering =>
    obtain ⟨w, hw, hu⟩ := Checked.bind_eq_ok.mp hu
    rw [finish_state hu]
    rw [performFake, hd, if_pos (isFinite_fin r)] at hw
    obtain ⟨hvalue, hsatisfied⟩ := satisfied_of_jump hsound hready hsat hw
    refine ⟨hvalue, fun _ => hsatisfied, fun h => absurd rfl h, fun ⟨hmoved, _⟩ => ?_, fun h => ?_⟩
    · exact Except.ok.inj (hvalue.symm.trans hmoved)
    · exact ⟨hvalue.trans (congrArg _ h), hsatisfied.mpr ⟨_, h⟩⟩
  | basic i =>
    obtain ⟨w, hw, hu⟩ := Checked.bind_eq_ok.mp hu
    rw [finish_state hu]
    have hi := hsized.shaped.plan.leaving i hl
    obtain ⟨hvalue, hmoved, hsatisfied⟩ := satisfied_of_exchange hsound hready hsat hi hd hw
    exact ⟨hvalue, (fun h => nomatch h), fun _ => hmoved, (and_iff_right hmoved).trans hsatisfied⟩

/-! ## §3.  Two pivots over other distances -/

/-- Right after a start the equations hold. -/
theorem awaiting_of_startFrom [IsStrictOrderedRing K] (ht : t.Configured) {vs : List Nat}
    {s a c : Tableau (Extended K)} (hs : t.startFrom vs = .ok (.ok (), s))
    (ha : s.selectEntering j = .ok a) (hc : a.computeColumn = .ok c) : c.Awaiting j := by
  obtain ⟨hsized, -, hprimed, -⟩ := primed_of_startFrom ht hs ha hc
  have hstarted := startFrom_spec ht.prepared hs
  obtain ⟨-, rfl⟩ := selectEntering_spec ha
  have hsound := (replans_of_plan s { s.plan with entering := some j }).sound hstarted.sound
  obtain ⟨column, k, rfl, hprimed', hready⟩ := computeColumn_spec hsound.answering hc
  obtain rfl := Option.some.inj (hprimed'.entering.symm.trans hprimed.entering)
  refine ⟨(replans_of_plan _ _).sound hsound, hsized, hready hsound.toSolvable, ?_⟩
  exact hsound.state.satisfied_iff.mpr hstarted.residual

/-- In `x + y = 10` with `y` basic at 10, `x` is told to move by 3 with `y` leaving: `y` goes to its
    bound 0 and not to 7, and the equation is lost.  Told to move by 1 after the ratio test, which
    found that it can move to its own bound 4, it moves to 4. -/
theorem overridden_distances : ∃ t v : Tableau (Extended ℚ),
    (t.plan.leaving = some (.basic 0) ∧ t.plan.distance = fin 3
      ∧ ∃ u, t.performPivot = .ok u ∧ u.storedValue 0 = .ok (fin 3) ∧ u.storedValue 1 = .ok (fin 0)
        ∧ ¬u.toState.Satisfied)
    ∧ v.plan.leaving = some .entering ∧ v.plan.distance = fin 1
    ∧ ∃ u, v.performPivot = .ok u ∧ u.storedValue 0 = .ok (fin 4) ∧ u.toState.Satisfied := by
  have hrun : (do
      let t ← (create (α := Extended ℚ) { boundTolerance := fin 0 }).run [.setSize 1 2,
        .setCoefficients [fin 1, fin 1], .setRightHandSide [fin 10], .setLower 0 (fin 0),
        .setUpper 0 (fin 4), .setLower 1 (fin 0), .setUpper 1 (fin 20)]
      let (r, s) ← t.startFrom [1]
      let a ← s.selectEntering 0
      let c ← a.computeColumn
      let e ← c.selectLeaving 0
      let v ← e.setDistance (fin 3)
      let f ← c.standardRatioTest
      let w ← f.setDistance (fin 1)
      Checked.require (r = Except.ok ()
        ∧ (v.plan.leaving = some (Leaving.basic 0) ∧ v.plan.distance = fin 3
          ∧ coord v.plan.column 0 ≠ 0
          ∧ v.split.nonBasicVar 0 = 0 ∧ v.carried 0 v.plan.enteringFalls 3 .entering = 3
          ∧ v.split.basicVar 0 = 1 ∧ v.settledOn 0 (.basic 0) = fin 0
          ∧ v.carried 0 v.plan.enteringFalls 3 (.basic 0) = 7)
        ∧ w.plan.leaving = some Leaving.entering ∧ w.plan.distance = fin 1
        ∧ w.split.nonBasicVar 0 = 0 ∧ w.settledOn 0 .entering = fin 4)
        .inconsistent) = .ok () := by decide +kernel
  obtain ⟨t, ht, hrun⟩ := Checked.bind_eq_ok.mp hrun
  obtain ⟨⟨_, s⟩, hs, hrun⟩ := Checked.bind_eq_ok.mp hrun
  obtain ⟨a, ha, hrun⟩ := Checked.bind_eq_ok.mp hrun
  obtain ⟨c, hc, hrun⟩ := Checked.bind_eq_ok.mp hrun
  obtain ⟨e, he, hrun⟩ := Checked.bind_eq_ok.mp hrun
  obtain ⟨v, hv, hrun⟩ := Checked.bind_eq_ok.mp hrun
  obtain ⟨f, hf, hrun⟩ := Checked.bind_eq_ok.mp hrun
  obtain ⟨w, hw, hrun⟩ := Checked.bind_eq_ok.mp hrun
  obtain ⟨rfl, ⟨hleaving, hdistance, hpivot, hentering, hmoved, hbasic, hbound, htaken⟩,
    hleaving', hdistance', hentering', hbound'⟩ := Checked.require_eq_ok.mp hrun
  have hconf : t.Configured := (Configured.created _).run (by decide +kernel) ht
  have hc := awaiting_of_startFrom hconf hs ha hc
  -- The first pivot exchanges with a distance of 3, the second one jumps with a distance of 1.
  refine ⟨v, w, ⟨hleaving, hdistance, ?_⟩, hleaving', hdistance', ?_⟩
  · obtain ⟨u, hu, hsettled, -, hentered, hiff⟩ :=
      performPivot_overridden ((hc.selectLeaving he).setDistance hv) hleaving hdistance
        (by rintro i ⟨⟩; exact hpivot)
    have hentered := hentered (by decide)
    rw [hentering, hmoved] at hentered hiff
    rw [hbound, htaken] at hiff
    rw [hbound, settler, hbasic] at hsettled
    exact ⟨u, hu, hentered, hsettled, fun hsat => absurd (hiff.mp ⟨hentered, hsat⟩) (by decide)⟩
  · obtain ⟨u, hu, hsettled, hsat, -⟩ :=
      performPivot_overridden ((hc.concludes (standardRatioTest_concludes hf)).setDistance hw)
        hleaving' hdistance' (by rintro i ⟨⟩)
    rw [hbound', settler, hentering'] at hsettled
    exact ⟨u, hu, hsettled, (hsat rfl).mpr ⟨4, hbound'⟩⟩

end Tableau

end BoundedSimplex
