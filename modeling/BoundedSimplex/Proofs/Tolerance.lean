/-
  BoundedSimplex.Proofs.Tolerance — how far the relaxed test lets variables pass their bounds.

  The entering variable moves by no more than the step of the first pass, so a row that is
  considered uses up its room and the tolerance at most; and a row within its bounds was beyond them
  by no more than the tolerance for being at a bound.  The leaving variable does not stay where the
  move takes it, but is put on the bound ahead.  That bound is as close to the other one as it
  should be, unless the two contradict each other.

  Main results:
    * `Turned.stored` — where a pivot leaves the values;
    * `within_relaxed`, `within_of_lands` — a row that stays, and the row that leaves;
    * `guarantee_of_harrisRatioTest` — the selection, the step, and the values after the pivot.
-/
import BoundedSimplex.Proofs.Driver
import BoundedSimplex.Proofs.Tableau.Following
import BoundedSimplex.Proofs.Tableau.Relaxed
import Mathlib.Algebra.Field.Rat
import Mathlib.Algebra.Order.Ring.Rat

namespace BoundedSimplex.Tableau

open Extended

variable {K : Type} [Field K] [LinearOrder K] [IsStrictOrderedRing K]
  {t u v w : Tableau (Extended K)} {i j : Nat} {τ h d : K}

/-! ## §1.  Where a pivot leaves the values -/

/-- **The values after a pivot.**  The entering variable moved by the distance and the rows
    followed, but the leaving variable is on a bound. -/
theorem Turned.stored (hturned : Turned t u τ j) (ht : t.Steady) (hp : t.Aimed j)
    (hd : t.plan.distance = fin d) (hin : Within (t.bounds.lowerOf (t.split.nonBasicVar j))
      (t.bounds.upperOf (t.split.nonBasicVar j)) (coord t.nonBasicValues j)) :
    u.toState.stored (t.split.nonBasicVar j)
        = coord t.nonBasicValues j + (if t.plan.enteringFalls then -d else d)
      ∧ ∀ k < t.rowCount,
        (t.plan.leaving ≠ some (.basic k) ∧ u.toState.stored (t.split.basicVar k)
          = coord t.basicValues k - coord t.plan.column k *
          (if t.plan.enteringFalls then -d else d))
        ∨ t.plan.leaving = some (.basic k) ∧ landing (t.toState.standing (fin τ) k)
          t.plan.leavingRises (t.bounds.lowerOf (t.split.basicVar k))
          (t.bounds.upperOf (t.split.basicVar k))
            = fin (u.toState.stored (t.split.basicVar k)) := by
  have hs := ht.state
  cases hturned with
  | ignored _ _ _ hfin => exact absurd (by rw [hd]; rfl) hfin
  | @jumped xs ss inverse y hsteady _ hc hahead hvalues hl =>
    -- the jump goes as far as the distance says
    obtain ⟨leaving, hleaving, hstops⟩ := hp.stops
    obtain rfl : .entering = leaving := Option.some.inj (hl.symm.trans hleaving)
    rw [hd] at hstops
    obtain ⟨k, hk, -, hrange⟩ := enteringRange_spec hs hstops
    obtain rfl : j = k := Option.some.inj (hp.entering.symm.trans hk)
    have hjump := jump_eq hin hahead hrange
    have hu := hsteady.state
    obtain ⟨_, _, rfl⟩ := hc
    have hrow (k : Nat) : t.plan.leaving ≠ some (.basic k) := by
      rw [hl]
      exact fun he => by cases he
    refine ⟨?_, fun k hk => .inl ⟨hrow k, ?_⟩⟩
    · refine (hu.stored_nonBasicVar hp.lt).trans ?_
      rw [← hjump, add_sub_cancel]
      show coord (t.nonBasicValues.set j (fin y)) j = y
      rw [coord_set (by rw [hs.nonBasic.length]; exact hp.lt), if_pos rfl]
    · rw [← hjump, ← hvalues k hk]
      exact hu.stored_basicVar hk
  | @exchanged i δ y hl hx _ hchange hland hvalues =>
    have hi := hx.row
    have hu := hx.steady.state
    have hδ : δ = if t.plan.enteringFalls then -d else d := by
      have heq := (change_eq hd).symm.trans hchange
      injection heq with heq
      exact heq.symm
    obtain ⟨xs, ss, inverse, pricing, -, _, _, rfl⟩ := hx.changes
    -- the variables and where they are now
    have hentered : (t.split.swapped j i).basicVar i = t.split.nonBasicVar j := by
      rw [hs.split.basicVar_swapped hi, if_pos rfl]
    have hleft : (t.split.swapped j i).nonBasicVar j = t.split.basicVar i := by
      rw [hs.split.nonBasicVar_swapped hp.lt, if_pos rfl]
    refine ⟨?_, fun k hk => ?_⟩
    · rw [← hentered, ← hδ]
      exact (hu.stored_basicVar hi).trans ((hvalues i hi).trans (if_pos rfl))
    by_cases hki : k = i
    · subst hki
      refine .inr ⟨hl, hland.trans (congrArg fin ?_)⟩
      rw [← hleft]
      refine Eq.trans ?_ (hu.stored_nonBasicVar hp.lt).symm
      show y = coord (t.nonBasicValues.set j (fin y)) j
      rw [coord_set (by rw [hs.nonBasic.length]; exact hp.lt), if_pos rfl]
    · have hstays : (t.split.swapped j i).basicVar k = t.split.basicVar k := by
        rw [hs.split.basicVar_swapped hi, if_neg hki]
      refine .inl ⟨fun he => ?_, ?_⟩
      · rw [hl] at he
        cases he
        exact hki rfl
      · rw [← hstays, ← hδ]
        exact (hu.stored_basicVar hk).trans ((hvalues k hk).trans (if_neg hki))

/-! ## §2.  Room and tolerance -/

section Bounded

variable {l b : Extended K} {x y way : K}

/-- A value within its bounds is beyond them by the tolerance at most. -/
theorem gaps_of_standing (hl : l < Scalar.infinity) (hb : -Scalar.infinity < b)
    (hs : (Standing.classify (fin x) l b (fin τ)).isOutOfBounds = false) :
    (∀ e, b = fin e → x - e ≤ τ) ∧ ∀ a, l = fin a → a - x ≤ τ := by
  rcases classify_cases (τ := τ) (x := x) hl hb with ⟨he, -⟩ | ⟨he, -⟩ | ⟨-, hgaps⟩
  · rw [he] at hs
    cases hs
  · rw [he] at hs
    cases hs
  · exact hgaps

/-- Room that is used up with the tolerance on top, or that was not there. -/
theorem way_sub_le {gap : K} (hτ : 0 ≤ τ) (hgap : -gap ≤ τ)
    (hlimit : fin way ≤ Scalar.larger (fin gap) 0 + fin h) : way - gap ≤ τ + h := by
  rw [larger_fin, fin_add, fin_le_fin] at hlimit
  rcases le_total gap 0 with hle | hle
  · rw [max_eq_right hle] at hlimit
    linarith
  · rw [max_eq_left hle] at hlimit
    linarith

/-- **A row that stays.** -/
theorem within_relaxed (hl : l < Scalar.infinity) (hb : -Scalar.infinity < b) (hτ : 0 ≤ τ)
    (hh : 0 ≤ h) (hs : (Standing.classify (fin x) l b (fin τ)).isOutOfBounds = false)
    (hway : 0 ≤ way) {rises : Bool}
    (hlimit : fin way
        ≤ Scalar.larger (room (Standing.classify (fin x) l b (fin τ)) rises (fin x) l b) 0
      + fin h) : Within (l - fin τ - fin h) (b + fin τ + fin h) (moved rises x way) := by
  obtain ⟨habove, hbelow⟩ := gaps_of_standing hl hb hs
  rw [room_of_within hs] at hlimit
  cases rises with
  | true =>
    -- it only gets farther from the lower bound, and the limit is about the upper one
    rw [if_pos rfl] at hlimit
    constructor
    · obtain rfl | ⟨a, rfl⟩ := lt_infinity_iff.mp hl
      · rfl
      · have := hbelow a rfl
        rw [fin_sub, fin_sub]
        refine (fin_le_fin _ (x + way)).mpr ?_
        linarith
    · obtain rfl | ⟨e, rfl⟩ := neg_infinity_lt_iff.mp hb
      · rfl
      · have hgap : -(e - x) ≤ τ := by linarith [habove e rfl]
        rw [fin_sub] at hlimit
        have := way_sub_le hτ hgap hlimit
        rw [fin_add, fin_add]
        refine (fin_le_fin (x + way) _).mpr ?_
        linarith
  | false =>
    rw [if_neg Bool.false_ne_true] at hlimit
    constructor
    · obtain rfl | ⟨a, rfl⟩ := lt_infinity_iff.mp hl
      · rfl
      · have hgap : -(x - a) ≤ τ := by linarith [hbelow a rfl]
        rw [fin_sub] at hlimit
        have := way_sub_le hτ hgap hlimit
        rw [fin_sub, fin_sub]
        refine (fin_le_fin _ (x - way)).mpr ?_
        linarith
    · obtain rfl | ⟨e, rfl⟩ := neg_infinity_lt_iff.mp hb
      · rfl
      · have := habove e rfl
        rw [fin_add, fin_add]
        refine (fin_le_fin (x - way) _).mpr ?_
        linarith

/-- **The row that leaves** is put on a bound, and the two bounds are not far apart
    the wrong way round. -/
theorem within_of_lands (hl : l < Scalar.infinity) (hb : -Scalar.infinity < b) (hτ : 0 ≤ τ)
    (hh : 0 ≤ h) (hs : (Standing.classify (fin x) l b (fin τ)).isOutOfBounds = false)
    (hvalid : ¬b < l ∨ τ ≤ h) (hy : fin y = l ∨ fin y = b) :
    Within (l - fin τ - fin h) (b + fin τ + fin h) y := by
  obtain ⟨habove, hbelow⟩ := gaps_of_standing hl hb hs
  -- the lower bound is above the upper one by what the value is beyond both, at most
  have hgap : ∀ a e, l = fin a → b = fin e → a - e ≤ τ + h := by
    intro a e ha he
    rcases hvalid with hvalid | hle
    · rw [ha, he, fin_lt_fin, not_lt] at hvalid
      linarith
    · have := habove e he
      have := hbelow a ha
      linarith
  constructor
  · obtain rfl | ⟨a, rfl⟩ := lt_infinity_iff.mp hl
    · rfl
    · rw [fin_sub, fin_sub, fin_le_fin]
      rcases hy with hy | hy
      · obtain rfl : y = a := by injection hy
        linarith
      · have := hgap a y rfl hy.symm
        linarith
  · obtain rfl | ⟨e, rfl⟩ := neg_infinity_lt_iff.mp hb
    · rfl
    · rw [fin_add, fin_add, fin_le_fin]
      rcases hy with hy | hy
      · have := hgap y e hy.symm rfl
        linarith
      · obtain rfl : y = e := by injection hy
        linarith

end Bounded

omit [IsStrictOrderedRing K] in
/-- A number within one way is within a longer one. -/
theorem fin_le_trans {a c : Extended K} (hd : fin d ≤ a) (h : a ≤ c) : fin d ≤ c := by
  cases a with
  | fin x =>
    cases c with
    | fin y => exact (fin_le_fin d y).mpr (((fin_le_fin d x).mp hd).trans ((fin_le_fin x y).mp h))
    | top => rfl
    | bot | undefined => exact absurd h Bool.false_ne_true
  | top =>
    cases c with
    | top => rfl
    | fin _ | bot | undefined => exact absurd h Bool.false_ne_true
  | bot | undefined => exact absurd hd Bool.false_ne_true

/-- A step within the bound of the first pass keeps a row to its room and the tolerance. -/
theorem IsRelaxedBound.way_le {falls : Bool} {range bound space : Extended K}
    (hb : t.IsRelaxedBound falls range bound) (hh : t.settings.harrisTolerance = fin h)
    (hpos : 0 < t.settings.columnTolerance) (hi : t.Considered i)
    (hspace : t.basicRoom i (rises (fin (coord t.plan.column i)) falls) = .ok space)
    (hcases : space = top ∨ ∃ e, 0 ≤ e ∧ space = fin e) (hd : fin d ≤ bound) :
    fin (|coord t.plan.column i| * d) ≤ space + fin h := by
  have hsize : 0 < |coord t.plan.column i| := abs_pos.mpr (hi.ne_zero hpos)
  obtain rfl | ⟨e, -, rfl⟩ := hcases
  · rfl
  have hle := fin_le_trans hd (hb.le_ratio i _ hi hspace)
  rw [hh, fin_add, fin_div _ hsize.ne', fin_le_fin] at hle
  rw [fin_add, fin_le_fin, mul_comm]
  exact (le_div_iff₀ hsize).mp hle

/-! ## §3.  The guarantee -/

/-- Everything that a ratio test and a pivot read has the size that it should have. -/
structure Sized (t : Tableau (Extended K)) : Prop where
  shaped : t.Shaped True t.settings
  costs : t.pricing.costs.length = t.nonBasicCount
  knowsCosts : t.KnowsCosts

omit [IsStrictOrderedRing K] in
theorem Operable.sized (ht : t.Operable t.settings) : t.Sized :=
  ⟨ht.shaped, ht.counted, ht.current.knowsCosts ht.shaped ht.hasBasis⟩

section Settled

variable {falls : Bool} {range bound : Extended K}

omit [IsStrictOrderedRing K] in
/-- The entering variable is selected exactly if it reaches its other bound in time. -/
theorem Settles.entering_iff (hs : t.Settles w falls range bound) :
    w.plan.leaving = some .entering ↔ range = bound := by
  constructor
  · intro hl
    by_contra hne
    obtain ⟨p, d, ⟨_, _, rfl⟩, -⟩ := hs.basic hne
    cases hl
  · intro heq
    rw [hs.entering heq]
    rfl

omit [IsStrictOrderedRing K] in
/-- What was selected stops the move. -/
theorem Settles.stops (hs : t.Settles w falls range bound) (hc : Numbers t.rowCount t.plan.column)
    (hrange : t.enteringRange falls = .ok range) : ∃ leaving distance,
      Silent (t.concluded leaving distance falls) w ∧ t.Stops leaving distance falls := by
  by_cases heq : range = bound
  · rw [hs.entering heq]
    exact ⟨_, _, .refl _, hrange⟩
  · obtain ⟨p, d, hw, hp, hratio, -⟩ := hs.basic heq
    refine ⟨_, _, hw, ?_, d, rfl⟩
    rw [hc.getD hp.1]
    exact hratio

omit [IsStrictOrderedRing K] in
/-- The step is within the bound of the first pass. -/
theorem Settles.distance_le (hs : t.Settles w falls range bound)
    (hd : w.plan.distance = fin d) : fin d ≤ bound := by
  by_cases heq : range = bound
  · have hw := hs.entering heq
    rw [hw] at hd
    have hd : range = fin d := hd
    rw [← heq, hd]
    exact (fin_le_fin d d).mpr le_rfl
  · obtain ⟨p, e, ⟨_, _, rfl⟩, -, -, hle, -⟩ := hs.basic heq
    cases hd
    exact hle

/-- **After the pivot**, with the row of the leaving variable or without it: the entering variable
    moved by the distance and the rows followed, but the leaving variable is on a bound. -/
theorem Settles.stored (hs : t.Settles w falls range bound) (ht : t.Steady)
    (hτ : t.settings.boundTolerance = fin τ) (hj : t.Primed j)
    (hrange : t.enteringRange falls = .ok range) (hd : w.plan.distance = fin d)
    (hin : Within (t.bounds.lowerOf (t.split.nonBasicVar j))
      (t.bounds.upperOf (t.split.nonBasicVar j)) (coord t.nonBasicValues j))
    {row : Option (SolvedRow (Extended K))}
    (hdone : performPivot { w with plan := { w.plan with row } } = .ok u) :
    0 ≤ d
      ∧ u.toState.stored (t.split.nonBasicVar j)
        = coord t.nonBasicValues j + (if falls then -d else d)
      ∧ ∀ k < t.rowCount,
        u.toState.stored (t.split.basicVar k)
            = coord t.basicValues k - coord t.plan.column k * (if falls then -d else d)
          ∨ w.plan.leaving = some (.basic k)
            ∧ (fin (u.toState.stored (t.split.basicVar k)) = t.bounds.lowerOf (t.split.basicVar k)
              ∨ fin (u.toState.stored (t.split.basicVar k))
                  = t.bounds.upperOf (t.split.basicVar k)) := by
  obtain ⟨leaving, distance, hsilent, hstops⟩ := hs.stops hj.numbers hrange
  obtain ⟨haimed, -⟩ := hj.aimed hstops
  obtain ⟨haimed, -⟩ := (hsilent.aimed haimed).withRow row
  -- The pivot starts from a tableau with another plan, which is as steady as before.
  have hsteady : w.Steady :=
    Replans.steady (p := (t.concluded leaving distance falls).plan) hsilent ht
  have hsteady : Steady { w with plan := { w.plan with row } } :=
    (replans_of_plan w _).steady hsteady
  obtain ⟨_, _, rfl⟩ := hsilent
  cases hd
  obtain ⟨hentered, hrows⟩ :=
    (performPivot_turns hsteady hτ haimed hdone).stored hsteady haimed rfl hin
  refine ⟨hstops.nonneg ht hτ hj.numbers, hentered, fun k hk => ?_⟩
  exact (hrows k hk).imp And.right (And.imp_right onBound_of_landing)

/-- The entering variable does not pass its own bound. -/
theorem Settles.within_entering (hs : t.Settles w falls range bound)
    (hb : t.IsRelaxedBound falls range bound) (ht : t.Steady) (hj : t.Primed j)
    (hrange : t.enteringRange falls = .ok range) (hd : w.plan.distance = fin d) (hnonneg : 0 ≤ d)
    (hin : Within (t.bounds.lowerOf (t.split.nonBasicVar j))
      (t.bounds.upperOf (t.split.nonBasicVar j)) (coord t.nonBasicValues j)) :
    Within (t.bounds.lowerOf (t.split.nonBasicVar j)) (t.bounds.upperOf (t.split.nonBasicVar j))
      (coord t.nonBasicValues j + (if falls then -d else d)) := by
  have hv := ht.state.split.nonBasicVar_lt hj.lt
  have hlimit : (fin d : Extended K).UpTo range :=
    (le_iff_upTo (.inr ⟨d, rfl⟩) ((enteringRange_cases ht.state hrange).imp_right And.left)).mp
      (fin_le_trans (hs.distance_le hd) hb.le_range)
  obtain ⟨k, hk, -, rfl⟩ := enteringRange_spec ht.state hrange
  obtain rfl : j = k := Option.some.inj (hj.entering.symm.trans hk)
  exact within_of_range hin hnonneg (ht.state.bounds.lowerOf_lt hv) (ht.state.bounds.lt_upperOf hv)
    hlimit

end Settled

/-- **The relaxed test.**  It selects the entering variable exactly if that reaches its other bound
    within the step of the first pass, and else the row of the highest rank among those that stop
    the move within that step.  After a pivot over a step that is a number the entering variable is
    within its bounds, and a row that was considered and within its bounds is beyond them by the two
    tolerances at most. -/
theorem guarantee_of_harrisRatioTest (ht : t.Sized) (hsteady : t.Steady) (hj : t.Primed j)
    (hτ : t.settings.boundTolerance = fin τ) (hh : t.settings.harrisTolerance = fin h)
    (hnonneg : 0 ≤ h) (hpos : 0 < t.settings.columnTolerance)
    (hin : Within (t.bounds.lowerOf (t.split.nonBasicVar j))
      (t.bounds.upperOf (t.split.nonBasicVar j)) (coord t.nonBasicValues j)) :
    ∃ falls range bound w, t.enteringFalls = .ok falls ∧ t.enteringRange falls = .ok range
      ∧ t.IsRelaxedBound falls range bound ∧ t.harrisRatioTest = .ok w
      ∧ (w.plan.leaving = some .entering ↔ range = bound) ∧ t.Settles w falls range bound
      ∧ ∀ v d, v = w ∨ w.computeRow = .ok v → w.plan.distance = fin d → ∃ u, v.performPivot = .ok u
        ∧ Within (t.bounds.lowerOf (t.split.nonBasicVar j))
          (t.bounds.upperOf (t.split.nonBasicVar j)) (u.toState.stored (t.split.nonBasicVar j))
        ∧ (0 ≤ τ → ∀ i, t.Considered i → (t.toState.standing (fin τ) i).isOutOfBounds = false →
          (w.plan.leaving = some (.basic i) →
            ¬t.bounds.upperOf (t.split.basicVar i) < t.bounds.lowerOf (t.split.basicVar i)
              ∨ τ ≤ h) →
          Within (t.bounds.lowerOf (t.split.basicVar i) - fin τ - fin h)
            (t.bounds.upperOf (t.split.basicVar i) + fin τ + fin h)
            (u.toState.stored (t.split.basicVar i))) := by
  have hb := hsteady.hasBasis
  have hcolumn := hj.numbers.length
  have hs := hsteady.state
  obtain ⟨w, hw⟩ :=
    exists_harrisRatioTest ht.shaped hb (passesZeros_of_pos hpos) hcolumn hj.entering
    ht.costs
  obtain ⟨falls, range, bound, hfalls, hrange, hbound, hsettles⟩ :=
    harrisRatioTest_settles hh hnonneg hpos hj.numbers hw
  refine ⟨falls, range, bound, w, hfalls, hrange, hbound, hw, hsettles.entering_iff, hsettles,
    fun v d hv hd => ?_⟩
  obtain ⟨row, u, rfl, hu⟩ :=
    exists_performPivot_of_divides ht.shaped hb (ht.shaped.size trivial hb)
    ht.knowsCosts hj.entering hcolumn (harrisRatioTest_divides hw) hv
  obtain ⟨hnonneg', hentered, hrows⟩ := hsettles.stored hsteady hτ hj hrange hd hin hu
  refine ⟨u, hu, ?_, fun hτ' i hi hstanding hvalid => ?_⟩
  · rw [hentered]
    exact hsettles.within_entering hbound hsteady hj hrange hd hnonneg' hin
  -- a row that stays has used up its room and the tolerance at most; the one that
  -- leaves is on a bound
  have hvar := hs.split.basicVar_lt hi.1
  have hl := hs.bounds.lowerOf_lt hvar
  have hupper := hs.bounds.lt_upperOf hvar
  rcases hrows i hi.1 with hstays | ⟨hleaves, honBound⟩
  · obtain ⟨space, hspace⟩ :=
      exists_basicRoom ht.shaped hb hi.1 (rises (fin (coord t.plan.column i)) falls)
    obtain ⟨-, hroom, hcases⟩ := basicRoom_spec hsteady hτ hspace
    have hway := hbound.way_le hh hpos hi hspace hcases (hsettles.distance_le hd)
    rw [hroom] at hway
    rw [hstays, ← moved_rises (hi.ne_zero hpos) falls]
    exact within_relaxed hl hupper hτ' hnonneg hstanding
      (mul_nonneg (abs_nonneg _) hnonneg') hway
  · exact within_of_lands hl hupper hτ' hnonneg hstanding (hvalid hleaves) honBound

/-! ## §4.  Runs -/

/-- A variable that was selected to enter after a start, and its change column. -/
theorem primed_of_startFrom (ht : t.Configured) {vs : List Nat}
    (hu : t.startFrom vs = .ok (.ok (), u)) (hv : u.selectEntering j = .ok v)
    (hw : v.computeColumn = .ok w) : w.Sized ∧ w.Steady ∧ w.Primed j
      ∧ (¬w.bounds.upperOf (w.split.nonBasicVar j) < w.bounds.lowerOf (w.split.nonBasicVar j) →
        Within (w.bounds.lowerOf (w.split.nonBasicVar j)) (w.bounds.upperOf (w.split.nonBasicVar j))
          (coord w.nonBasicValues j)) := by
  have hstarted := startFrom_spec ht.prepared hu
  have hsound := hstarted.sound
  have hoperable := Initialized.operable ⟨t, ht.operated, .inr ⟨vs, hu⟩⟩
  have hshaped := (hoperable.shaped.selectEntering hv).computeColumn hw
  have hknown := hoperable.sized.knowsCosts
  obtain ⟨hlt, rfl⟩ := selectEntering_spec hv
  -- The selection is a change of the plan only.
  have hsolv : Solvable { u with plan := { u.plan with entering := some j } } :=
    ⟨hsound.state, hsound.unit, hsound.inverse⟩
  obtain ⟨column, k, rfl, hprimed, -⟩ := computeColumn_spec hsolv.answering hw
  obtain rfl : j = k := Option.some.inj hprimed.entering
  refine ⟨⟨hshaped, hoperable.counted, hknown⟩, ?_, hprimed, fun hvalid => ?_⟩
  · exact (replans_of_plan u _).steady hsound.steady
  · show Within (u.bounds.lowerOf _) (u.bounds.upperOf _) (coord u.nonBasicValues j)
    rw [hstarted.values j hlt]
    exact hsound.state.bounds.within_startOf (hsound.state.split.nonBasicVar_lt hlt) hvalid

/-- Sets a problem up, starts from a basis, lets the first variable that is not basic enter, runs
    the relaxed test and pivots. -/
def relaxedRun (settings : Settings (Extended K)) (ops : List (Operation (Extended K)))
    (vs : List Nat) :
    Checked (Except Failure Unit
      × Tableau (Extended K) × Tableau (Extended K) × Tableau (Extended K)) := do
  let t ← (create settings).run ops
  let (r, s) ← t.startFrom vs
  let a ← s.selectEntering 0
  let c ← a.computeColumn
  let w ← c.harrisRatioTest
  return (r, c, w, ← w.performPivot)

/-- What such a run leads to. -/
theorem exists_of_relaxedRun (settings : Settings (Extended K))
    (ops : List (Operation (Extended K))) (vs : List Nat)
    (P : Tableau (Extended K) → Tableau (Extended K) → Tableau (Extended K) → Prop)
    [∀ c w u, Decidable (P c w u)] (hops : ∀ op ∈ ops, op.SetsUp) (hrun : (do
      let (r, c, w, u) ← relaxedRun settings ops vs
      Checked.require (r = Except.ok ()
        ∧ ¬c.bounds.upperOf (c.split.nonBasicVar 0) < c.bounds.lowerOf (c.split.nonBasicVar 0)
        ∧ P c w u) .inconsistent) = .ok ()) :
    ∃ c w u, c.Sized ∧ c.Steady ∧ c.Primed 0
      ∧ Within (c.bounds.lowerOf (c.split.nonBasicVar 0)) (c.bounds.upperOf (c.split.nonBasicVar 0))
        (coord c.nonBasicValues 0)
      ∧ c.harrisRatioTest = .ok w ∧ w.performPivot = .ok u ∧ P c w u := by
  -- The run is taken apart step by step; what it required is read off at its end.
  obtain ⟨⟨r, c, w, u⟩, hall, hrun⟩ := Checked.bind_eq_ok.mp hrun
  obtain ⟨t, ht, hall⟩ := Checked.bind_eq_ok.mp hall
  obtain ⟨⟨r', s⟩, hs, hall⟩ := Checked.bind_eq_ok.mp hall
  obtain ⟨a, ha, hall⟩ := Checked.bind_eq_ok.mp hall
  obtain ⟨c', hc, hall⟩ := Checked.bind_eq_ok.mp hall
  obtain ⟨w', hw, hall⟩ := Checked.bind_eq_ok.mp hall
  obtain ⟨u', hu, hall⟩ := Checked.bind_eq_ok.mp hall
  cases hall
  obtain ⟨rfl, hvalid, hP⟩ := Checked.require_eq_ok.mp hrun
  have hconf : t.Configured := (Configured.created settings).run hops ht
  obtain ⟨hsized, hsteady, hprimed, hwithin⟩ := primed_of_startFrom hconf hs ha hc
  exact ⟨c, w, u, hsized, hsteady, hprimed, hwithin hvalid, hw, hu, hP⟩

/-- In `2 x + y = 5` and `x + z = 2` the second row stops `x` first, but the first one has the
    larger entry and stops it in time: `z` ends below its bound, by no more than the tolerance. -/
theorem guarantee_of_larger_entry : ∃ t w u : Tableau (Extended ℚ), t.Primed 0
    ∧ t.settings.harrisTolerance = fin 1 ∧ t.harrisRatioTest = .ok w
    ∧ w.plan.leaving = some (.basic 0) ∧ w.plan.distance = fin (5 / 2)
    ∧ w.performPivot = .ok u ∧ t.split.basicVar 1 = 2
    ∧ u.toState.stored 2 = -1 / 2
    ∧ Within (t.bounds.lowerOf 2 - fin 0 - fin 1) (t.bounds.upperOf 2 + fin 0 + fin 1)
      (u.toState.stored 2) := by
  obtain ⟨t, w, u, hsized, hsteady, hprimed, hin, hw, hu, hτ, hh, hpos, hconsidered, hstanding,
    hleaving, hdistance, hvar, hstored⟩ := exists_of_relaxedRun (K := ℚ)
      { boundTolerance := fin 0, harrisTolerance := fin 1 }
      [.setSize 2 3, .setCoefficients [fin 2, fin 1, fin 0, fin 1, fin 0, fin 1],
        .setRightHandSide [fin 5, fin 2], .setLower 0 (fin 0), .setUpper 0 (fin 100),
        .setLower 1 (fin 0), .setUpper 1 (fin 10), .setLower 2 (fin 0), .setUpper 2 (fin 10)]
      [1, 2]
      (fun t w u => t.settings.boundTolerance = fin 0 ∧ t.settings.harrisTolerance = fin 1
        ∧ 0 < t.settings.columnTolerance
        ∧ (1 < t.rowCount ∧ t.settings.columnTolerance ≤ fin |coord t.plan.column 1|)
        ∧ (t.toState.standing (fin 0) 1).isOutOfBounds = false
        ∧ w.plan.leaving = some (.basic 0) ∧ w.plan.distance = fin (5 / 2)
        ∧ t.split.basicVar 1 = 2 ∧ u.toState.stored 2 = -1 / 2)
      (by
        simp only [List.forall_mem_cons, Operation.SetsUp, List.not_mem_nil, false_imp_iff,
          implies_true]
        decide +kernel)
      (by decide +kernel)
  -- the row that stays is the second one
  obtain ⟨_, _, _, w', -, -, -, hw', -, -, hpivot⟩ :=
    guarantee_of_harrisRatioTest hsized hsteady hprimed hτ hh zero_le_one hpos hin
  obtain rfl : w' = w := Except.ok.inj (hw'.symm.trans hw)
  obtain ⟨u', hu', -, hrows⟩ := hpivot w' _ (.inl rfl) hdistance
  obtain rfl : u' = u := Except.ok.inj (hu'.symm.trans hu)
  have hrow := hrows le_rfl 1 hconsidered hstanding fun hl => by
    rw [hleaving] at hl
    cases hl
  rw [hvar] at hrow
  exact ⟨t, w', u', hprimed, hh, hw, hleaving, hdistance, hu, hvar, hstored, hrow⟩

/-- The relaxed test and the pivot take the variable of row `i` beyond its bounds by more than the
    tolerances. -/
structure Strays (t w u : Tableau (Extended K)) (j i : Nat) (τ h : K) : Prop where
  sized : t.Sized
  steady : t.Steady
  primed : t.Primed j
  boundTolerance : t.settings.boundTolerance = fin τ
  harrisTolerance : t.settings.harrisTolerance = fin h
  nonneg : 0 ≤ h
  columnTolerance : 0 < t.settings.columnTolerance
  within : Within (t.bounds.lowerOf (t.split.nonBasicVar j))
    (t.bounds.upperOf (t.split.nonBasicVar j)) (coord t.nonBasicValues j)
  considered : t.Considered i
  standing : (t.toState.standing (fin τ) i).isOutOfBounds = false
  tested : t.harrisRatioTest = .ok w
  distance : ∃ d, w.plan.distance = fin d
  done : w.performPivot = .ok u
  strays : ¬Within (t.bounds.lowerOf (t.split.basicVar i) - fin τ - fin h)
    (t.bounds.upperOf (t.split.basicVar i) + fin τ + fin h) (u.toState.stored (t.split.basicVar i))

/-- In `x + y = 1 / 4` with `1 ≤ y ≤ -1 / 2` and a tolerance of 1 the variable `y` is within its
    bounds; it leaves the basis and is put on the lower one. -/
theorem exists_strays_leaving : ∃ t w u : Tableau (Extended ℚ), Strays t w u 0 0 1 0 := by
  obtain ⟨t, w, u, hsized, hsteady, hprimed, hin, hw, hu, hτ, hh, hpos, hconsidered, hstanding,
    hdistance, hout⟩ := exists_of_relaxedRun (K := ℚ)
      { boundTolerance := fin 1, harrisTolerance := fin 0 }
      [.setSize 1 2, .setCoefficients [fin 1, fin 1], .setRightHandSide [fin (1 / 4)],
        .setLower 0 (fin 0), .setUpper 0 (fin 10), .setLower 1 (fin 1),
        .setUpper 1 (fin (-1 / 2))]
      [1]
      -- The bounds of the row contradict each other; landing on one of them breaks the other.
      (fun t w u => t.settings.boundTolerance = fin 1 ∧ t.settings.harrisTolerance = fin 0
        ∧ 0 < t.settings.columnTolerance
        ∧ (0 < t.rowCount ∧ t.settings.columnTolerance ≤ fin |coord t.plan.column 0|)
        ∧ (t.toState.standing (fin 1) 0).isOutOfBounds = false ∧ w.plan.distance = fin 0
        ∧ ¬fin (u.toState.stored (t.split.basicVar 0))
          ≤ t.bounds.upperOf (t.split.basicVar 0) + fin 1 + fin 0)
      (by decide +kernel)
      (by decide +kernel)
  exact ⟨t, w, u, hsized, hsteady, hprimed, hτ, hh, le_rfl, hpos, hin, hconsidered, hstanding, hw,
    ⟨0, hdistance⟩, hu, fun hrow => hout hrow.2⟩

/-- In `x + y = 5` and `x + z = 5` with a tolerance of -1 all variables stay away from their bounds
    by 1; after the pivot `z` is on its lower one. -/
theorem exists_strays_staying : ∃ t w u : Tableau (Extended ℚ), Strays t w u 0 1 (-1) 0 := by
  obtain ⟨t, w, u, hsized, hsteady, hprimed, hin, hw, hu, hτ, hh, hpos, hconsidered, hstanding,
    hdistance, hout⟩ := exists_of_relaxedRun (K := ℚ)
      { boundTolerance := fin (-1), harrisTolerance := fin 0 }
      [.setSize 2 3, .setCoefficients [fin 1, fin 1, fin 0, fin 1, fin 0, fin 1],
        .setRightHandSide [fin 5, fin 5], .setLower 0 (fin 0), .setUpper 0 (fin 10),
        .setLower 1 (fin 0), .setUpper 1 (fin 10), .setLower 2 (fin 0), .setUpper 2 (fin 10)]
      [1, 2]
      -- Both rows reach a bound; with a negative tolerance the one that stays is too close to it.
      (fun t w u => t.settings.boundTolerance = fin (-1) ∧ t.settings.harrisTolerance = fin 0
        ∧ 0 < t.settings.columnTolerance
        ∧ (1 < t.rowCount ∧ t.settings.columnTolerance ≤ fin |coord t.plan.column 1|)
        ∧ (t.toState.standing (fin (-1)) 1).isOutOfBounds = false ∧ w.plan.distance = fin 5
        ∧ ¬t.bounds.lowerOf (t.split.basicVar 1) - fin (-1) - fin 0
          ≤ fin (u.toState.stored (t.split.basicVar 1)))
      (by decide +kernel)
      (by decide +kernel)
  exact ⟨t, w, u, hsized, hsteady, hprimed, hτ, hh, le_rfl, hpos, hin, hconsidered, hstanding, hw,
    ⟨5, hdistance⟩, hu, fun hrow => hout hrow.1⟩

/-- Bounds that contradict each other within the tolerance take a leaving variable beyond both of
    them by more than the tolerances, and a negative tolerance does so with a row that stays. -/
theorem bounds_passed_after_relaxed_test :
    (∃ t w u : Tableau (Extended ℚ), Strays t w u 0 0 1 0)
      ∧ ∃ t w u : Tableau (Extended ℚ), Strays t w u 0 1 (-1) 0 :=
  ⟨exists_strays_leaving, exists_strays_staying⟩

end BoundedSimplex.Tableau
