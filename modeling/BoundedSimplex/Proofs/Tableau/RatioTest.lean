/-
  BoundedSimplex.Proofs.Tableau.RatioTest — what the outcome of a ratio test means.

  Both tests go through the rows of the change column and keep the best row so far.  They differ in
  what is best.  Either way the distance they settle for is the ratio of the row they settle for,
  and it is a number; or it is the way of the entering variable to its other bound.

  Main results:
    * `ratioAt_spec` — the ratio of a row;
    * `standardRatioTest_spec`, `harrisRatioTest_spec`, `chooseLeaving_spec` — the three ways to
      select the leaving variable;
    * `Primed.aimed`, `computeColumn_spec` — selections that a pivot can rely on.
-/
import BoundedSimplex.Proofs.Tableau.Landing
import BoundedSimplex.Proofs.Tableau.Values
import BoundedSimplex.Tableau.RatioTest

namespace BoundedSimplex.Tableau

open Extended

/-! ## §1.  What a test records -/

section Recording

variable {α : Type} [Scalar α] {t u w : Tableau α}

theorem enteringIndex_eq_ok {j : Nat} : t.enteringIndex = .ok j ↔ t.plan.entering = some j := by
  unfold enteringIndex
  cases t.plan.entering <;> simp

/-- The tableau with the outcome of a test on record.  A row that is none of the change column
    counts as one that does not move. -/
def concluded (t : Tableau α) (leaving : Leaving) (distance : α) (falls : Bool) : Tableau α :=
  let leavingRises :=
    match leaving with
    | .basic i => rises (t.plan.column.getD i 0) falls
    | .entering => !falls
  { t with
    plan := { t.plan with leaving := some leaving, distance, enteringFalls := falls, leavingRises }
      }

/-- **The outcome of a test is recorded** if the row that leaves is one of the change column. -/
theorem conclude_eq_ok {leaving : Leaving} {distance : α} {falls : Bool} :
    t.conclude leaving distance falls = .ok u
      ↔ (∀ i, leaving = .basic i → i < t.plan.column.length)
        ∧ t.concluded leaving distance falls = u := by
  unfold conclude
  cases leaving with
  | entering =>
    show .ok (t.concluded .entering distance falls) = Except.ok u ↔ _
    simp
  | basic i =>
    -- The entry of the row is read only for a row that exists.
    show ((Checked.getAt t.plan.column i >>= fun x => .ok (rises x falls)) >>= _) = _ ↔ _
    by_cases hi : i < t.plan.column.length
    · rw [Checked.getAt_eq_getD hi 0]
      show .ok (t.concluded (.basic i) distance falls) = Except.ok u ↔ _
      simp [hi]
    · rw [Checked.getAt, List.getElem?_eq_none (by omega)]
      simp [bind, Except.bind, hi]

theorem of_conclude {leaving : Leaving} {distance : α} {falls : Bool}
    (h : t.conclude leaving distance falls = .ok u) : u = t.concluded leaving distance falls :=
  (conclude_eq_ok.mp h).2.symm

theorem Silent.concluded (h : Silent t w) (leaving : Leaving) (distance : α) (falls : Bool) :
    Silent (t.concluded leaving distance falls) (w.concluded leaving distance falls) := by
  obtain ⟨j, s, rfl⟩ := h
  exact ⟨j, s, rfl⟩

/-- The outcome of a ratio test, by the fields of the plan that hold it: who leaves, how far
    the entering variable moves, and which ways the two go.  Everything else is as before, up
    to what was logged. -/
structure Outcome (t u : Tableau α) (l : Leaving) (distance : α) (falls : Bool) : Prop where
  leaving : u.plan.leaving = some l
  distance : u.plan.distance = distance
  enteringFalls : u.plan.enteringFalls = falls
  leavingRises : t.leavingRises l falls = .ok u.plan.leavingRises
  rest : Silent { t with plan := { u.plan with
    entering := t.plan.entering, column := t.plan.column, row := t.plan.row } } u

theorem outcome_of_concluded {leaving : Leaving} {distance : α} {falls : Bool}
    (hrow : ∀ i, leaving = .basic i → i < t.plan.column.length)
    (hw : Silent (t.concluded leaving distance falls) w) : t.Outcome w leaving distance falls := by
  have hconclude : t.conclude leaving distance falls = .ok (t.concluded leaving distance falls) :=
    conclude_eq_ok.mpr ⟨hrow, rfl⟩
  obtain ⟨way, hway, hrecord⟩ := Checked.bind_eq_ok.mp hconclude
  obtain rfl : way = (t.concluded leaving distance falls).plan.leavingRises :=
    congrArg (·.plan.leavingRises) (Except.ok.inj hrecord)
  obtain ⟨_, _, rfl⟩ := hw
  exact ⟨rfl, rfl, rfl, hway, _, _, rfl⟩

/-- Nothing but the outcome of a test was recorded; a row that leaves is one of
    the change column. -/
def Concludes (t u : Tableau α) : Prop :=
  ∃ leaving distance falls, (∀ i, leaving = .basic i → i < t.plan.column.length)
    ∧ Silent (t.concluded leaving distance falls) u

/-- The entry of a row in the change column, by which the test divided. -/
def DividesAt (t : Tableau α) (i : Nat) : Prop :=
  ∃ entry, t.plan.column[i]? = some entry ∧ ¬(entry == 0) = true

/-- Such a row is one of the change column, so that it can be recorded. -/
theorem exists_conclude {leaving : Leaving} (h : ∀ i, leaving = .basic i → t.DividesAt i)
    (distance : α) (falls : Bool) : ∃ u, t.conclude leaving distance falls = .ok u := by
  refine ⟨_, conclude_eq_ok.mpr ⟨fun i hi => ?_, rfl⟩⟩
  obtain ⟨_, hentry, -⟩ := h i hi
  exact (List.getElem?_eq_some_iff.mp hentry).1

/-- Nothing but the outcome of a test was recorded; the test divided by the entry of
    a row that leaves. -/
def Divides (t u : Tableau α) : Prop :=
  ∃ leaving distance falls, (∀ i, leaving = .basic i → t.DividesAt i)
    ∧ Silent (t.concluded leaving distance falls) u

theorem Divides.concludes (h : Divides t u) : Concludes t u := by
  obtain ⟨leaving, distance, falls, hrow, hs⟩ := h
  refine ⟨leaving, distance, falls, fun i hi => ?_, hs⟩
  obtain ⟨_, hentry, -⟩ := hrow i hi
  exact (List.getElem?_eq_some_iff.mp hentry).1

/-- A row with a ratio. -/
theorem dividesAt_of_ratioAt {entry : α × Nat} (hentry : entry ∈ t.plan.column.zipIdx)
    {falls : Bool} {ratio : α} (h : t.ratioAt entry.2 entry.1 falls = .ok ratio) :
    t.DividesAt entry.2 := by
  obtain ⟨_, hz, -⟩ := Checked.bind_eq_ok.mp h
  exact ⟨entry.1, List.mem_zipIdx_iff_getElem?.mp hentry, Checked.require_eq_ok.mp hz⟩

theorem divides_entering (t : Tableau α) (distance : α) (falls : Bool) :
    Divides t (t.concluded .entering distance falls) :=
  ⟨.entering, distance, falls, fun _ h => (by cases h), _, _, rfl⟩

/-- **The row that the textbook test finds** is one that it divided by: the best candidate so far is
    a row with a ratio, or no row at all. -/
theorem dividesAt_of_tightest {falls : Bool} {range : α} {best : Leaving × α}
    (h : t.plan.column.zipIdx.foldlM (t.tighter falls) (.entering, range) = .ok best) :
    ∀ i, best.1 = .basic i → t.DividesAt i := by
  refine Checked.foldlM_inv (P := fun best : Leaving × α => ∀ i, best.1 = .basic i → t.DividesAt i)
    (fun entry hentry best next hbest hnext => ?_) (fun i hi => by cases hi) h
  unfold tighter at hnext
  split at hnext
  -- A row that is too small is passed over; another one divides, whether or not it wins.
  · cases hnext
    exact hbest
  · obtain ⟨ratio, hratio, hnext⟩ := Checked.bind_eq_ok.mp hnext
    cases hnext
    intro i hi
    split at hi
    · cases hi
      exact dividesAt_of_ratioAt hentry hratio
    · exact hbest i hi

theorem standardRatioTest_divides (h : t.standardRatioTest = .ok u) : Divides t u := by
  obtain ⟨falls, _, h⟩ := Checked.bind_eq_ok.mp h
  obtain ⟨range, _, h⟩ := Checked.bind_eq_ok.mp h
  obtain ⟨⟨leaving, distance⟩, hfold, h⟩ := Checked.bind_eq_ok.mp h
  obtain rfl := of_conclude h
  exact ⟨leaving, distance, falls, dividesAt_of_tightest hfold, _, _, rfl⟩

/-- So is the row that the relaxed test finds. -/
theorem dividesAt_of_scan {falls : Bool} {bound : α} {scan : HarrisScan α}
    (h : t.plan.column.zipIdx.foldlM (HarrisScan.look t falls bound) ⟨none, Scalar.infinity⟩
        = .ok scan) :
    ∀ i size ratio, scan.chosen = some (i, size, ratio) → t.DividesAt i := by
  refine Checked.foldlM_inv (P := fun scan : HarrisScan α =>
    ∀ i size ratio, scan.chosen = some (i, size, ratio) → t.DividesAt i)
    (fun entry hentry scan next hscan hnext => ?_) (fun i size ratio he => by cases he) h
  unfold HarrisScan.look at hnext
  dsimp only at hnext
  split at hnext
  · cases hnext
    exact hscan
  · obtain ⟨ratio, hratio, hnext⟩ := Checked.bind_eq_ok.mp hnext
    cases hnext
    intro i size r he
    dsimp only at he
    split at he
    · cases he
      exact dividesAt_of_ratioAt hentry hratio
    · exact hscan i size r he

/-- The relaxed test concludes with a row only if its entry divides. -/
theorem harrisRatioTest_divides (h : t.harrisRatioTest = .ok u) : Divides t u := by
  obtain ⟨falls, _, h⟩ := Checked.bind_eq_ok.mp h
  obtain ⟨range, _, h⟩ := Checked.bind_eq_ok.mp h
  obtain ⟨bound, _, h⟩ := Checked.bind_eq_ok.mp h
  split at h
  · obtain rfl := of_conclude h
    exact divides_entering t range falls
  obtain ⟨scan, hscan, h⟩ := Checked.bind_eq_ok.mp h
  -- No row was found, or the chosen one; only then something is remarked.
  rcases hchosen : scan.chosen with _ | ⟨i, size, ratio⟩
  · simp only [hchosen] at h
    obtain rfl := of_conclude h
    exact ⟨.entering, range, falls, fun _ h => (by cases h),
      (silent_remark t (.harrisEmpty bound)).concluded _ _ _⟩
  · simp only [hchosen] at h
    obtain rfl := of_conclude h
    exact ⟨.basic i, _, falls, fun _ h =>
      (by cases h; exact dividesAt_of_scan hscan i size ratio hchosen),
      (silent_remarkIf t _ _).concluded _ _ _⟩

theorem Divides.remark (h : Divides t u) (r : Remark α) : Divides t (u.remark r) := by
  obtain ⟨leaving, distance, falls, hrow, hs⟩ := h
  exact ⟨leaving, distance, falls, hrow, hs.trans (silent_remark _ _)⟩

theorem chooseLeaving_divides (h : t.chooseLeaving = .ok u) : Divides t u := by
  obtain ⟨_, _, h⟩ := Checked.bind_eq_ok.mp h
  split at h
  · obtain ⟨w, hw, h⟩ := Checked.bind_eq_ok.mp h
    obtain ⟨j, _, h⟩ := Checked.bind_eq_ok.mp h
    obtain ⟨v, _, h⟩ := Checked.bind_eq_ok.mp h
    cases h
    exact (harrisRatioTest_divides hw).remark _
  · obtain ⟨w, hw, h⟩ := Checked.bind_eq_ok.mp h
    obtain ⟨j, _, h⟩ := Checked.bind_eq_ok.mp h
    obtain ⟨v, _, h⟩ := Checked.bind_eq_ok.mp h
    cases h
    exact (standardRatioTest_divides hw).remark _

theorem standardRatioTest_concludes (h : t.standardRatioTest = .ok u) : Concludes t u :=
  (standardRatioTest_divides h).concludes

theorem harrisRatioTest_concludes (h : t.harrisRatioTest = .ok u) : Concludes t u :=
  (harrisRatioTest_divides h).concludes

theorem chooseLeaving_concludes (h : t.chooseLeaving = .ok u) : Concludes t u :=
  (chooseLeaving_divides h).concludes

end Recording

variable {K : Type} [Field K] [LinearOrder K] {t u : Tableau (Extended K)}

/-! ## §2.  What stops a move -/

/-- The distance is how far the entering variable moves before the leaving one stops it. -/
def Stops (t : Tableau (Extended K)) (leaving : Leaving) (distance : Extended K) (falls : Bool) :
    Prop :=
  match leaving with
  | .entering => t.enteringRange falls = .ok distance
  | .basic i => t.ratioAt i (t.plan.column.getD i 0) falls = .ok distance ∧ ∃ δ, distance = fin δ

/-- The entries of a column with their rows. -/
theorem getD_of_mem_zipIdx {xs : List (Extended K)} {x : Extended K} {i : Nat}
    (h : (x, i) ∈ xs.zipIdx) : xs.getD i 0 = x := by
  have hx : xs[i]? = some x := List.mem_zipIdx_iff_getElem?.mp h
  rw [List.getD_eq_getElem?_getD, hx, Option.getD_some]

/-- Numbers as values, bounds that are numbers or infinities, and standings that are
    those of the values. -/
structure Recorded (t : Tableau (Extended K)) : Prop where
  split : t.split.WellFormed t.rowCount t.varCount
  basic : Numbers t.rowCount t.basicValues
  nonBasic : Numbers t.nonBasicCount t.nonBasicValues
  lowers : Listed t.varCount (fun _ l => l ≠ undefined) t.bounds.lowers
  uppers : Listed t.varCount (fun _ b => b ≠ undefined) t.bounds.uppers
  standings : t.standings = (List.range t.rowCount).map
    (t.toState.standing t.settings.boundTolerance)

theorem Steady.recorded (ht : t.Steady) : t.Recorded where
  split := ht.state.split
  basic := ht.state.basic
  nonBasic := ht.state.nonBasic
  lowers := ht.state.bounds.lowers.imp fun _ _ l hl hne => by
    rw [hne] at hl
    exact Bool.false_ne_true hl
  uppers := ht.state.bounds.uppers.imp fun _ _ b hb hne => by
    rw [hne] at hb
    exact Bool.false_ne_true hb
  standings := ht.standings

namespace Recorded

theorem lower_at (h : t.Recorded) {v : Nat} (hv : v < t.varCount) :
    t.bounds.lower v = .ok (t.bounds.lowerOf v) ∧ t.bounds.lowerOf v ≠ undefined := by
  obtain ⟨l, hl, hne⟩ := h.lowers.each v hv
  obtain rfl : t.bounds.lowerOf v = l := by
    rw [Bounds.lowerOf, List.getD_eq_getElem?_getD, hl, Option.getD_some]
  exact ⟨Checked.getAt_eq_ok.mpr hl, hne⟩

theorem upper_at (h : t.Recorded) {v : Nat} (hv : v < t.varCount) :
    t.bounds.upper v = .ok (t.bounds.upperOf v) ∧ t.bounds.upperOf v ≠ undefined := by
  obtain ⟨b, hb, hne⟩ := h.uppers.each v hv
  obtain rfl : t.bounds.upperOf v = b := by
    rw [Bounds.upperOf, List.getD_eq_getElem?_getD, hb, Option.getD_some]
  exact ⟨Checked.getAt_eq_ok.mpr hb, hne⟩

/-- **The room of a row**, by its standing, its value and its bounds. -/
theorem basicRoom_eq (h : t.Recorded) {i : Nat} (hi : i < t.rowCount) (rises : Bool) :
    t.basicRoom i rises = .ok (Scalar.larger
      (room (t.toState.standing t.settings.boundTolerance i) rises (fin (coord t.basicValues i))
        (t.bounds.lowerOf (t.split.basicVar i)) (t.bounds.upperOf (t.split.basicVar i))) 0) := by
  have hv := h.split.basicVar_lt hi
  have hstanding : t.standings[i]? = some (t.toState.standing t.settings.boundTolerance i) := by
    rw [h.standings, List.getElem?_map, List.getElem?_range hi, Option.map_some]
  unfold basicRoom
  rw [h.split.basicAt_eq hi, Checked.ok_bind, Checked.getAt_eq_ok.mpr (h.basic.getElem? hi),
    Checked.ok_bind, (h.lower_at hv).1, Checked.ok_bind, (h.upper_at hv).1, Checked.ok_bind,
    Checked.getAt_eq_ok.mpr hstanding]
  rfl

/-- The way of the entering variable to the bound ahead. -/
theorem enteringRange_eq (h : t.Recorded) {j : Nat} (hj : t.plan.entering = some j)
    (hlt : j < t.nonBasicCount) (falls : Bool) :
    t.enteringRange falls = .ok (Scalar.larger (if falls
      then fin (coord t.nonBasicValues j) - t.bounds.lowerOf (t.split.nonBasicVar j)
      else t.bounds.upperOf (t.split.nonBasicVar j) - fin (coord t.nonBasicValues j)) 0) := by
  have hv := h.split.nonBasicVar_lt hlt
  unfold enteringRange
  rw [enteringIndex_eq_ok.mpr hj, Checked.ok_bind, h.split.nonBasicAt_eq hlt, Checked.ok_bind,
    Checked.getAt_eq_ok.mpr (h.nonBasic.getElem? hlt), Checked.ok_bind, (h.lower_at hv).1,
    Checked.ok_bind, (h.upper_at hv).1]
  rfl

end Recorded

/-- A room is a number that is not negative, or without limit. -/
theorem basicRoom_cases {i : Nat} {rises : Bool} {space : Extended K}
    (h : t.basicRoom i rises = .ok space) : space = top ∨ ∃ d, 0 ≤ d ∧ space = fin d := by
  obtain ⟨_, _, h⟩ := Checked.bind_eq_ok.mp h
  obtain ⟨_, _, h⟩ := Checked.bind_eq_ok.mp h
  obtain ⟨_, _, h⟩ := Checked.bind_eq_ok.mp h
  obtain ⟨_, _, h⟩ := Checked.bind_eq_ok.mp h
  obtain ⟨_, _, h⟩ := Checked.bind_eq_ok.mp h
  cases h
  exact larger_cases _

/-- So is the way of the entering variable. -/
theorem enteringRange_nonneg {falls : Bool} {range : Extended K}
    (h : t.enteringRange falls = .ok range) : range = top ∨ ∃ d, 0 ≤ d ∧ range = fin d := by
  obtain ⟨_, _, h⟩ := Checked.bind_eq_ok.mp h
  obtain ⟨_, _, h⟩ := Checked.bind_eq_ok.mp h
  obtain ⟨_, _, h⟩ := Checked.bind_eq_ok.mp h
  obtain ⟨_, _, h⟩ := Checked.bind_eq_ok.mp h
  obtain ⟨_, _, h⟩ := Checked.bind_eq_ok.mp h
  cases h
  exact larger_cases _

/-- A ratio divides the room of its row by an entry that is not zero. -/
theorem ratioAt_room {i : Nat} {c : K} {falls : Bool} {r : Extended K}
    (h : t.ratioAt i (fin c) falls = .ok r) : c ≠ 0
      ∧ ∃ space, t.basicRoom i (rises (fin c) falls) = .ok space ∧ r = space / fin |c| := by
  obtain ⟨_, hz, h⟩ := Checked.bind_eq_ok.mp h
  obtain ⟨space, hspace, h⟩ := Checked.bind_eq_ok.mp h
  have hc : c ≠ 0 := by
    rw [Checked.require_eq_ok, zero_eq, fin_beq, decide_eq_true_iff] at hz
    exact hz
  cases h
  exact ⟨hc, space, hspace, rfl⟩

section Ratio

variable [IsStrictOrderedRing K] {τ : K}

theorem ratioAt_nonneg {i : Nat} {c : K} {falls : Bool} {r : Extended K}
    (h : t.ratioAt i (fin c) falls = .ok r) : r = top ∨ ∃ δ, 0 ≤ δ ∧ r = fin δ := by
  obtain ⟨hc, space, hspace, rfl⟩ := ratioAt_room h
  exact ratio_cases hc (basicRoom_cases hspace)

omit [IsStrictOrderedRing K] in
/-- The room of a row of a steady tableau. -/
theorem basicRoom_spec (ht : t.Steady) (hτ : t.settings.boundTolerance = fin τ) {i : Nat}
    {rises : Bool} {space : Extended K} (h : t.basicRoom i rises = .ok space) :
    i < t.rowCount
      ∧ space = Scalar.larger (room (t.toState.standing (fin τ) i) rises
          (fin (coord t.basicValues i)) (t.bounds.lowerOf (t.split.basicVar i))
          (t.bounds.upperOf (t.split.basicVar i))) 0
      ∧ (space = top ∨ ∃ d, 0 ≤ d ∧ space = fin d) := by
  obtain ⟨v, hv, -⟩ := Checked.bind_eq_ok.mp h
  obtain ⟨hi, -⟩ := ht.state.split.lt_of_basicAt hv
  have hspace := h.symm.trans (ht.recorded.basicRoom_eq hi rises)
  rw [hτ] at hspace
  exact ⟨hi, Except.ok.inj hspace, basicRoom_cases h⟩

/-- **The ratio of a row** is its room by the size of its entry. -/
theorem ratioAt_spec (ht : t.Steady) (hτ : t.settings.boundTolerance = fin τ) {i : Nat} {c : K}
    {falls : Bool} {r : Extended K} (h : t.ratioAt i (fin c) falls = .ok r) :
    i < t.rowCount ∧ c ≠ 0
      ∧ r = Scalar.larger (room (t.toState.standing (fin τ) i) (rises (fin c) falls)
          (fin (coord t.basicValues i)) (t.bounds.lowerOf (t.split.basicVar i))
          (t.bounds.upperOf (t.split.basicVar i))) 0 / fin |c|
      ∧ (r = top ∨ ∃ δ, 0 ≤ δ ∧ r = fin δ) := by
  obtain ⟨hc, space, hspace, rfl⟩ := ratioAt_room h
  obtain ⟨hi, rfl, -⟩ := basicRoom_spec ht hτ hspace
  exact ⟨hi, hc, rfl, ratioAt_nonneg h⟩

/-- The ratio of a row of the change column. -/
theorem ratioAt_column (hc : Numbers t.rowCount t.plan.column) {i : Nat} {x : Extended K}
    (hx : (x, i) ∈ t.plan.column.zipIdx) {falls : Bool} {r : Extended K}
    (h : t.ratioAt i x falls = .ok r) :
    t.ratioAt i (t.plan.column.getD i 0) falls = .ok r ∧ (r = top ∨ ∃ δ, 0 ≤ δ ∧ r = fin δ) := by
  obtain rfl := getD_of_mem_zipIdx hx
  refine ⟨h, ?_⟩
  have hi : i < t.rowCount := by
    have := (List.getElem?_eq_some_iff.mp (List.mem_zipIdx_iff_getElem?.mp hx)).1
    rwa [hc.length] at this
  rw [hc.getD hi] at h
  exact ratioAt_nonneg h

omit [IsStrictOrderedRing K] in
/-- The way of the entering variable to its other bound. -/
theorem enteringRange_spec (ht : t.toState.WellFormed) {falls : Bool} {range : Extended K}
    (h : t.enteringRange falls = .ok range) :
    ∃ j, t.plan.entering = some j ∧ j < t.nonBasicCount
      ∧ range = Scalar.larger (if falls
          then fin (coord t.nonBasicValues j) - t.bounds.lowerOf (t.split.nonBasicVar j)
          else t.bounds.upperOf (t.split.nonBasicVar j) - fin (coord t.nonBasicValues j)) 0 := by
  obtain ⟨j, hj, h⟩ := Checked.bind_eq_ok.mp h
  obtain ⟨v, hv, h⟩ := Checked.bind_eq_ok.mp h
  obtain ⟨x, hx, h⟩ := Checked.bind_eq_ok.mp h
  obtain ⟨l, hl, h⟩ := Checked.bind_eq_ok.mp h
  obtain ⟨b, hb, h⟩ := Checked.bind_eq_ok.mp h
  obtain ⟨hlt, rfl⟩ := ht.split.lt_of_nonBasicAt hv
  -- What is read is what is recorded.
  rw [Checked.getAt_eq_ok, ht.nonBasic.getElem? hlt] at hx
  rw [ht.bounds.lower_eq (ht.split.nonBasicVar_lt hlt)] at hl
  rw [ht.bounds.upper_eq (ht.split.nonBasicVar_lt hlt)] at hb
  cases hx
  cases hl
  cases hb
  cases h
  exact ⟨j, enteringIndex_eq_ok.mp hj, hlt, rfl⟩

omit [IsStrictOrderedRing K] in
/-- That way is a number, with the bound ahead, or without limit. -/
theorem enteringRange_cases (ht : t.toState.WellFormed) {falls : Bool} {range : Extended K}
    (h : t.enteringRange falls = .ok range) :
    range = top ∨ (∃ δ, range = fin δ) ∧ ∃ j, t.plan.entering = some j ∧ ∃ y : K,
      (if falls then t.bounds.lowerOf (t.split.nonBasicVar j)
        else t.bounds.upperOf (t.split.nonBasicVar j)) = fin y := by
  obtain ⟨j, hj, hlt, rfl⟩ := enteringRange_spec ht h
  have hv := ht.split.nonBasicVar_lt hlt
  cases falls with
  | true =>
    rw [if_pos rfl]
    -- Without a bound on that side there is no limit.
    obtain hbot | ⟨a, ha⟩ := lt_infinity_iff.mp (ht.bounds.lowerOf_lt hv)
    · rw [hbot]
      exact .inl rfl
    · rw [ha, fin_sub, larger_fin]
      exact .inr ⟨⟨_, rfl⟩, j, hj, a, by rw [if_pos rfl, ha]⟩
  | false =>
    rw [if_neg Bool.false_ne_true]
    obtain htop | ⟨a, ha⟩ := neg_infinity_lt_iff.mp (ht.bounds.lt_upperOf hv)
    · rw [htop]
      exact .inl rfl
    · rw [ha, fin_sub, larger_fin]
      exact .inr ⟨⟨_, rfl⟩, j, hj, a, by rw [if_neg Bool.false_ne_true, ha]⟩

/-! ## §3.  The textbook test -/

/-- **The textbook test.**  A row is only taken for a ratio below another one, so its ratio is a
    number. -/
theorem standardRatioTest_spec (hc : Numbers t.rowCount t.plan.column)
    (h : t.standardRatioTest = .ok u) :
    ∃ leaving distance falls, u = t.concluded leaving distance falls
      ∧ t.Stops leaving distance falls := by
  obtain ⟨falls, -, h⟩ := Checked.bind_eq_ok.mp h
  obtain ⟨range, hrange, h⟩ := Checked.bind_eq_ok.mp h
  obtain ⟨⟨leaving, distance⟩, hfold, h⟩ := Checked.bind_eq_ok.mp h
  refine ⟨leaving, distance, falls, of_conclude h, ?_⟩
  -- the best candidate so far stops the move
  have hstart : t.Stops (Leaving.entering, range).1 (Leaving.entering, range).2 falls := hrange
  refine Checked.foldlM_inv (P := fun best : Leaving × Extended K => t.Stops best.1 best.2 falls)
    (fun entry hentry best next hbest hnext => ?_) hstart hfold
  unfold tighter at hnext
  split at hnext
  · cases hnext
    exact hbest
  · obtain ⟨ratio, hratio, hnext⟩ := Checked.bind_eq_ok.mp hnext
    obtain ⟨hr, hcases⟩ := ratioAt_column hc hentry hratio
    by_cases hlt : ratio < best.2
    · rw [if_pos hlt] at hnext
      cases hnext
      refine ⟨hr, ?_⟩
      obtain rfl | ⟨δ, -, rfl⟩ := hcases
      · exact absurd hlt Bool.false_ne_true
      · exact ⟨δ, rfl⟩
    · rw [if_neg hlt] at hnext
      cases hnext
      exact hbest

/-! ## §4.  The relaxed test -/

/-- **The relaxed test.**  A row is only taken for a ratio within a bound that the entering variable
    does not reach, so its ratio is a number. -/
theorem harrisRatioTest_spec (hc : Numbers t.rowCount t.plan.column)
    (h : t.harrisRatioTest = .ok u) :
    ∃ leaving distance falls, Silent (t.concluded leaving distance falls) u
      ∧ t.Stops leaving distance falls := by
  obtain ⟨falls, -, h⟩ := Checked.bind_eq_ok.mp h
  obtain ⟨range, hrange, h⟩ := Checked.bind_eq_ok.mp h
  obtain ⟨bound, -, h⟩ := Checked.bind_eq_ok.mp h
  by_cases hle : range ≤ bound
  · rw [if_pos hle] at h
    obtain rfl := of_conclude h
    exact ⟨.entering, range, falls, ⟨_, _, rfl⟩, hrange⟩
  rw [if_neg hle] at h
  obtain ⟨scan, hscan, h⟩ := Checked.bind_eq_ok.mp h
  -- the row chosen so far has the ratio on record, which is within the bound
  have hinv : ∀ i size ratio, scan.chosen = some (i, size, ratio) →
      t.ratioAt i (t.plan.column.getD i 0) falls = .ok ratio
        ∧ (ratio = top ∨ ∃ δ, 0 ≤ δ ∧ ratio = fin δ) ∧ ratio ≤ bound := by
    refine Checked.foldlM_inv (P := fun scan : HarrisScan (Extended K) =>
      ∀ i size ratio, scan.chosen = some (i, size, ratio) →
        t.ratioAt i (t.plan.column.getD i 0) falls = .ok ratio
          ∧ (ratio = top ∨ ∃ δ, 0 ≤ δ ∧ ratio = fin δ) ∧ ratio ≤ bound)
      (fun entry hentry scan next hscan hnext => ?_) (by intro i size ratio he; cases he) hscan
    unfold HarrisScan.look at hnext
    dsimp only at hnext
    split at hnext
    · cases hnext
      exact hscan
    · obtain ⟨ratio, hratio, hnext⟩ := Checked.bind_eq_ok.mp hnext
      obtain ⟨hr, hcases⟩ := ratioAt_column hc hentry hratio
      cases hnext
      intro i size r he
      dsimp only at he
      split at he
      · next htake =>
        cases he
        exact ⟨hr, hcases, htake.1⟩
      · exact hscan i size r he
  rcases hchosen : scan.chosen with _ | ⟨i, size, ratio⟩
  · simp only [hchosen] at h
    obtain rfl := of_conclude h
    exact ⟨.entering, range, falls, (silent_remark t (.harrisEmpty bound)).concluded _ _ _, hrange⟩
  · simp only [hchosen] at h
    obtain rfl := of_conclude h
    obtain ⟨hr, hcases, hbound⟩ := hinv i size ratio hchosen
    obtain rfl | ⟨δ, hδ, rfl⟩ := hcases
    · -- without limit, the bound would be reached by the entering variable as well
      exfalso
      have htop : bound = top := by
        cases bound <;> first | rfl | exact absurd hbound Bool.false_ne_true
      subst htop
      obtain rfl | ⟨δ, -, rfl⟩ := enteringRange_nonneg hrange
      · exact hle rfl
      · exact hle rfl
    · have hlarger : Scalar.larger (fin δ : Extended K) 0 = fin δ := by
        rw [larger_fin, max_eq_left hδ]
      rw [hlarger]
      exact ⟨.basic i, fin δ, falls, (silent_remarkIf t _ _).concluded _ _ _, hr, δ, rfl⟩

/-! ## §5.  The selection -/

/-- **Selecting the leaving variable** by the test that the settings ask for. -/
theorem chooseLeaving_spec (hc : Numbers t.rowCount t.plan.column) (h : t.chooseLeaving = .ok u) :
    ∃ leaving distance falls, Silent (t.concluded leaving distance falls) u
      ∧ t.Stops leaving distance falls := by
  obtain ⟨_, -, h⟩ := Checked.bind_eq_ok.mp h
  split at h
  · obtain ⟨w, hw, h⟩ := Checked.bind_eq_ok.mp h
    obtain ⟨j, -, h⟩ := Checked.bind_eq_ok.mp h
    obtain ⟨v, -, h⟩ := Checked.bind_eq_ok.mp h
    cases h
    obtain ⟨leaving, distance, falls, hs, hstop⟩ := harrisRatioTest_spec hc hw
    exact ⟨leaving, distance, falls, hs.trans (silent_remark _ _), hstop⟩
  · obtain ⟨w, hw, h⟩ := Checked.bind_eq_ok.mp h
    obtain ⟨j, -, h⟩ := Checked.bind_eq_ok.mp h
    obtain ⟨v, -, h⟩ := Checked.bind_eq_ok.mp h
    cases h
    obtain ⟨leaving, distance, falls, rfl, hstop⟩ := standardRatioTest_spec hc hw
    exact ⟨leaving, distance, falls, silent_remark _ _, hstop⟩

end Ratio

/-! ## §6.  Selections in order -/

/-- A variable was selected to enter, and its change column was computed. -/
structure Ready (t : Tableau (Extended K)) (j : Nat) : Prop where
  entering : t.plan.entering = some j
  lt : j < t.nonBasicCount
  column : t.toState.IsColumn t.plan.column (t.split.nonBasicVar j)

/-- The leaving variable was selected as well, and so were the distance and the directions. -/
structure Planned (t : Tableau (Extended K)) (j : Nat) : Prop extends Ready t j where
  stops : ∃ leaving, t.plan.leaving = some leaving
    ∧ t.Stops leaving t.plan.distance t.plan.enteringFalls
  direction : ∀ i, t.plan.leaving = some (.basic i) →
    t.plan.leavingRises = rises (t.plan.column.getD i 0) t.plan.enteringFalls

/-- A variable was selected to enter, and there is a change column, whatever it is the column of. -/
structure Primed (t : Tableau (Extended K)) (j : Nat) : Prop where
  entering : t.plan.entering = some j
  lt : j < t.nonBasicCount
  numbers : Numbers t.rowCount t.plan.column

/-- The selections that were completed from there. -/
structure Aimed (t : Tableau (Extended K)) (j : Nat) : Prop extends Primed t j where
  stops : ∃ leaving, t.plan.leaving = some leaving
    ∧ t.Stops leaving t.plan.distance t.plan.enteringFalls
  direction : ∀ i, t.plan.leaving = some (.basic i) →
    t.plan.leavingRises = rises (t.plan.column.getD i 0) t.plan.enteringFalls

theorem Ready.primed {j : Nat} (h : t.Ready j) : t.Primed j := ⟨h.entering, h.lt, h.column.1⟩

theorem Planned.aimed {j : Nat} (h : t.Planned j) : t.Aimed j :=
  ⟨h.toReady.primed, h.stops, h.direction⟩

theorem Aimed.planned {j : Nat} (h : t.Aimed j) (hr : t.Ready j) : t.Planned j :=
  ⟨hr, h.stops, h.direction⟩

theorem Silent.ready {j : Nat} (h : Silent t u) (ht : t.Ready j) : u.Ready j := by
  obtain ⟨_, _, rfl⟩ := h
  exact ⟨ht.entering, ht.lt, ht.column⟩

theorem Silent.aimed {j : Nat} (h : Silent t u) (ht : t.Aimed j) : u.Aimed j := by
  obtain ⟨_, _, rfl⟩ := h
  exact ⟨⟨ht.entering, ht.lt, ht.numbers⟩, ht.stops, ht.direction⟩

/-- The outcome of a ratio test completes the selections. -/
theorem Primed.aimed {j : Nat} (h : t.Primed j) {leaving : Leaving} {distance : Extended K}
    {falls : Bool} (hs : t.Stops leaving distance falls) :
    (t.concluded leaving distance falls).Aimed j
      ∧ (t.Ready j → (t.concluded leaving distance falls).Ready j) := by
  refine ⟨⟨⟨h.entering, h.lt, h.numbers⟩, ⟨leaving, rfl, ?_⟩, fun i hi => ?_⟩,
    fun hr => ⟨hr.entering, hr.lt, hr.column⟩⟩
  · cases leaving with
    | basic i => exact hs
    | entering => exact hs
  · obtain rfl : leaving = .basic i := Option.some.inj hi
    rfl

theorem selectEntering_spec {α : Type} [Scalar α] {t u : Tableau α} {j : Nat}
    (h : t.selectEntering j = .ok u) :
    j < t.nonBasicCount ∧ u = { t with plan := { t.plan with entering := some j } } := by
  obtain ⟨_, hj, h⟩ := Checked.bind_eq_ok.mp h
  cases h
  exact ⟨Checked.require_eq_ok.mp hj, rfl⟩

theorem selectLeaving_spec {α : Type} [Scalar α] {t u : Tableau α} {i : Nat}
    (h : t.selectLeaving i = .ok u) :
    i < t.rowCount ∧ u = { t with plan := { t.plan with leaving := some (.basic i) } } := by
  obtain ⟨_, hi, h⟩ := Checked.bind_eq_ok.mp h
  cases h
  exact ⟨Checked.require_eq_ok.mp hi, rfl⟩

/-- **The change column** is the column of the entering variable in the basis, if the inverse is the
    inverse of the basis. -/
theorem computeColumn_spec (ht : t.Answering) (h : t.computeColumn = .ok u) :
    ∃ column j, u = { t with plan := { t.plan with column } } ∧ u.Primed j
      ∧ (t.Solvable → u.Ready j) := by
  obtain ⟨j, hj, h⟩ := Checked.bind_eq_ok.mp h
  obtain ⟨v, hv, h⟩ := Checked.bind_eq_ok.mp h
  obtain ⟨col, hcol, h⟩ := Checked.bind_eq_ok.mp h
  obtain ⟨column, hs, h⟩ := Checked.bind_eq_ok.mp h
  cases h
  obtain ⟨hlt, rfl⟩ := ht.state.split.lt_of_nonBasicAt hv
  have hentering := enteringIndex_eq_ok.mp hj
  exact ⟨column, j, rfl, ⟨hentering, hlt, (ht.numbers_of_column hcol hs).2⟩,
    fun hsolv => ⟨hentering, hlt, (hsolv.isColumn hcol hs).2⟩⟩

theorem computeRow_spec {α : Type} [Scalar α] {t u : Tableau α} (h : t.computeRow = .ok u) :
    ∃ i row, t.plan.leaving = some (.basic i) ∧ t.solvedRow i = .ok row
      ∧ u = { t with plan := { t.plan with row := some row } } := by
  unfold computeRow at h
  split at h
  · next i hi =>
    obtain ⟨row, hrow, h⟩ := Checked.bind_eq_ok.mp h
    cases h
    exact ⟨i, row, hi, hrow, rfl⟩
  · cases h

/-- The row of the leaving variable is no part of the selections. -/
theorem Aimed.withRow {j : Nat} (h : t.Aimed j) (row : Option (SolvedRow (Extended K))) :
    Aimed { t with plan := { t.plan with row } } j
      ∧ (t.Ready j → Ready { t with plan := { t.plan with row } } j) := by
  obtain ⟨leaving, hl, hs⟩ := h.stops
  refine ⟨⟨⟨h.entering, h.lt, h.numbers⟩, ⟨leaving, hl, ?_⟩, h.direction⟩,
    fun hr => ⟨hr.entering, hr.lt, hr.column⟩⟩
  cases leaving with
  | basic i => exact hs
  | entering => exact hs

end BoundedSimplex.Tableau
