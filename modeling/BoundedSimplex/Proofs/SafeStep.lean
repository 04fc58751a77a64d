/-
  BoundedSimplex.Proofs.SafeStep — the textbook test takes the largest step that is safe.

  A step is safe for a variable within its bounds if it stays there, and for one that violates a
  bound if it does not pass that bound.  Without a tolerance for being at a bound the standing of a
  row tells the three cases apart, whatever the bounds are, and the room of the row is how far it is
  safe to move.  So the smallest ratio is safe for all rows that the test considers, and every
  longer step is not safe for the row or the variable that attains it.

  Main results:
    * `permits_of_le`, `not_permits_of_lt` — the room of a row is what its standing permits;
    * `standardRatioTest_largest` — what the test selects, and that no larger step is safe.
-/
import BoundedSimplex.Proofs.Tolerance

namespace BoundedSimplex

open Extended

variable {K : Type} [Field K] [LinearOrder K]

/-! ## §1.  What a standing permits -/

/-- Where a value may be after a move: a violated bound is not passed, and if none is
    violated both hold. -/
def Standing.Permits (s : Standing) (l b : Extended K) (y : K) : Prop :=
  match s with
  | .belowLower => fin y ≤ l
  | .aboveUpper => b ≤ fin y
  | .atLower | .between | .atUpper => Within l b y

/-- A row that is within its bounds permits what stays within them. -/
theorem Standing.permits_iff {s : Standing} (hs : s.isOutOfBounds = false)
    {l b : Extended K} {y : K} :
    s.Permits l b y ↔ Within l b y := by
  cases s with
  | belowLower | aboveUpper => cases hs
  | atLower | between | atUpper => exact Iff.rfl

/-- Bounds that some number satisfies are proper. -/
theorem Within.proper {l b : Extended K} {x : K} (h : Within l b x) :
    l < Scalar.infinity ∧ -Scalar.infinity < b := by
  obtain ⟨hl, hb⟩ := h
  constructor
  · cases l with
    | fin _ | bot => rfl
    | top | undefined => exact absurd hl Bool.false_ne_true
  · cases b with
    | fin _ | top => rfl
    | bot | undefined => exact absurd hb Bool.false_ne_true

namespace Tableau

section Standings

variable [IsStrictOrderedRing K] {l b : Extended K} {x y e way : K} {rises : Bool}

theorem sub_upper_pos (hb : b ≠ undefined) : fin x - b > fin 0 ↔ b < fin x := by
  cases b with
  | fin b =>
    rw [fin_sub]
    exact (fin_lt_fin 0 (x - b)).trans (sub_pos.trans (fin_lt_fin b x).symm)
  | top | bot => exact Iff.rfl
  | undefined => exact absurd rfl hb

theorem lower_sub_pos (hl : l ≠ undefined) : l - fin x > fin 0 ↔ fin x < l := by
  cases l with
  | fin l =>
    rw [fin_sub]
    exact (fin_lt_fin 0 (l - x)).trans (sub_pos.trans (fin_lt_fin x l).symm)
  | top | bot => exact Iff.rfl
  | undefined => exact absurd rfl hl

omit [IsStrictOrderedRing K] in
theorem le_upper_of_not_lt (hb : b ≠ undefined) (h : ¬b < fin x) : fin x ≤ b := by
  cases b with
  | fin b => exact (fin_le_fin x b).mpr (not_lt.mp fun hlt => h ((fin_lt_fin b x).mpr hlt))
  | top => rfl
  | bot => exact absurd rfl h
  | undefined => exact absurd rfl hb

omit [IsStrictOrderedRing K] in
theorem lower_le_of_not_lt (hl : l ≠ undefined) (h : ¬fin x < l) : l ≤ fin x := by
  cases l with
  | fin l => exact (fin_le_fin l x).mpr (not_lt.mp fun hlt => h ((fin_lt_fin x l).mpr hlt))
  | bot => rfl
  | top => exact absurd rfl h
  | undefined => exact absurd rfl hl

/-- **What a standing says** without a tolerance, for bounds that may be infinite on either side. -/
theorem classify_exact (hl : l ≠ undefined) (hb : b ≠ undefined) :
    (Standing.classify (fin x) l b (fin 0) = .aboveUpper ∧ b < fin x)
      ∨ (Standing.classify (fin x) l b (fin 0) = .belowLower ∧ fin x < l)
      ∨ (Standing.classify (fin x) l b (fin 0)).isOutOfBounds = false ∧ Within l b x := by
  unfold Standing.classify
  split
  · next habove => exact .inl ⟨rfl, (sub_upper_pos hb).mp habove⟩
  next habove =>
  split
  · next hbelow => exact .inr (.inl ⟨rfl, (lower_sub_pos hl).mp hbelow⟩)
  next hbelow =>
  refine .inr (.inr ⟨?_, lower_le_of_not_lt hl fun h => hbelow ((lower_sub_pos hl).mpr h),
    le_upper_of_not_lt hb fun h => habove ((sub_upper_pos hb).mpr h)⟩)
  split
  · rfl
  · split <;> rfl

/-- Moving away from a bound that is violated, or towards it by less than the gap. -/
theorem permits_above (hx : b < fin x) (hway : 0 ≤ way)
    (h : fin way ≤ Scalar.larger (room .aboveUpper rises (fin x) l b) 0) :
    b ≤ fin (moved rises x way) := by
  cases b with
  | fin b =>
    have hlt := (fin_lt_fin b x).mp hx
    refine (fin_le_fin b _).mpr ?_
    cases rises with
    | true => exact hlt.le.trans (le_add_of_nonneg_right hway)
    | false =>
      have h : fin way ≤ Scalar.larger (fin x - fin b) 0 := h
      rw [fin_sub, larger_fin, fin_le_fin, max_eq_left (sub_pos.mpr hlt).le] at h
      exact le_sub_comm.mp h
  | bot => rfl
  | top | undefined => exact absurd hx Bool.false_ne_true

/-- Below its lower bound a value may rise up to that bound. -/
theorem permits_below (hx : fin x < l) (hway : 0 ≤ way)
    (h : fin way ≤ Scalar.larger (room .belowLower rises (fin x) l b) 0) :
    fin (moved rises x way) ≤ l := by
  cases l with
  | fin l =>
    have hlt := (fin_lt_fin x l).mp hx
    refine (fin_le_fin _ l).mpr ?_
    cases rises with
    | true =>
      have h : fin way ≤ Scalar.larger (fin l - fin x) 0 := h
      rw [fin_sub, larger_fin, fin_le_fin, max_eq_left (sub_pos.mpr hlt).le] at h
      exact le_sub_iff_add_le'.mp h
    | false => exact (sub_le_self x hway).trans hlt.le
  | top => rfl
  | bot | undefined => exact absurd hx Bool.false_ne_true

/-- **What the room of a row is for.** -/
theorem permits_of_le (hl : l ≠ undefined) (hb : b ≠ undefined) (hway : 0 ≤ way)
    (h : fin way
        ≤ Scalar.larger (room (Standing.classify (fin x) l b (fin 0)) rises (fin x) l b) 0) :
    (Standing.classify (fin x) l b (fin 0)).Permits l b (moved rises x way) := by
  rcases classify_exact (x := x) hl hb with ⟨hs, hx⟩ | ⟨hs, hx⟩ | ⟨hs, hin⟩
  · rw [hs] at h ⊢
    exact permits_above hx hway h
  · rw [hs] at h ⊢
    exact permits_below hx hway h
  · rw [room_of_within hs] at h
    obtain ⟨hl, hb⟩ := hin.proper
    exact (Standing.permits_iff hs).mpr (within_moved hin hl hb hway h)

/-- A variable within its bounds that moves by more than it has leaves them. -/
theorem not_within_moved (hin : Within l b x)
    (h : Scalar.larger (if rises = true then b - fin x else fin x - l) 0 = fin e) (hlt : e < way) :
    ¬Within l b (moved rises x way) := by
  obtain ⟨hl, hb⟩ := hin.proper
  rintro ⟨hbelow, habove⟩
  -- With an end on the side that it moves to it has left the bounds; without one there is no room.
  cases rises with
  | true =>
    rw [if_pos rfl] at h
    obtain rfl | ⟨b, rfl⟩ := neg_infinity_lt_iff.mp hb
    · cases h
    · rw [fin_sub, larger_fin] at h
      injection h with h
      have hend := (fin_le_fin (x + way) b).mp habove
      linarith [le_max_left (b - x) 0]
  | false =>
    rw [if_neg Bool.false_ne_true] at h
    obtain rfl | ⟨l, rfl⟩ := lt_infinity_iff.mp hl
    · cases h
    · rw [fin_sub, larger_fin] at h
      injection h with h
      have hend := (fin_le_fin l (x - way)).mp hbelow
      linarith [le_max_left (x - l) 0]

/-- Above its upper bound a value may not fall beyond that bound. -/
theorem not_permits_above (hx : b < fin x)
    (h : Scalar.larger (room .aboveUpper rises (fin x) l b) 0 = fin e) (hlt : e < way) :
    ¬b ≤ fin (moved rises x way) := by
  intro hend
  cases rises with
  | true => cases h
  | false =>
    have h : Scalar.larger (fin x - b) 0 = fin e := h
    have hend : b ≤ fin (x - way) := hend
    cases b with
    | fin b =>
      rw [fin_sub, larger_fin] at h
      injection h with h
      have hend := (fin_le_fin b _).mp hend
      linarith [le_max_left (x - b) 0]
    | bot => cases h
    | top | undefined => exact absurd hx Bool.false_ne_true

/-- Below its lower bound it may not rise beyond that bound. -/
theorem not_permits_below (hx : fin x < l)
    (h : Scalar.larger (room .belowLower rises (fin x) l b) 0 = fin e) (hlt : e < way) :
    ¬fin (moved rises x way) ≤ l := by
  intro hend
  cases rises with
  | true =>
    have h : Scalar.larger (l - fin x) 0 = fin e := h
    have hend : fin (x + way) ≤ l := hend
    cases l with
    | fin l =>
      rw [fin_sub, larger_fin] at h
      injection h with h
      have hend := (fin_le_fin _ l).mp hend
      linarith [le_max_left (l - x) 0]
    | top => cases h
    | bot | undefined => exact absurd hx Bool.false_ne_true
  | false => cases h

/-- **And no more than that.** -/
theorem not_permits_of_lt (hl : l ≠ undefined) (hb : b ≠ undefined)
    (h : Scalar.larger (room (Standing.classify (fin x) l b (fin 0)) rises (fin x) l b) 0 = fin e)
    (hlt : e < way) : ¬(Standing.classify (fin x) l b (fin 0)).Permits l b (moved rises x way) := by
  rcases classify_exact (x := x) hl hb with ⟨hs, hx⟩ | ⟨hs, hx⟩ | ⟨hs, hin⟩
  · rw [hs] at h ⊢
    exact not_permits_above hx h hlt
  · rw [hs] at h ⊢
    exact not_permits_below hx h hlt
  · rw [room_of_within hs] at h
    exact fun hend => not_within_moved hin h hlt ((Standing.permits_iff hs).mp hend)

end Standings

/-! ## §2.  Safe steps -/

variable {t u : Tableau (Extended K)} {j : Nat} {falls : Bool}

/-- Where a step of the entering variable takes itself, or the basic variable of a row. -/
def carried (t : Tableau (Extended K)) (j : Nat) (falls : Bool) (d : K) : Leaving → K
  | .entering => coord t.nonBasicValues j + (if falls then -d else d)
  | .basic i => coord t.basicValues i - coord t.plan.column i * (if falls then -d else d)

/-- The step is safe for the one or the other. -/
def SafeFor (t : Tableau (Extended K)) (j : Nat) (falls : Bool) (d : K) : Leaving → Prop
  | .entering => Within (t.bounds.lowerOf (t.split.nonBasicVar j))
      (t.bounds.upperOf (t.split.nonBasicVar j)) (t.carried j falls d .entering)
  | .basic i => (t.toState.standing (fin 0) i).Permits (t.bounds.lowerOf (t.split.basicVar i))
      (t.bounds.upperOf (t.split.basicVar i)) (t.carried j falls d (.basic i))

/-- A distance is the least of the range of the entering variable and of the ratios of the
    rows that are considered, and it is selected who attains it: the entering variable, else
    the first such row. -/
structure Least (t : Tableau (Extended K)) (falls : Bool) (range : Extended K) (leaving : Leaving)
    (distance : Extended K) : Prop where
  le_range : distance ≤ range
  le_ratio : ∀ i, t.Considered i → ∃ r,
    t.ratioAt i (fin (coord t.plan.column i)) falls = .ok r ∧ distance ≤ r
  entering : leaving = .entering ↔ range = distance
  basic : ∀ p, leaving = .basic p → t.Considered p
    ∧ t.ratioAt p (fin (coord t.plan.column p)) falls = .ok distance
    ∧ ∀ i < p, t.Considered i → t.ratioAt i (fin (coord t.plan.column i)) falls ≠ .ok distance

section Steps

variable [IsStrictOrderedRing K]

omit [IsStrictOrderedRing K] in
/-- The test counts a row by its size, the statement by the number. -/
theorem counts_iff_considered (hpos : 0 < t.settings.columnTolerance)
    (hc : Numbers t.rowCount t.plan.column) {i : Nat} {x : Extended K}
    (hx : t.plan.column[i]? = some x) : t.Counts x ↔ t.Considered i := by
  rw [considered_iff hc hx]
  have hi : i < t.rowCount := by
    rw [← hc.length]
    exact (List.getElem?_eq_some_iff.mp hx).1
  obtain rfl := Option.some.inj (hx.symm.trans (hc.getElem? hi))
  exact ⟨le_of_not_fin_lt hpos, not_fin_lt_of_le⟩

/-- What leads after all rows is the least. -/
theorem Leads.least {range distance : Extended K} {leaving : Leaving}
    (h : t.Leads falls range t.plan.column.length leaving distance)
    (hpos : 0 < t.settings.columnTolerance) (hc : Numbers t.rowCount t.plan.column)
    (hrange : t.enteringRange falls = .ok range) : t.Least falls range leaving distance := by
  have hway := way_of_nonneg h.nonneg
  have hself (a : Extended K) : ¬a < a := by
    cases a with
    | fin d => exact fun hlt => lt_irrefl d ((fin_lt_fin d d).mp hlt)
    | top | bot | undefined => exact Bool.false_ne_true
  -- The winner of the comparison is the least, among the entering variable and the rows.
  obtain ⟨⟨_, hrange', hupTo⟩, hrows⟩ := h.shortest
  obtain rfl := Except.ok.inj (hrange.symm.trans hrange')
  refine ⟨(le_iff_upTo hway (way_of_nonneg (enteringRange_nonneg hrange))).mpr hupTo,
    fun i hi => ?_, ⟨fun he => (h.entering he).symm, fun he => ?_⟩, fun p hp => ?_⟩
  · have hx := hc.getElem? hi.1
    obtain ⟨r, hr, hupTo⟩ :=
      hrows i (hc.length ▸ hi.1) _ hx ((counts_iff_considered hpos hc hx).mpr hi)
    exact ⟨r, hr, (le_iff_upTo hway (way_of_nonneg (ratioAt_nonneg hr))).mpr hupTo⟩
  -- The entering variable wins a tie, so a row wins only by a shorter distance.
  · cases leaving with
    | entering => rfl
    | basic p => exact absurd (he ▸ (h.basic p rfl).1) (hself distance)
  · obtain ⟨-, ⟨x, hx, hcounts, hratio⟩, hfirst⟩ := h.basic p hp
    have hcon := (counts_iff_considered hpos hc hx).mp hcounts
    obtain rfl := Option.some.inj (hx.symm.trans (hc.getElem? hcon.1))
    refine ⟨hcon, hratio, fun i hi hcon' he => ?_⟩
    have hx := hc.getElem? hcon'.1
    exact hself distance (hfirst i hi _ _ hx ((counts_iff_considered hpos hc hx).mpr hcon') he)

/-- A ratio that is a number comes from the room of the way. -/
theorem room_of_ratio {space : Extended K} {c e : K} (hc : c ≠ 0)
    (hs : space = top ∨ ∃ d, 0 ≤ d ∧ space = fin d) (h : space / fin |c| = fin e) :
    space = fin (|c| * e) := by
  have hpos : 0 < |c| := abs_pos.mpr hc
  obtain rfl | ⟨d, -, rfl⟩ := hs
  · rw [top_div hpos] at h
    cases h
  · rw [fin_div _ hpos.ne'] at h
    injection h with h
    rw [← h, mul_div_cancel₀ _ hpos.ne']

/-- The range of the entering variable is what is safe for itself. -/
theorem Recorded.safeFor_entering (ht : t.Recorded) (hj : t.Primed j)
    (hin : Within (t.bounds.lowerOf (t.split.nonBasicVar j))
      (t.bounds.upperOf (t.split.nonBasicVar j)) (coord t.nonBasicValues j))
    {range : Extended K} (hrange : t.enteringRange falls = .ok range) :
    (∀ d, 0 ≤ d → fin d ≤ range → t.SafeFor j falls d .entering)
      ∧ ∀ e d, range = fin e → e < d → ¬t.SafeFor j falls d .entering := by
  have hroom := Except.ok.inj (hrange.symm.trans (ht.enteringRange_eq hj.entering hj.lt falls))
  -- The range is the room on the side that the entering variable moves to.
  have hflip (a b : Extended K) : (if falls then a else b) = if (!falls) = true then b else a := by
    cases falls <;> rfl
  rw [hflip] at hroom
  refine ⟨fun d hd hle => ?_, fun e d he hlt => ?_⟩
  · obtain ⟨hl, hb⟩ := hin.proper
    rw [SafeFor, carried, add_eq_moved]
    exact within_moved hin hl hb hd (hroom ▸ hle)
  · rw [SafeFor, carried, add_eq_moved]
    exact not_within_moved hin (hroom.symm.trans he) hlt

/-- **The ratio of a row** is what is safe for its basic variable. -/
theorem Recorded.safeFor_basic (ht : t.Recorded) (hτ : t.settings.boundTolerance = fin 0) {i : Nat}
    (hi : i < t.rowCount) {r : Extended K}
    (hr : t.ratioAt i (fin (coord t.plan.column i)) falls = .ok r) :
    (∀ d, 0 ≤ d → fin d ≤ r → t.SafeFor j falls d (.basic i))
      ∧ ∀ e d, r = fin e → e < d → ¬t.SafeFor j falls d (.basic i) := by
  have hv := ht.split.basicVar_lt hi
  obtain ⟨hc, space, hspace, rfl⟩ := ratioAt_room hr
  have hcases := basicRoom_cases hspace
  have hroom := Except.ok.inj (hspace.symm.trans (ht.basicRoom_eq hi _))
  have hpos : 0 < |coord t.plan.column i| := abs_pos.mpr hc
  rw [hτ] at hroom
  -- the row moves by the size of its entry
  refine ⟨fun d hd hle => ?_, fun e d he hlt => ?_⟩
  · have hway := way_le_of_upTo hc hcases
      ((le_iff_upTo (.inr ⟨d, rfl⟩) (way_of_nonneg (ratio_cases hc hcases))).mp hle)
    rw [SafeFor, carried, ← moved_rises hc]
    exact permits_of_le (ht.lower_at hv).2 (ht.upper_at hv).2 (mul_nonneg hpos.le hd) (hroom ▸ hway)
  · have hway := room_of_ratio hc hcases he
    rw [SafeFor, carried, ← moved_rises hc]
    exact not_permits_of_lt (ht.lower_at hv).2 (ht.upper_at hv).2 (hroom.symm.trans hway)
      (mul_lt_mul_of_pos_left hlt hpos)

omit [IsStrictOrderedRing K] in
/-- What is on record can be tested once there is a cost for the entering variable. -/
theorem Recorded.testable (ht : t.Recorded) (hj : t.Primed j) {c : Extended K}
    (hcost : t.pricing.costs[j]? = some c) (hpos : 0 < t.settings.columnTolerance) :
    t.Testable where
  falls := Checked.exists_bind_of_ok (enteringIndex_eq_ok.mpr hj.entering)
    (Checked.exists_bind_of_ok (Checked.getAt_eq_ok.mpr hcost) ⟨_, rfl⟩)
  range falls := ⟨_, ht.enteringRange_eq hj.entering hj.lt falls⟩
  room _ hi rises := ⟨_, ht.basicRoom_eq hi rises⟩
  column := hj.numbers.length
  passesZeros := passesZeros_of_pos hpos

/-- **The textbook test.**  It settles for the least of the range of the entering variable and of
    the ratios of the rows, and for who attains it first.  Every step up to that distance is safe
    for the entering variable and for the rows that are considered, and no longer one is safe for
    what was selected. -/
theorem standardRatioTest_largest (ht : t.Recorded) (hj : t.Primed j) {c : Extended K}
    (hcost : t.pricing.costs[j]? = some c) (hτ : t.settings.boundTolerance = fin 0)
    (hpos : 0 < t.settings.columnTolerance)
    (hin : Within (t.bounds.lowerOf (t.split.nonBasicVar j))
      (t.bounds.upperOf (t.split.nonBasicVar j)) (coord t.nonBasicValues j)) :
    ∃ falls range leaving distance u, t.enteringFalls = .ok falls
      ∧ t.enteringRange falls = .ok range
      ∧ t.standardRatioTest = .ok u ∧ t.Outcome u leaving distance falls
      ∧ { u with plan := t.plan } = t
      ∧ t.Least falls range leaving distance
      ∧ (∀ d, 0 ≤ d → fin d ≤ distance → t.SafeFor j falls d .entering
        ∧ ∀ i, t.Considered i → t.SafeFor j falls d (.basic i))
      ∧ ∀ e d, distance = fin e → e < d → ¬t.SafeFor j falls d leaving := by
  obtain ⟨u, hu⟩ := (ht.testable hj hcost hpos).exists_standard
  obtain ⟨falls, range, leaving, distance, hfalls, hrange, rfl, hleads⟩ :=
    standardRatioTest_leads hj.numbers hu
  have hleast := hleads.least hpos hj.numbers hrange
  have houtcome : t.Outcome (t.concluded leaving distance falls) leaving distance falls :=
    outcome_of_concluded (fun p hp => hj.numbers.length.symm ▸ (hleast.basic p hp).1.1) (.refl _)
  -- Each distance is safe for what allows it, and no longer one is.
  obtain ⟨hsafe, hunsafe⟩ := ht.safeFor_entering hj hin hrange
  refine ⟨falls, range, leaving, distance, _, hfalls, hrange, hu, houtcome, rfl, hleast,
    fun d hd hle => ⟨hsafe d hd (fin_le_trans hle hleast.le_range), fun i hi => ?_⟩,
    fun e d he hlt => ?_⟩
  · obtain ⟨r, hr, hdistance⟩ := hleast.le_ratio i hi
    exact (ht.safeFor_basic hτ hi.1 hr).1 d hd (fin_le_trans hle hdistance)
  · cases leaving with
    | entering => exact hunsafe e d ((hleast.entering.mp rfl).trans he) hlt
    | basic p =>
      obtain ⟨hp, hratio, -⟩ := hleast.basic p rfl
      exact (ht.safeFor_basic hτ hp.1 hratio).2 e d he hlt

end Steps

/-! ## §3.  A tie -/

/-- In `x - v = 4` and `2 x + y = 8` both rows stop `x` at 4, the first one because `v` comes
    up to the lower bound that it violates; the textbook test takes that one, the relaxed
    test the other one. -/
theorem exists_tie : ∃ t w w' : Tableau (Extended ℚ), t.Sized ∧ t.Steady ∧ t.Primed 0
    ∧ Within (t.bounds.lowerOf (t.split.nonBasicVar 0)) (t.bounds.upperOf (t.split.nonBasicVar 0))
      (coord t.nonBasicValues 0)
    ∧ t.standardRatioTest = .ok w ∧ t.harrisRatioTest = .ok w'
    ∧ t.settings.boundTolerance = fin 0 ∧ t.settings.harrisTolerance = fin 0
    ∧ 0 < t.settings.columnTolerance ∧ t.pricing.costs[0]? = some (fin (-1 : ℚ))
    ∧ (0 < t.rowCount ∧ t.settings.columnTolerance ≤ fin |coord t.plan.column 0|)
    ∧ (1 < t.rowCount ∧ t.settings.columnTolerance ≤ fin |coord t.plan.column 1|)
    ∧ t.toState.standing (fin 0) 0 = .belowLower
    ∧ w.plan.leaving = some (.basic 0) ∧ w.plan.distance = fin 4 ∧ w.plan.enteringFalls = false
    ∧ w.plan.leavingRises = true ∧ w'.plan.leaving = some (.basic 1) := by
  -- Rows 0 and 1 have the same ratio, and row 1 the larger entry.
  have hrun : (do
      let t ← (create (α := Extended ℚ) { boundTolerance := fin 0, harrisTolerance := fin 0 }).run
        [.setSize 2 3, .setCoefficients [fin 1, fin (-1), fin 0, fin 2, fin 0, fin 1],
          .setRightHandSide [fin 4, fin 8], .setLower 0 (fin 0), .setUpper 0 (fin 100),
          .setLower 1 (fin 0), .setUpper 1 (fin 10), .setLower 2 (fin 0), .setUpper 2 (fin 10)]
      let (r, s) ← t.startFrom [1, 2]
      let a ← s.selectEntering 0
      let c ← a.computeColumn
      let w ← c.standardRatioTest
      let w' ← c.harrisRatioTest
      Checked.require ((r = Except.ok ()
          ∧ ¬c.bounds.upperOf (c.split.nonBasicVar 0) < c.bounds.lowerOf (c.split.nonBasicVar 0))
        ∧ c.settings.boundTolerance = fin 0 ∧ c.settings.harrisTolerance = fin 0
        ∧ 0 < c.settings.columnTolerance ∧ c.pricing.costs[0]? = some (fin (-1 : ℚ))
        ∧ (0 < c.rowCount ∧ c.settings.columnTolerance ≤ fin |coord c.plan.column 0|)
        ∧ (1 < c.rowCount ∧ c.settings.columnTolerance ≤ fin |coord c.plan.column 1|)
        ∧ c.toState.standing (fin 0) 0 = Standing.belowLower
        ∧ w.plan.leaving = some (Leaving.basic 0) ∧ w.plan.distance = fin 4
        ∧ w.plan.enteringFalls = false ∧ w.plan.leavingRises = true
        ∧ w'.plan.leaving = some (Leaving.basic 1)) .inconsistent) = .ok () := by decide +kernel
  obtain ⟨t, ht, hrun⟩ := Checked.bind_eq_ok.mp hrun
  obtain ⟨⟨_, s⟩, hs, hrun⟩ := Checked.bind_eq_ok.mp hrun
  obtain ⟨a, ha, hrun⟩ := Checked.bind_eq_ok.mp hrun
  obtain ⟨c, hc, hrun⟩ := Checked.bind_eq_ok.mp hrun
  obtain ⟨w, hw, hrun⟩ := Checked.bind_eq_ok.mp hrun
  obtain ⟨w', hw', hrun⟩ := Checked.bind_eq_ok.mp hrun
  obtain ⟨⟨rfl, hvalid⟩, houtcome⟩ := Checked.require_eq_ok.mp hrun
  have hconf : t.Configured := (Configured.created _).run (by decide +kernel) ht
  obtain ⟨hsized, hsteady, hprimed, hwithin⟩ := primed_of_startFrom hconf hs ha hc
  exact ⟨c, w, w', hsized, hsteady, hprimed, hwithin hvalid, hw, hw', houtcome⟩

/-- There the first row is selected, and a longer step takes `v` beyond the
    bound that it violates. -/
theorem largest_step_of_tie : ∃ t u : Tableau (Extended ℚ), t.Recorded ∧ t.Primed 0
    ∧ t.standardRatioTest = .ok u ∧ u.plan.leaving = some (.basic 0) ∧ u.plan.distance = fin 4
    ∧ u.plan.enteringFalls = false ∧ u.plan.leavingRises = true
    ∧ t.toState.standing (fin 0) 0 = .belowLower
    ∧ t.SafeFor 0 false 4 (.basic 0) ∧ t.SafeFor 0 false 4 (.basic 1)
    ∧ ¬t.SafeFor 0 false 5 (.basic 0) := by
  obtain ⟨t, w, -, -, hsteady, hprimed, hin, hw, -, hτ, -, hpos, hcost, hfirst, hsecond, hstanding,
    hleaving, hdistance, hfalls, hrises, -⟩ := exists_tie
  obtain ⟨falls, -, leaving, distance, u, -, -, hu, houtcome, -, -, hsafe, hunsafe⟩ :=
    standardRatioTest_largest hsteady.recorded hprimed hcost hτ hpos hin
  obtain rfl := Except.ok.inj (hu.symm.trans hw)
  obtain rfl : leaving = .basic 0 := Option.some.inj (houtcome.leaving.symm.trans hleaving)
  obtain rfl : distance = fin 4 := houtcome.distance.symm.trans hdistance
  obtain rfl : falls = false := houtcome.enteringFalls.symm.trans hfalls
  obtain ⟨-, hrows⟩ := hsafe 4 (by norm_num) ((fin_le_fin 4 4).mpr le_rfl)
  exact ⟨t, u, hsteady.recorded, hprimed, hu, hleaving, hdistance, hfalls, hrises, hstanding,
    hrows 0 hfirst, hrows 1 hsecond, hunsafe 4 5 rfl (by norm_num)⟩

end Tableau

end BoundedSimplex
