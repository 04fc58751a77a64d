/-
  BoundedSimplex.Proofs.Tableau.Merging — folding one variable into another makes a tableau sound.

  Both variables are non-basic, so the basis does not change.  The inverse is started over and the
  values are computed afresh at the end, so it is enough that the tableau was steady before.  The
  remaining variable is within bounds from then on iff it is within its own ones and within those of
  the folded variable.

  Main results:
    * `intersectBounds_spec` — the bounds of the remaining variable;
    * `fold_spec` — the column, the record and the bounds of the folded one;
    * `merge_cases` — the course of a merge;
    * `merge_stages`, `merge_spec` — what a merge that was accepted does.
-/
import BoundedSimplex.Proofs.Tableau.Tightening
import BoundedSimplex.Tableau.Merging

namespace BoundedSimplex.Tableau

open Extended

variable {K : Type} [Field K] [LinearOrder K] {t u : Tableau (Extended K)}

/-! ## §1.  Bounds -/

/-- What tightening bounds changes at most. -/
def Rebounded (t u : Tableau (Extended K)) (bounds : Bounds (Extended K)) : Prop :=
  ∃ xs ys ss pricing, Silent { t with
    bounds, basicValues := xs, nonBasicValues := ys, standings := ss, pricing } u

theorem Rebounded.trans {w : Tableau (Extended K)} {b b' : Bounds (Extended K)}
    (h : Rebounded t u b) (h' : Rebounded u w b') : Rebounded t w b' := by
  obtain ⟨_, _, _, _, _, _, rfl⟩ := h
  obtain ⟨xs, ys, ss, pricing, j, s, rfl⟩ := h'
  exact ⟨xs, ys, ss, pricing, j, s, rfl⟩

/-- The lower bound of the remaining variable is the larger one of the two. -/
theorem raise_spec (ht : t.Steady) {source target : Nat} (hs : source < t.varCount)
    (hg : target < t.varCount)
    (h : (if t.bounds.lowerOf source > t.bounds.lowerOf target
      then t.tightenLower target (t.bounds.lowerOf source) else pure t) = .ok u) :
    u.Steady ∧ ∃ bounds, Rebounded t u bounds
      ∧ (∀ v, bounds.upperOf v = t.bounds.upperOf v)
      ∧ (∀ v, v ≠ target → bounds.lowerOf v = t.bounds.lowerOf v)
      ∧ ∀ y : K, bounds.lowerOf target ≤ fin y
        ↔ t.bounds.lowerOf target ≤ fin y ∧ t.bounds.lowerOf source ≤ fin y := by
  have hls := ht.state.bounds.lowerOf_lt hs
  have hlg := ht.state.bounds.lowerOf_lt hg
  -- The higher lower bound wins, and what meets it meets the lower one.
  by_cases hlt : t.bounds.lowerOf source > t.bounds.lowerOf target
  · rw [if_pos hlt] at h
    obtain ⟨-, bounds, hb, w, ys, ss, pricing, hw, he⟩ := ht.tightenLower hls h
    obtain ⟨-, -, hlow, hupp⟩ := ht.state.bounds.setLower hls hb
    obtain ⟨xs, hu⟩ := he.changes
    refine ⟨he.steady, bounds, ⟨xs, ys, ss, pricing, ?_⟩, hupp, fun v hv => by rw [hlow, if_neg hv],
      fun y => ?_⟩
    · obtain ⟨_, _, rfl⟩ := hw
      obtain ⟨j, s, rfl⟩ := hu
      exact ⟨j, s, rfl⟩
    · rw [hlow, if_pos rfl]
      exact ⟨fun hy => ⟨lower_le_of_lt hlt hy, hy⟩, fun hy => hy.2⟩
  · rw [if_neg hlt] at h
    cases h
    refine ⟨ht, t.bounds, ⟨_, _, _, _, _, _, rfl⟩, fun v => rfl, fun v _ => rfl, fun y => ?_⟩
    exact ⟨fun hy => ⟨hy, lower_le_of_not_lt hlg hls hlt hy⟩, fun hy => hy.1⟩

/-- The upper bound of the remaining variable is the smaller one of the two. -/
theorem cut_spec (ht : t.Steady) {source target : Nat} (hs : source < t.varCount)
    (hg : target < t.varCount)
    (h : (if t.bounds.upperOf source < t.bounds.upperOf target
      then t.tightenUpper target (t.bounds.upperOf source) else pure t) = .ok u) :
    u.Steady ∧ ∃ bounds, Rebounded t u bounds
      ∧ (∀ v, bounds.lowerOf v = t.bounds.lowerOf v)
      ∧ (∀ v, v ≠ target → bounds.upperOf v = t.bounds.upperOf v)
      ∧ ∀ y : K, (fin y : Extended K) ≤ bounds.upperOf target
        ↔ (fin y : Extended K) ≤ t.bounds.upperOf target
          ∧ (fin y : Extended K) ≤ t.bounds.upperOf source := by
  have hus := ht.state.bounds.lt_upperOf hs
  have hug := ht.state.bounds.lt_upperOf hg
  -- The lower upper bound wins.
  by_cases hlt : t.bounds.upperOf source < t.bounds.upperOf target
  · rw [if_pos hlt] at h
    obtain ⟨-, bounds, hb, w, ys, ss, pricing, hw, he⟩ := ht.tightenUpper hus h
    obtain ⟨-, -, hlow, hupp⟩ := ht.state.bounds.setUpper hus hb
    obtain ⟨xs, hu⟩ := he.changes
    refine ⟨he.steady, bounds, ⟨xs, ys, ss, pricing, ?_⟩, hlow, fun v hv => by rw [hupp, if_neg hv],
      fun y => ?_⟩
    · obtain ⟨_, _, rfl⟩ := hw
      obtain ⟨j, s, rfl⟩ := hu
      exact ⟨j, s, rfl⟩
    · rw [hupp, if_pos rfl]
      exact ⟨fun hy => ⟨le_upper_of_lt hlt hy, hy⟩, fun hy => hy.2⟩
  · rw [if_neg hlt] at h
    cases h
    refine ⟨ht, t.bounds, ⟨_, _, _, _, _, _, rfl⟩, fun v => rfl, fun v _ => rfl, fun y => ?_⟩
    exact ⟨fun hy => ⟨hy, le_upper_of_not_lt hug hus hlt hy⟩, fun hy => hy.1⟩

/-- The bounds `b'` are the bounds `b`, except that those of `target` are met iff those of
    `source` are met as well. -/
structure Intersects (b b' : Bounds (Extended K)) (source target : Nat) : Prop where
  lower : ∀ v, v ≠ source → v ≠ target → b'.lowerOf v = b.lowerOf v
  upper : ∀ v, v ≠ source → v ≠ target → b'.upperOf v = b.upperOf v
  lowerTarget : ∀ y : K, b'.lowerOf target ≤ fin y
    ↔ b.lowerOf target ≤ fin y ∧ b.lowerOf source ≤ fin y
  upperTarget : ∀ y : K, (fin y : Extended K) ≤ b'.upperOf target
    ↔ (fin y : Extended K) ≤ b.upperOf target ∧ (fin y : Extended K) ≤ b.upperOf source

/-- The bounds of the folded variable do not matter any more. -/
theorem Intersects.fold {b b' c : Bounds (Extended K)} {source target : Nat}
    (h : Intersects b b' source target) (hne : source ≠ target)
    (hsame : ∀ k, k ≠ source → c.lowerOf k = b'.lowerOf k ∧ c.upperOf k = b'.upperOf k) :
    Intersects b c source target where
  lower k hks hkg := (hsame k hks).1.trans (h.lower k hks hkg)
  upper k hks hkg := (hsame k hks).2.trans (h.upper k hks hkg)
  lowerTarget y := by
    rw [(hsame target hne.symm).1]
    exact h.lowerTarget y
  upperTarget y := by
    rw [(hsame target hne.symm).2]
    exact h.upperTarget y

theorem lowerBound_spec (ht : t.toState.WellFormed) {v : Nat} {x : Extended K}
    (h : t.lowerBound v = .ok x) : v < t.varCount ∧ x = t.bounds.lowerOf v := by
  obtain ⟨_, hv, h⟩ := Checked.bind_eq_ok.mp h
  have hv : v < t.varCount := Checked.require_eq_ok.mp hv
  rw [ht.bounds.lower_eq hv] at h
  cases h
  exact ⟨hv, rfl⟩

theorem upperBound_spec (ht : t.toState.WellFormed) {v : Nat} {x : Extended K}
    (h : t.upperBound v = .ok x) : v < t.varCount ∧ x = t.bounds.upperOf v := by
  obtain ⟨_, hv, h⟩ := Checked.bind_eq_ok.mp h
  have hv : v < t.varCount := Checked.require_eq_ok.mp hv
  rw [ht.bounds.upper_eq hv] at h
  cases h
  exact ⟨hv, rfl⟩

/-- Taking over bounds works in two halves, each of which tightens or does nothing. -/
theorem intersectBounds_halves {α : Type} [Scalar α] {t u : Tableau α} {source target : Nat}
    (h : t.intersectBounds source target = .ok u) :
    ∃ l l' x x' w, t.lowerBound source = .ok l ∧ t.lowerBound target = .ok l'
      ∧ (if l > l' then t.tightenLower target l else pure t) = .ok w
      ∧ w.upperBound source = .ok x ∧ w.upperBound target = .ok x'
      ∧ (if x < x' then w.tightenUpper target x else pure w) = .ok u := by
  obtain ⟨l, hl, h⟩ := Checked.bind_eq_ok.mp h
  obtain ⟨l', hl', h⟩ := Checked.bind_eq_ok.mp h
  -- both branches of the first half go on in the same way
  obtain ⟨w, hw, h⟩ : ∃ w, (if l > l' then t.tightenLower target l else pure t) = .ok w
      ∧ (do
        let upper ← w.upperBound source
        if upper < (← w.upperBound target) then w.tightenUpper target upper else return w)
          = .ok u := by
    split at h
    · next hlt =>
      obtain ⟨w, hw, h⟩ := Checked.bind_eq_ok.mp h
      exact ⟨w, by rw [if_pos hlt]; exact hw, h⟩
    · next hlt => exact ⟨t, by rw [if_neg hlt]; rfl, h⟩
  obtain ⟨x, hx, h⟩ := Checked.bind_eq_ok.mp h
  obtain ⟨x', hx', h⟩ := Checked.bind_eq_ok.mp h
  exact ⟨l, l', x, x', w, hl, hl', hw, hx, hx', h⟩

/-- **The bounds of the remaining variable.** -/
theorem intersectBounds_spec (ht : t.Steady) {source target : Nat}
    (h : t.intersectBounds source target = .ok u) :
    source < t.varCount ∧ target < t.varCount ∧ u.Steady
      ∧ ∃ bounds, Rebounded t u bounds ∧ Intersects t.bounds bounds source target := by
  obtain ⟨l, l', x, x', w, hl, hl', hw, hx, hx', h⟩ := intersectBounds_halves h
  obtain ⟨hs, rfl⟩ := lowerBound_spec ht.state hl
  obtain ⟨hg, rfl⟩ := lowerBound_spec ht.state hl'
  -- Between both halves only the lower bounds have changed.
  obtain ⟨hsteady, b, hwb, hupp, hlow, hboth⟩ := raise_spec ht hs hg hw
  have hwbounds : w.bounds = b := by
    obtain ⟨_, _, _, _, _, _, rfl⟩ := hwb
    rfl
  have hwvars : w.varCount = t.varCount := by
    obtain ⟨_, _, _, _, _, _, rfl⟩ := hwb
    rfl
  obtain ⟨hs', rfl⟩ := upperBound_spec hsteady.state hx
  obtain ⟨hg', rfl⟩ := upperBound_spec hsteady.state hx'
  obtain ⟨hu, b', hub, hlow', hupp', hboth'⟩ := cut_spec hsteady hs' hg' h
  rw [hwbounds] at hlow' hupp' hboth'
  refine ⟨hs, hg, hu, b', hwb.trans hub, fun v _ hv => ?_, fun v _ hv => ?_, fun z => ?_,
    fun z => ?_⟩
  · rw [hlow', hlow v hv]
  · rw [hupp' v hv, hupp]
  · rw [hlow', hboth]
  · rw [hboth', hupp, hupp]

/-- Fixing a variable that is not basic at its value. -/
theorem freeze_spec (hs : t.toState.WellFormed) {v : Nat} (hb : t.split.isBasic v = false)
    (h : t.freeze v = .ok u) :
    ∃ bounds, Silent { t with bounds } u ∧ bounds.WellFormed t.varCount
      ∧ (∀ w, w ≠ v →
        bounds.lowerOf w = t.bounds.lowerOf w ∧ bounds.upperOf w = t.bounds.upperOf w)
      ∧ bounds.lowerOf v = fin (t.toState.stored v) ∧ bounds.upperOf v
          = fin (t.toState.stored v) := by
  obtain ⟨j, hj, h⟩ := Checked.bind_eq_ok.mp h
  obtain ⟨x, hx, h⟩ := Checked.bind_eq_ok.mp h
  obtain ⟨w, hw, h⟩ := Checked.bind_eq_ok.mp h
  obtain ⟨hv, rfl⟩ := hs.split.lt_of_positionOf hj
  obtain ⟨hplace, -⟩ := hs.split.of_not_isBasic hv hb
  rw [Checked.getAt_eq_ok, hs.nonBasic.getElem? hplace] at hx
  cases hx
  -- Both bounds are set to the stored value.
  have hstored : t.toState.stored v = coord t.nonBasicValues (t.split.place v) := by
    rw [State.stored, hb, if_neg Bool.false_ne_true]
  obtain ⟨b, hlower, hsil⟩ := setLower_spec hw
  obtain ⟨-, hbw, hlow, hupp⟩ := hs.bounds.setLower rfl hlower
  obtain ⟨b', hupper, hsil'⟩ := setUpper_spec h
  have hwb : w.bounds = b := by
    obtain ⟨_, _, rfl⟩ := hsil
    rfl
  rw [hwb] at hupper
  obtain ⟨-, hbw', hlow', hupp'⟩ := hbw.setUpper rfl hupper
  refine ⟨b', ?_, hbw', fun k hk => ⟨by rw [hlow', hlow, if_neg hk],
    by rw [hupp', if_neg hk, hupp]⟩, by rw [hlow', hlow, if_pos rfl, hstored], by rw [hupp',
    if_pos rfl, hstored]⟩
  obtain ⟨_, _, rfl⟩ := hsil
  obtain ⟨j, s, rfl⟩ := hsil'
  exact ⟨j, s, rfl⟩

/-! ## §2.  Folding -/

/-- What folding `source` into `target` does: the column moves over, the merge is recorded, and the
    variable that was folded is fixed at its value. -/
structure Folds (w v : Tableau (Extended K)) (source target : Nat) : Prop where
  changes : Silent { w with matrix := v.matrix, merges := v.merges, bounds := v.bounds } v
  state : v.toState.WellFormed
  rowCount : v.rowCount = w.rowCount
  varCount : v.varCount = w.varCount
  merges : w.merges.record source target = .ok v.merges
  matrix : ∀ i < w.rowCount, ∀ j < w.varCount, v.matrix.coeff i j
    = SystemMatrix.folded w.matrix.coeff source target i j
  others : ∀ k, k ≠ source →
    v.bounds.lowerOf k = w.bounds.lowerOf k ∧ v.bounds.upperOf k = w.bounds.upperOf k
  fixed : v.bounds.lowerOf source = fin (w.toState.stored source)
    ∧ v.bounds.upperOf source = fin (w.toState.stored source)

/-- What folding leaves alone. -/
theorem Folds.frame {w v : Tableau (Extended K)} {source target : Nat}
    (h : Folds w v source target) :
    v.settings = w.settings ∧ v.hasBasis = w.hasBasis ∧ v.inverse = w.inverse
      ∧ v.pricing = w.pricing := by
  obtain ⟨_, _, he⟩ := h.changes
  exact ⟨by rw [he], by rw [he], by rw [he], by rw [he]⟩

/-- **Folding one variable into another.** -/
theorem fold_spec (ht : t.toState.WellFormed) {source target : Nat} (hs : source < t.varCount)
    (hg : target < t.varCount) (hne : source ≠ target) (hb : t.split.isBasic source = false)
    (h : t.fold source target = .ok u) : Folds t u source target := by
  obtain ⟨matrix, hmatrix, h⟩ := Checked.bind_eq_ok.mp h
  obtain ⟨merges, hmerges, hfreeze⟩ := Checked.bind_eq_ok.mp h
  obtain ⟨matrix', hmatrix', hrep⟩ := ht.matrix.mergeColumns hs hg hne
  obtain rfl : matrix' = matrix := Except.ok.inj (hmatrix'.symm.trans hmatrix)
  have hrow : matrix'.rowCount = t.rowCount := hrep.rowCount
  have hcol : matrix'.columnCount = t.varCount := hrep.columnCount
  -- the numbers still fit the matrix, which is as large as before
  have hwell {bounds : Bounds (Extended K)} (hbounds : bounds.WellFormed t.varCount) :
      State.WellFormed { t.toState with matrix := matrix', bounds, merges } := by
    refine ⟨hrep.wellFormed, ?_, ?_, ?_, ?_, ?_⟩
    · show Numbers matrix'.rowCount t.rightHandSide
      rw [hrow]
      exact ht.rhs
    · show bounds.WellFormed matrix'.columnCount
      rw [hcol]
      exact hbounds
    · show t.split.WellFormed matrix'.rowCount matrix'.columnCount
      rw [hrow, hcol]
      exact ht.split
    · show Numbers matrix'.rowCount t.basicValues
      rw [hrow]
      exact ht.basic
    · show Numbers (matrix'.columnCount - matrix'.rowCount) t.nonBasicValues
      rw [hrow, hcol]
      exact ht.nonBasic
  obtain ⟨bounds, hsilent, hbounds, hothers, hfixed⟩ :=
    freeze_spec (by exact hwell ht.bounds) (by exact hb) hfreeze
  replace hbounds : bounds.WellFormed t.varCount := hcol ▸ hbounds
  obtain ⟨_, _, rfl⟩ := hsilent
  exact ⟨⟨_, _, rfl⟩, hwell hbounds, hrow, hcol, hmerges,
    fun i hi j hj => hrep.coeff_eq hi hj, hothers, hfixed⟩

/-! ## §3.  Merges -/

/-- What a merge of `source` into `target` does. -/
structure Merged (t u : Tableau (Extended K)) (source target : Nat) : Prop where
  source_lt : source < t.varCount
  target_lt : target < t.varCount
  distinct : source ≠ target
  sound : u.Sound
  settings : u.settings = t.settings
  rowCount : u.rowCount = t.rowCount
  varCount : u.varCount = t.varCount
  rhs : u.rightHandSide = t.rightHandSide
  merges : t.merges.record source target = .ok u.merges
  matrix : ∀ i < t.rowCount, ∀ j < t.varCount, u.matrix.coeff i j
    = SystemMatrix.folded t.matrix.coeff source target i j
  bounds : Intersects t.bounds u.bounds source target
  settled : u.settled = true
  residual : ∀ i < t.rowCount, u.toState.residual i = 0

section Cases

variable {α : Type} [Scalar α] {t u : Tableau α}

/-- A variable that can take part in a merge exists and is not basic. -/
theorem mergeFailure?_eq_none {v : Nat} :
    t.mergeFailure? v = none ↔ v < t.varCount ∧ t.split.isBasic v = false := by
  unfold mergeFailure?
  split
  next hv => simp [Nat.not_lt.mpr hv]
  next hv =>
    split
    next hb => simp [hb]
    next hb => simp [Nat.not_le.mp hv, hb]

/-- **The course of a merge.**  It is refused at once, or else the bounds are intersected,
    the columns are folded and the inverse is started over; only if that succeeds the
    values are computed. -/
theorem merge_cases {source target : Nat} {r : Except Failure Unit}
    (h : t.merge source target = .ok (r, u)) :
    t.hasBasis = true ∧ source ≠ target
      ∧ ((∃ cause, (t.mergeFailure? source).or (t.mergeFailure? target) = some cause
          ∧ r = .error cause ∧ u = t)
        ∨ (t.mergeFailure? source).or (t.mergeFailure? target) = none
          ∧ ∃ w v r' x, (t.remark (.merging source target)).intersectBounds source target = .ok w
            ∧ w.fold source target = .ok v ∧ (v.count .mergedColumns).refactor = .ok (r', x)
            ∧ ((∃ cause, r' = .error cause ∧ r = .error cause ∧ u = x)
              ∨ r' = .ok () ∧ r = .ok () ∧ x.computeValues = .ok u)) := by
  obtain ⟨_, hb, h⟩ := Checked.bind_eq_ok.mp h
  obtain ⟨_, hne, h⟩ := Checked.bind_eq_ok.mp h
  refine ⟨Checked.require_eq_ok.mp hb, Checked.require_eq_ok.mp hne, ?_⟩
  split at h
  next cause hcause =>
    cases h
    exact .inl ⟨cause, hcause, rfl, rfl⟩
  next hnone =>
    obtain ⟨w, hw, h⟩ := Checked.bind_eq_ok.mp h
    obtain ⟨v, hv, h⟩ := Checked.bind_eq_ok.mp h
    obtain ⟨⟨r', x⟩, hx, h⟩ := Checked.bind_eq_ok.mp h
    refine .inr ⟨hnone, w, v, r', x, hw, hv, hx, ?_⟩
    cases r' with
    | error cause =>
      cases h
      exact .inl ⟨cause, rfl, rfl, rfl⟩
    | ok _ =>
      obtain ⟨y, hy, h⟩ := Checked.bind_eq_ok.mp h
      cases h
      exact .inr ⟨rfl, rfl, hy⟩

end Cases

/-- **A merge that was accepted**, and the tableau `w` in the course of it whose bounds
    were intersected: from there on, no variable that is not basic moves and only the
    bounds of `source` change. -/
theorem merge_stages [IsStrictOrderedRing K] (ht : t.Steady) {source target : Nat}
    (h : t.merge source target = .ok (.ok (), u)) :
    Merged t u source target ∧ ∃ w : Tableau (Extended K),
      (t.remark (.merging source target)).intersectBounds source target = .ok w
        ∧ u.split = w.split ∧ u.nonBasicValues = w.nonBasicValues
        ∧ ∀ k, k ≠ source →
          u.bounds.lowerOf k = w.bounds.lowerOf k ∧ u.bounds.upperOf k = w.bounds.upperOf k := by
  obtain ⟨-, hne, ⟨_, -, hr, -⟩ | ⟨hopen, w, v, r, x, hw, hv, hx, ⟨_, -, hr, -⟩ | ⟨rfl, -, hu⟩⟩⟩ :=
    merge_cases h
  · cases hr
  · cases hr
  have hrole := (mergeFailure?_eq_none.mp (Option.or_eq_none_iff.mp hopen).1).2
  obtain ⟨hs, hg, hsteady, bounds, hbounds, hint⟩ := intersectBounds_spec
    (t := t.remark (.merging source target)) ((silent_remark _ _).steady ht) hw
  have hstage := hw
  -- the tableau after the bounds were intersected differs from the first one in values and bounds
  obtain ⟨xs, ys, ss, pricing, _, _, rfl⟩ := hbounds
  have hfolds := fold_spec hsteady.state hs hg hne hrole hv
  obtain ⟨inverse, hsilent, hsolv⟩ :=
    solvable_of_refactor (t := v.count .mergedColumns) hfolds.state hx
  -- and the one before the values are computed differs from it in what was folded
  have hstate : x.toState = { t.toState with
      matrix := v.matrix, bounds := v.bounds, merges := v.merges, basicValues := xs
      nonBasicValues := ys, standings := ss } := by
    rw [hsilent.toState]
    exact hfolds.changes.toState
  obtain ⟨hset, hbasis⟩ : x.settings = t.settings ∧ x.hasBasis = t.hasBasis := by
    obtain ⟨hset, hbasis, -⟩ := hfolds.frame
    obtain ⟨_, _, rfl⟩ := hsilent
    exact ⟨hset, hbasis⟩
  obtain ⟨hsound, hset', hres, zs, ss', hu⟩ :=
    hsolv.computeValues_state (hbasis.trans ht.hasBasis) hu
  rw [hstate] at hu
  have hrow : x.rowCount = t.rowCount := by
    rw [hstate]
    exact hfolds.rowCount
  have hmatrix : u.matrix = v.matrix := by rw [hu]
  have hubounds : u.bounds = v.bounds := by rw [hu]
  have hmerges : u.merges = v.merges := by rw [hu]
  have hsplit : u.split = t.split := by rw [hu]
  refine ⟨⟨hs, hg, hne, hsound, hset'.trans hset, ?_, ?_, by rw [hu], ?_, fun i hi j hj => ?_,
    ?_, by rw [hu], fun i hi => hres i (hrow.symm ▸ hi)⟩, _, hstage, hsplit, by rw [hu],
    fun k hk => ?_⟩
  · exact (congrArg SystemMatrix.rowCount hmatrix).trans hfolds.rowCount
  · exact (congrArg SystemMatrix.columnCount hmatrix).trans hfolds.varCount
  · rw [hmerges]
    exact hfolds.merges
  · rw [hmatrix]
    exact hfolds.matrix i hi j hj
  · rw [hubounds]
    exact hint.fold hne hfolds.others
  · rw [hubounds]
    exact hfolds.others k hk

theorem merge_spec [IsStrictOrderedRing K] (ht : t.Steady) {source target : Nat}
    (h : t.merge source target = .ok (.ok (), u)) : Merged t u source target :=
  (merge_stages ht h).1

end BoundedSimplex.Tableau
