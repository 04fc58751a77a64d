/-
  BoundedSimplex.Proofs.FailedMerge — a merge that fails, at once or half-way.

  A variable that does not exist or that is basic is refused before anything is touched.  The other
  cause is the inverse, which is started over after the bounds were intersected and the columns
  folded.  The columns of the basis are those of before, so it is they that are rejected, and
  nothing is taken back: the merge is on record, the values are those from before the columns moved
  and still count as computed.  They satisfy the folded equations only if the column that moved is
  zero or both variables have the same value.

  Main results:
    * `refactor_error_iff` — a fresh start that fails;
    * `halfMerged_of_merge` — what the inverse is started over from;
    * `merge_failed` — what each failure leaves behind.
-/
import BoundedSimplex.Proofs.Home
import BoundedSimplex.Proofs.Overrides

namespace BoundedSimplex

open Extended

/-! ## §1.  Rejections -/

namespace Tableau

section Rejections

variable {α : Type} [Scalar α] {t u : Tableau α} {c : FactorizationFailure}

/-- The inverse cannot be started over from the columns of the basic variables. -/
def RejectsBasis (t : Tableau α) (c : FactorizationFailure) : Prop :=
  ∃ columns, t.basisColumns = .ok columns ∧ t.inverse.refresh columns = .error c

/-- Whether a basis is rejected depends on its columns and the inverse. -/
theorem RejectsBasis.congr (hcolumns : u.basisColumns = t.basisColumns)
    (hinverse : u.inverse = t.inverse) : u.RejectsBasis c ↔ t.RejectsBasis c := by
  unfold RejectsBasis
  rw [hcolumns, hinverse]

/-- **A fresh start that fails** leaves a line in the log. -/
theorem refactor_error_iff {cause : Failure} : t.refactor = .ok (.error cause, u)
    ↔ ∃ c, cause = .factorization c ∧ t.RejectsBasis c ∧ u = t.remark (.refreshFailed c) := by
  rw [refactor_eq_refresh]
  constructor
  · intro h
    obtain ⟨columns, hcolumns, h⟩ := Checked.bind_eq_ok.mp h
    split at h
    · cases h
    next c hrefresh =>
      cases h
      exact ⟨c, rfl, ⟨columns, hcolumns, hrefresh⟩, rfl⟩
  · rintro ⟨c, rfl, ⟨columns, hcolumns, hrefresh⟩, rfl⟩
    refine Checked.bind_eq_ok.mpr ⟨columns, hcolumns, ?_⟩
    rw [hrefresh]
    rfl

/-- A fresh start fails for a basis that it rejects, and leaves a line in the log. -/
theorem refactor_error {cause : Failure} (h : t.refactor = .ok (.error cause, u)) :
    ∃ c, cause = .factorization c ∧ t.RejectsBasis c ∧ Silent t u := by
  obtain ⟨c, hcause, hrejects, rfl⟩ := refactor_error_iff.mp h
  exact ⟨c, hcause, hrejects, silent_remark _ _⟩

/-- Variables that cannot take part in a merge are no matter of the inverse. -/
theorem mergeFailure?_ne_factorization {source target : Nat} {cause : Failure}
    (h : (t.mergeFailure? source).or (t.mergeFailure? target) = some cause)
    (c : FactorizationFailure) : cause ≠ .factorization c := by
  rintro rfl
  have hone (v : Nat) : t.mergeFailure? v ≠ some (.factorization c) := by
    unfold mergeFailure?
    split
    · simp
    · split <;> simp
  rcases Option.or_eq_some_iff.mp h with hsource | ⟨-, htarget⟩
  · exact hone source hsource
  · exact hone target htarget

end Rejections

end Tableau

variable {K : Type} [Field K] [LinearOrder K]

namespace State

variable {s s' : State (Extended K)} {source target : Nat}

/-- The columns of the basis depend on its coefficients only. -/
theorem WellFormed.basisColumns_congr (h : s.WellFormed) (h' : s'.WellFormed)
    (hsplit : s'.split = s.split) (hrows : s'.rowCount = s.rowCount)
    (hcoeff : ∀ i < s.rowCount, ∀ k < s.rowCount,
      s'.matrix.coeff i (s.split.basicVar k) = s.matrix.coeff i (s.split.basicVar k)) :
    s'.basisColumns = s.basisColumns := by
  unfold basisColumns
  rw [hsplit, h.split.basic_eq, List.mapM_map, List.mapM_map]
  refine Checked.mapM_congr fun k hk => ?_
  have hk := List.mem_range.mp hk
  obtain ⟨col, hcol, hn, hcoord⟩ := h.matrix.column_eq (h.split.basicVar_lt hk)
  obtain ⟨col', hcol', hn', hcoord'⟩ :=
    h'.matrix.column_eq (hsplit ▸ h'.split.basicVar_lt (hrows.symm ▸ hk))
  have hsame : col' = col := by
    refine (hrows ▸ hn' : Numbers s.rowCount col').ext hn fun i hi => ?_
    rw [hcoord, hcoord', hcoeff i hi k hk]
  exact hcol'.trans ((congrArg _ hsame).trans hcol.symm)

/-- What folding columns does to a residual, the values being the same. -/
theorem residual_folded (hs : source < s.varCount) (hg : target < s.varCount)
    (hne : source ≠ target) (hvars : s'.varCount = s.varCount)
    (hrhs : s'.rightHandSide = s.rightHandSide) (hstored : s'.stored = s.stored) {i : Nat}
    (hmatrix : ∀ j < s.varCount,
      s'.matrix.coeff i j = SystemMatrix.folded s.matrix.coeff source target i j) :
    s'.residual i = s.residual i
      + (s'.matrix.coeff i target - s.matrix.coeff i target) * s.stored target
      - s.matrix.coeff i source * s.stored source := by
  have hdiff : ∑ j ∈ Finset.range s.varCount,
      (s'.matrix.coeff i j - s.matrix.coeff i j) * s.stored j
        = (s'.matrix.coeff i source - s.matrix.coeff i source) * s.stored source
          + (s'.matrix.coeff i target - s.matrix.coeff i target) * s.stored target := by
    refine Finset.sum_eq_add_of_mem source target (Finset.mem_range.mpr hs)
      (Finset.mem_range.mpr hg)
      hne fun j hj hother => ?_
    rw [hmatrix j (Finset.mem_range.mp hj), SystemMatrix.folded, if_neg hother.1, if_neg hother.2,
      sub_self, zero_mul]
  have hcleared : s'.matrix.coeff i source = 0 := by
    rw [hmatrix source hs, SystemMatrix.folded, if_pos rfl]
  simp only [sub_mul, Finset.sum_sub_distrib] at hdiff
  rw [residual, residual, hvars, hrhs, hstored]
  rw [hcleared] at hdiff
  rw [sub_eq_iff_eq_add.mp hdiff]
  ring

end State

namespace Tableau

variable {t u w v : Tableau (Extended K)} {source target : Nat}

/-! ## §2.  Before the inverse is started over -/

/-- Bounds of one variable were tightened at most, which may move it if it is not basic, but no
    other one that is not.  If the basic ones follow exactly, all residuals are kept. -/
structure Confined (t u : Tableau (Extended K)) (target : Nat) : Prop where
  changes : Rebounded t u u.bounds
  pricing : u.pricing = t.pricing ∨ u.pricing = t.pricing.invalidate
  others : ∀ j < t.nonBasicCount, t.split.nonBasicVar j ≠ target →
    coord u.nonBasicValues j = coord t.nonBasicValues j
  solvable : t.Solvable → u.Solvable ∧ ∀ i < t.rowCount, u.toState.residual i = t.toState.residual i

/-- A silent change is confined to any variable. -/
theorem Silent.confined (h : Silent t u) (target : Nat) : Confined t u target := by
  have hsolvable := h.solvable
  obtain ⟨_, _, rfl⟩ := h
  exact ⟨⟨_, _, _, _, _, _, rfl⟩, .inl rfl, fun _ _ _ => rfl,
    fun ht => ⟨hsolvable ht, fun _ _ => rfl⟩⟩

/-- One change after the other. -/
theorem Confined.trans (h : Confined t u target) (h' : Confined u w target) :
    Confined t w target := by
  have hchanges := h.changes.trans h'.changes
  have hpricing : w.pricing = t.pricing ∨ w.pricing = t.pricing.invalidate := by
    rcases h'.pricing with hw | hw
    · rw [hw]
      exact h.pricing
    · refine .inr (hw.trans ?_)
      rcases h.pricing with hu | hu
      · rw [hu]
      · rw [hu]
        rfl
  have hothers := h'.others
  have hsolvable := h'.solvable
  -- the sizes and the split are those of `t` all along
  obtain ⟨_, _, _, _, _, _, hu⟩ := h.changes
  have hcount : u.nonBasicCount = t.nonBasicCount := by rw [hu]; rfl
  have hrows : u.rowCount = t.rowCount := by rw [hu]; rfl
  have hsplit : u.split = t.split := by rw [hu]
  rw [hcount, hsplit] at hothers
  rw [hrows] at hsolvable
  refine ⟨hchanges, hpricing, fun j hj hne => (hothers j hj hne).trans (h.others j hj hne),
    fun ht => ?_⟩
  obtain ⟨hu, hres⟩ := h.solvable ht
  obtain ⟨hw, hres'⟩ := hsolvable hu
  exact ⟨hw, fun i hi => (hres' i hi).trans (hres i hi)⟩

/-- Tightening a bound moves its own variable only. -/
theorem confined_of_tightened {side : Side} {x : Extended K} (h : Tightened side target x t u) :
    Confined t u target where
  changes := h.changes
  pricing := h.pricing.imp And.left id
  others j hj hne := (h.values j hj).elim And.left fun hmoved => absurd hmoved.1 hne
  solvable := h.solvable

/-- One half of taking over bounds. -/
theorem confined_of_half (side : Side) (ht : t.Steady) (hs : source < t.varCount) {tighter : Prop}
    [Decidable tighter]
    (h : (if tighter then side.tighten t target (side.bound t.bounds source) else pure t) = .ok u) :
    u.Steady ∧ Confined t u target := by
  split at h
  · have htight := ht.tighten (Side.proper_bound ht.state.bounds hs) h
    exact ⟨htight.steady, confined_of_tightened htight⟩
  · cases h
    exact ⟨ht, (Silent.refl t).confined target⟩

/-- **Taking over bounds** moves nothing but the target and what follows it. -/
theorem confined_of_intersectBounds (ht : t.Steady) (h : t.intersectBounds source target = .ok u) :
    Confined t u target := by
  obtain ⟨l, l', x, x', w, hl, -, hw, hx, -, h⟩ := intersectBounds_halves h
  obtain ⟨hs, rfl⟩ := lowerBound_spec ht.state hl
  obtain ⟨hsteady, hfirst⟩ := confined_of_half .lower ht hs hw
  obtain ⟨hs', rfl⟩ := upperBound_spec hsteady.state hx
  exact hfirst.trans (confined_of_half .upper hsteady hs' h).2

/-! ## §3.  What a late failure leaves behind -/

/-- A merge that was not completed: bounds, columns and the record are those after the merge,
    the values are not.  Only the bounds of the target may have moved it, and the basic
    variables with it. -/
structure HalfMerged (t u : Tableau (Extended K)) (source target : Nat) : Prop where
  steady : u.Steady
  rowCount : u.rowCount = t.rowCount
  varCount : u.varCount = t.varCount
  split : u.split = t.split
  inverse : u.inverse = t.inverse
  rhs : u.rightHandSide = t.rightHandSide
  settled : u.settled = t.settled
  pricing : u.pricing = t.pricing ∨ u.pricing = t.pricing.invalidate
  merges : t.merges.record source target = .ok u.merges
  matrix : ∀ i < t.rowCount, ∀ j < t.varCount, u.matrix.coeff i j
    = SystemMatrix.folded t.matrix.coeff source target i j
  bounds : Intersects t.bounds u.bounds source target
  fixed : u.bounds.lowerOf source = fin (t.toState.stored source)
    ∧ u.bounds.upperOf source = fin (t.toState.stored source)
  values : ∀ q < t.varCount, t.split.isBasic q = false → q ≠ target →
    u.toState.stored q = t.toState.stored q
  residual : t.Solvable → ∀ i < t.rowCount, u.toState.residual i = t.toState.residual i
    + (u.matrix.coeff i target - t.matrix.coeff i target) * u.toState.stored target
    - t.matrix.coeff i source * t.toState.stored source

/-- Folding leaves a tableau steady, for no row has the variable that was folded. -/
theorem Folds.steady (h : Folds w v source target) (hw : w.Steady)
    (hs : w.split.isBasic source = false) : v.Steady := by
  obtain ⟨hset, hbasis, hinverse, -⟩ := h.frame
  have hothers := h.others
  have hrows := h.rowCount
  have hanswers (m : Nat) (hm : m = w.rowCount) :
      ∃ W : Matrix (Fin m) (Fin m) K, v.inverse.Represents W := by
    rw [hinverse, hm]
    exact hw.answers
  refine ⟨⟨h.state, hanswers _ hrows⟩, ?_, hbasis.trans hw.hasBasis⟩
  have hstate := h.changes.toState
  have hstandings : v.standings = w.standings := by rw [hstate]
  have hsplit : v.split = w.split := by rw [hstate]
  have hvalues : v.basicValues = w.basicValues := by rw [hstate]
  rw [hstandings, hw.standings, hrows, hset]
  refine List.map_congr_left fun i hi => ?_
  have hne := hw.state.split.basicVar_ne (List.mem_range.mp hi) hs
  rw [State.standing, State.standing, hvalues, hsplit, (hothers _ hne).1, (hothers _ hne).2]

/-- **In the course of a merge**, before the inverse is started over. -/
theorem halfMerged_of_course (ht : t.Steady) (hne : source ≠ target) (hs : source < t.varCount)
    (hg : target < t.varCount) (hrole : t.split.isBasic source = false)
    (hw : (t.remark (.merging source target)).intersectBounds source target = .ok w)
    (hv : w.fold source target = .ok v) : HalfMerged t v source target := by
  have hremark := silent_remark t (.merging source target)
  obtain ⟨-, -, hsteady, bounds, hbounds, hint⟩ :=
    intersectBounds_spec (t := t.remark (.merging source target)) (hremark.steady ht) hw
  have hconfined :=
    (hremark.confined target).trans (confined_of_intersectBounds (hremark.steady ht) hw)
  have hothers := hconfined.others
  have hsolvable := hconfined.solvable
  have hpricing := hconfined.pricing
  -- the tableau after the bounds were intersected differs from the first one in values and bounds
  obtain ⟨xs, ys, ss, pricing, _, _, rfl⟩ := hbounds
  have hfolds := fold_spec hsteady.state hs hg hne hrole hv
  have hstate : v.toState = { t.toState with
      matrix := v.matrix, bounds := v.bounds, merges := v.merges, basicValues := xs
      nonBasicValues := ys, standings := ss } := hfolds.changes.toState
  have hkept {q : Nat} (hq : q < t.varCount) (hqrole : t.split.isBasic q = false)
    (hqt : q ≠ target) :
      coord ys (t.split.place q) = coord t.nonBasicValues (t.split.place q) := by
    obtain ⟨hplace, hvar⟩ := ht.state.split.of_not_isBasic hq hqrole
    exact hothers _ hplace (hvar.symm ▸ hqt)
  have hstored {q : Nat} (hq : q < t.varCount) (hqrole : t.split.isBasic q = false)
    (hqt : q ≠ target) :
      v.toState.stored q = t.toState.stored q := by
    rw [hstate]
    simp only [State.stored, hqrole, Bool.false_eq_true, if_false]
    exact hkept hq hqrole hqt
  have hmoved := hstored hs hrole hne
  -- folding moves nothing at all
  have hfrozen : v.toState.stored = State.stored { t.toState with
      bounds, basicValues := xs, nonBasicValues := ys, standings := ss } := by
    rw [hstate]
    rfl
  refine ⟨hfolds.steady hsteady hrole, hfolds.rowCount, hfolds.varCount, by rw [hstate],
    hfolds.frame.2.2.1, by rw [hstate], by rw [hstate], ?_, hfolds.merges, hfolds.matrix,
    hint.fold hne hfolds.others, ?_, fun q hq hqrole hqt => hstored hq hqrole hqt,
    fun hsolv i hi => ?_⟩
  · rw [hfolds.frame.2.2.2]
    exact hpricing
  · rw [← hmoved, hfrozen]
    exact hfolds.fixed
  · rw [← hmoved, ← (hsolvable hsolv).2 i hi, hfrozen]
    exact State.residual_folded (s := { t.toState with
      bounds, basicValues := xs, nonBasicValues := ys, standings := ss })
      hs hg hne hfolds.varCount (by rw [hstate]) hfrozen (hfolds.matrix i hi)

/-- Silent changes do not matter after the failure. -/
theorem HalfMerged.silent (h : HalfMerged t v source target) (hu : Silent v u) :
    HalfMerged t u source target := by
  have hsteady := hu.steady h.steady
  obtain ⟨_, _, rfl⟩ := hu
  exact ⟨hsteady, h.rowCount, h.varCount, h.split, h.inverse, h.rhs, h.settled, h.pricing, h.merges,
    h.matrix, h.bounds, h.fixed, h.values, h.residual⟩

/-- **The columns of the basis** are those of before, and so is the inverse, whether it can be
    started over or not. -/
theorem HalfMerged.rejectsBasis_iff (h : HalfMerged t u source target) (ht : t.Steady)
    (hs : t.split.isBasic source = false) (hg : t.split.isBasic target = false)
    (c : FactorizationFailure) : u.RejectsBasis c ↔ t.RejectsBasis c := by
  refine RejectsBasis.congr (ht.state.basisColumns_congr h.steady.state h.split h.rowCount
    fun i hi k hk => ?_) h.inverse
  have hsplit := ht.state.split
  rw [h.matrix i hi _ (hsplit.basicVar_lt hk), SystemMatrix.folded,
    if_neg (hsplit.basicVar_ne hk hs), if_neg (hsplit.basicVar_ne hk hg)]

/-- No sum of two entries of the columns is negligible but not zero, so that none is cut off. -/
def AddsExactly (t : Tableau (Extended K)) (source target : Nat) : Prop :=
  ∀ i < t.rowCount, t.matrix.coeff i target + t.matrix.coeff i source = 0
    ∨ ¬(fin |t.matrix.coeff i target + t.matrix.coeff i source| : Extended K) < Scalar.negligible

instance (t : Tableau (Extended K)) (source target : Nat) :
    Decidable (t.AddsExactly source target) :=
  inferInstanceAs
    (Decidable (∀ i < t.rowCount, t.matrix.coeff i target + t.matrix.coeff i source = 0
    ∨ ¬(fin |t.matrix.coeff i target + t.matrix.coeff i source| : Extended K) < Scalar.negligible))

/-- **The equations after a late failure.**  A column that was not zero moved to a variable with
    a value of its own. -/
theorem HalfMerged.satisfied_iff (h : HalfMerged t u source target) (ht : t.Solvable)
    (hg : target < t.varCount) (hne : source ≠ target) (hsat : t.toState.Satisfied)
    (hexact : t.AddsExactly source target) :
    u.toState.Satisfied ↔ (∀ i < t.rowCount, t.matrix.coeff i source = 0)
      ∨ u.toState.stored target = t.toState.stored source := by
  -- What is off in each row is exactly what the source column carried between the two values.
  have hres (i : Nat) (hi : i < t.rowCount) : u.toState.residual i
      = t.matrix.coeff i source * (u.toState.stored target - t.toState.stored source) := by
    have hfolded : u.matrix.coeff i target = t.matrix.coeff i target + t.matrix.coeff i source := by
      rw [h.matrix i hi target hg, SystemMatrix.folded, if_neg hne.symm, if_pos rfl]
      split
      · next hzero => rw [hzero, add_zero]
      · exact SystemMatrix.settled_eq (hexact i hi)
    rw [h.residual ht i hi, ht.state.satisfied_iff.mp hsat i hi, hfolded]
    ring
  rw [h.steady.state.satisfied_iff, h.rowCount]
  constructor
  · intro hzero
    by_cases hvalue : u.toState.stored target = t.toState.stored source
    · exact .inr hvalue
    · refine .inl fun i hi => ?_
      have hprod := (hres i hi).symm.trans (hzero i hi)
      exact (mul_eq_zero.mp hprod).resolve_right (sub_ne_zero.mpr hvalue)
  · rintro (hzero | hvalue) i hi
    · rw [hres i hi, hzero i hi, zero_mul]
    · rw [hres i hi, hvalue, sub_self, mul_zero]

/-- **A merge that is let in** comes to where the inverse is started over, from the columns of
    before, and stops there if that fails. -/
theorem halfMerged_of_merge (ht : t.Steady)
    (hopen : (t.mergeFailure? source).or (t.mergeFailure? target) = none) {r : Except Failure Unit}
    (h : t.merge source target = .ok (r, u)) :
    source ≠ target ∧ ∃ v x, HalfMerged t v source target
      ∧ (∀ c, v.RejectsBasis c ↔ t.RejectsBasis c) ∧ v.refactor = .ok (r, x)
      ∧ ∀ cause, r = .error cause → u = x := by
  obtain ⟨hs, hrole⟩ := mergeFailure?_eq_none.mp (Option.or_eq_none_iff.mp hopen).1
  obtain ⟨hg, hrole'⟩ := mergeFailure?_eq_none.mp (Option.or_eq_none_iff.mp hopen).2
  -- A merge that fails after the checks has folded the columns; only the refresh is left.
  obtain ⟨-, hne, ⟨_, hclosed, -⟩ | ⟨-, w, v, r', x, hw, hv, hx, hend⟩⟩ := merge_cases h
  · rw [hopen] at hclosed
    cases hclosed
  have hhalf : HalfMerged t (v.count .mergedColumns) source target :=
    (halfMerged_of_course ht hne hs hg hrole hw hv).silent (silent_count v _)
  refine ⟨hne, _, x, hhalf, hhalf.rejectsBasis_iff ht hrole hrole', ?_⟩
  rcases hend with ⟨_, rfl, rfl, rfl⟩ | ⟨rfl, rfl, -⟩
  · exact ⟨hx, fun _ _ => rfl⟩
  · exact ⟨hx, fun _ hr => by cases hr⟩

/-- **A merge that fails.**  Either a variable cannot take part, and nothing changed; or the basis
    of before is rejected, and the merge is on record, half done.  Equations that held before hold
    after that only if no number moved or both variables have the same value. -/
theorem merge_failed (ht : t.Steady) {cause : Failure}
    (h : t.merge source target = .ok (.error cause, u)) :
    ((∀ c, cause ≠ .factorization c)
        ∧ (t.mergeFailure? source).or (t.mergeFailure? target) = some cause ∧ u = t)
      ∨ ∃ c, cause = .factorization c ∧ t.RejectsBasis c ∧ HalfMerged t u source target
        ∧ t.merges.isMerged source = false ∧ u.merges.isMerged source = true
        ∧ (t.Solvable → t.toState.Satisfied → t.AddsExactly source target →
          (u.toState.Satisfied ↔ (∀ i < t.rowCount, t.matrix.coeff i source = 0)
            ∨ u.toState.stored target = t.toState.stored source)) := by
  obtain ⟨-, -, ⟨_, hclosed, hr, hu⟩ | ⟨hopen, -⟩⟩ := merge_cases h
  · cases hr
    exact .inl ⟨mergeFailure?_ne_factorization hclosed, hclosed, hu⟩
  obtain ⟨hne, v, x, hhalf, hcolumns, hx, hend⟩ := halfMerged_of_merge ht hopen h
  obtain rfl := hend cause rfl
  obtain ⟨c, hc, hrejects, hsilent⟩ := refactor_error hx
  have hhalf := hhalf.silent hsilent
  have hg := (mergeFailure?_eq_none.mp (Option.or_eq_none_iff.mp hopen).2).1
  obtain ⟨-, hstands⟩ := Merges.of_record hhalf.merges
  refine .inr ⟨c, hc, (hcolumns c).mp hrejects, hhalf, ?_, ?_,
    fun hsolv hsat hexact => hhalf.satisfied_iff hsolv hg hne hsat hexact⟩
  · rw [Merges.isMerged, show t.merges.target? source = none from hstands]
    rfl
  · rw [Merges.isMerged, Merges.target?_record source hhalf.merges, if_pos rfl]
    rfl

/-- In `x / 10 ^ 13 + y + z + w = 10` an exchange makes `x` basic, whose column is too small to
    start over from.  Merging `z` at 0 into `w` at 1 fails, and from then on both are at 1 in an
    equation that held before. -/
theorem half_merged_after_tiny_pivot : ∃ t u : Tableau (Extended ℚ), t.Sound ∧ t.toState.Satisfied
    ∧ t.merge 2 3 = .ok (.error (.factorization (.singularBasis 0)), u) ∧ HalfMerged t u 2 3
    ∧ u.merges.isMerged 2 = true ∧ ¬u.toState.Satisfied := by
  have hrun : (do
      let t ← (create (α := Extended ℚ) { boundTolerance := fin 0 }).run [.setSize 1 4,
        .setCoefficients [fin (1 / 10 ^ 13), fin 1, fin 1, fin 1], .setRightHandSide [fin 10],
        .setLower 0 (fin 0), .setUpper 0 (fin 10), .setLower 1 (fin 0), .setUpper 1 (fin 20),
        .setLower 2 (fin 0), .setUpper 2 (fin 10), .setLower 3 (fin 1), .setUpper 3 (fin 10)]
      let (r, s) ← t.startFrom [1]
      let a ← s.selectEntering 0
      let c ← a.computeColumn
      let e ← c.selectLeaving 0
      let d ← e.performDegenerate
      let (q, u) ← d.merge 2 3
      Checked.require (r = Except.ok () ∧ e.KeepsColumn
        ∧ q = Except.error (Failure.factorization (.singularBasis 0))
        ∧ d.AddsExactly 2 3 ∧ 0 < d.rowCount ∧ d.matrix.coeff 0 2 = 1 ∧ d.toState.stored 2 = 0
        ∧ u.toState.stored 3 = 1)
        .inconsistent) = .ok () := by decide +kernel
  obtain ⟨t, ht, hrun⟩ := Checked.bind_eq_ok.mp hrun
  obtain ⟨⟨_, s⟩, hs, hrun⟩ := Checked.bind_eq_ok.mp hrun
  obtain ⟨a, ha, hrun⟩ := Checked.bind_eq_ok.mp hrun
  obtain ⟨c, hc, hrun⟩ := Checked.bind_eq_ok.mp hrun
  obtain ⟨e, he, hrun⟩ := Checked.bind_eq_ok.mp hrun
  obtain ⟨d, hd, hrun⟩ := Checked.bind_eq_ok.mp hrun
  obtain ⟨⟨_, u⟩, hu, hrun⟩ := Checked.bind_eq_ok.mp hrun
  obtain ⟨rfl, hkeeps, rfl, hexact, hrow, hcoeff, hzero, hone⟩ := Checked.require_eq_ok.mp hrun
  have hconf : t.Configured := (Configured.created _).run (by decide +kernel) ht
  have hawaiting := (awaiting_of_startFrom hconf hs ha hc).selectLeaving he
  obtain ⟨i, -, hexchanged⟩ := performDegenerate_spec hawaiting.sound hawaiting.ready hkeeps hd
  -- an exchange without a move keeps the equations
  have hsat : d.toState.Satisfied := by
    have hrows : d.rowCount = e.rowCount := by
      obtain ⟨_, _, _, _, -, _, _, rfl⟩ := hexchanged.changes
      rfl
    refine hexchanged.sound.state.satisfied_iff.mpr fun k hk => ?_
    rw [hrows] at hk
    rw [hexchanged.residual k hk, mul_zero, add_zero]
    exact hawaiting.sound.state.satisfied_iff.mp hawaiting.satisfied k hk
  obtain ⟨hother, -⟩ | ⟨_, -, -, hhalf, -, hmerged, hiff⟩ :=
    merge_failed hexchanged.sound.steady hu
  · exact absurd rfl (hother _)
  · refine ⟨d, u, hexchanged.sound, hsat, hu, hhalf, hmerged, fun hsat' => ?_⟩
    rcases (hiff hexchanged.sound.toSolvable hsat hexact).mp hsat' with hnone | hsame
    · exact one_ne_zero (hcoeff.symm.trans (hnone 0 hrow))
    · rw [hone, hzero] at hsame
      exact one_ne_zero hsame

end Tableau

end BoundedSimplex
