/-
  BoundedSimplex.Proofs.Tableau.ShapeSetup — dimensions through setting up, growing, merging and
  returning to a snapshot.

  These are the operations that change the dimensions, or the split in another way than by an
  exchange.  One that changes dimensions drops the selections and the costs with it.  A start may be
  turned down half-way, and so may a new equation; what is left then still fits together, except
  that after the latter the inverse is one row behind.

  Main results:
    * `Shaped.start`, `Shaped.startFrom` — a first or another basis, accepted or not;
    * `Shaped.addEquation`, `Shaped.merge` — one more row and variable, one column less;
    * `Shaped.restore` — the dimensions of the snapshot.
-/
import BoundedSimplex.Proofs.Tableau.Growth
import BoundedSimplex.Proofs.Tableau.Merging
import BoundedSimplex.Proofs.Tableau.Setup
import BoundedSimplex.Proofs.Tableau.ShapePivot
import BoundedSimplex.Proofs.Tableau.Snapshot

namespace BoundedSimplex

variable {α : Type} [Scalar α]

/-! ## §1.  Splits being set up -/

namespace BasisSplit

variable {s t : BasisSplit}

theorem listNonBasic_spec (h : s.listNonBasic = .ok t) :
    t.basicSet = s.basicSet ∧ t.basic = s.basic ∧ t.positions.length = s.positions.length
      ∧ t.nonBasic.length + s.basic.length = s.positions.length := by
  obtain ⟨_, hlen, h⟩ := Checked.bind_eq_ok.mp h
  cases h
  exact ⟨rfl, rfl, length_placeAll _ _, Checked.require_eq_ok.mp hlen⟩

end BasisSplit

/-- One more row and one more variable, which is basic in it. -/
theorem State.Shaped.grow {s : State α} (hs : s.Shaped)
    (hsplit : s.split.WellFormed s.rowCount s.varCount) {matrix : SystemMatrix α}
    (hmatrix : matrix.Shaped (s.rowCount + 1) (s.varCount + 1)) {bounds : Bounds α}
    (hbounds : bounds.Shaped (s.varCount + 1)) (b x : α) : State.Shaped { s with
      matrix, bounds
      split := s.split.pushBasic
      rightHandSide := s.rightHandSide ++ [b]
      basicValues := s.basicValues ++ [x]
      standings := s.standings ++ [Standing.between] } := by
  -- Each list of the rows has got one more entry.
  have append {β : Type} {xs : List β} (y : β) {n : Nat} (hx : xs.length = n) :
      (xs ++ [y]).length = n + 1 := by rw [List.length_append, hx, List.length_singleton]
  have hnon : s.nonBasicValues.length = s.varCount + 1 - (s.rowCount + 1) := by
    rw [hs.nonBasicValues, Nat.add_sub_add_right]
    rfl
  have hpushed := hsplit.pushBasic.1
  exact .of_dimensions hmatrix (append _ hs.rightHandSide) hbounds hpushed.basic.length
    hpushed.places
    hs.marked.pushBasic (append _ hs.basicValues) hnon (append _ hs.standings)

namespace Tableau

variable {solved : Prop} {σ : Settings α} {t u w : Tableau α}

/-! ## §2.  The equations -/

/-- A tableau that was just made. -/
theorem shaped_withInverse (settings : Settings α) {inverse : BasisInverse α}
    (hf : inverse.Shaped) :
    (withInverse settings inverse).Shaped solved settings where
  settings := rfl
  state := State.shaped_blank 0 0
  inverse := hf
  multipliers := rfl
  costs h := by cases h
  plan := PivotPlan.shaped_none _ _
  split h := by cases h
  row h := by cases h
  size _ h := by cases h

theorem Shaped.setSize (ht : t.Shaped solved σ)
    {m n : Nat} (h : t.setSize m n = .ok u) : u.Shaped solved σ := by
  obtain ⟨_, _, h⟩ := Checked.bind_eq_ok.mp h
  obtain ⟨_, _, h⟩ := Checked.bind_eq_ok.mp h
  cases h
  refine ((silent_remark _ _).trans (silent_tellSize _)).shaped ?_
  exact ⟨ht.settings, State.shaped_blank m n, ht.inverse, Scalar.length_zeros m,
    (fun h => by cases h), PivotPlan.shaped_none _ _, (fun h => by cases h), (fun h => by cases h),
    fun _ h => by cases h⟩

/-- Another matrix of the same dimensions. -/
theorem Shaped.withMatrix (ht : t.Shaped solved σ) {matrix : SystemMatrix α}
    (hm : matrix.Shaped t.rowCount t.varCount) : { t with matrix }.Shaped solved σ := by
  have hs := ht.state
  have hstate : State.Shaped { t.toState with matrix } :=
    .of_dimensions hm hs.rightHandSide hs.bounds hs.rows hs.places hs.marked hs.basicValues
      hs.nonBasicValues hs.standings
  exact .of_dimensions ht.settings hstate hm.rowCount hm.columnCount ht.inverse ht.multipliers
    ht.costs ht.plan
    ht.split ht.row ht.size

/-- Other links between merged variables. -/
theorem Shaped.withMerges (ht : t.Shaped solved σ) (merges : Merges) :
    { t with merges }.Shaped solved σ := by
  have hs := ht.state
  exact ⟨ht.settings, ⟨hs.matrix, hs.rightHandSide, hs.bounds, hs.rows, hs.places, hs.marked,
    hs.basicValues, hs.nonBasicValues, hs.standings⟩, ht.inverse, ht.multipliers, ht.costs, ht.plan,
    ht.split, ht.row, ht.size⟩

theorem Shaped.setCoefficients (ht : t.Shaped solved σ) {xs : List α}
    (h : t.setCoefficients xs = .ok u) : u.Shaped solved σ := by
  obtain ⟨matrix, hm, h⟩ := Checked.bind_eq_ok.mp h
  cases h
  exact ht.withMatrix (SystemMatrix.Shaped.ofRowMajor hm)

theorem Shaped.setCoefficient (ht : t.Shaped solved σ) {i j : Nat} {x : α}
    (h : t.setCoefficient i j x = .ok u) : u.Shaped solved σ := by
  obtain ⟨matrix, hm, h⟩ := Checked.bind_eq_ok.mp h
  cases h
  exact ht.withMatrix (ht.state.matrix.set hm)

/-- Another right-hand side of the same length. -/
theorem Shaped.withRightHandSide (ht : t.Shaped solved σ) {rightHandSide : List α}
    (hr : rightHandSide.length = t.rowCount) : { t with rightHandSide }.Shaped solved σ := by
  have hs := ht.state
  exact ⟨ht.settings, ⟨hs.matrix, hr, hs.bounds, hs.rows, hs.places, hs.marked, hs.basicValues,
    hs.nonBasicValues, hs.standings⟩, ht.inverse, ht.multipliers, ht.costs, ht.plan, ht.split,
    ht.row, ht.size⟩

theorem Shaped.setRightHandSide (ht : t.Shaped solved σ) {xs : List α}
    (h : t.setRightHandSide xs = .ok u) : u.Shaped solved σ := by
  obtain ⟨_, hlen, h⟩ := Checked.bind_eq_ok.mp h
  cases h
  exact ht.withRightHandSide (Checked.require_eq_ok.mp hlen)

theorem Shaped.setRightHandSideAt (ht : t.Shaped solved σ) {i : Nat} {x : α}
    (h : t.setRightHandSideAt i x = .ok u) : u.Shaped solved σ := by
  obtain ⟨xs, hxs, h⟩ := Checked.bind_eq_ok.mp h
  obtain ⟨-, rfl⟩ := Checked.setAt_eq_ok.mp hxs
  cases h
  exact ht.withRightHandSide (List.length_set.trans ht.state.rightHandSide)

/-! ## §3.  The basis -/

/-- Another split of the same dimensions, which has to be in order only if there is a basis. -/
theorem Shaped.withSplit (ht : t.Shaped solved σ) {split : BasisSplit}
    (hrows : split.basic.length = t.rowCount) (hplaces : split.positions.length = t.varCount)
    (hmarked : split.Marked)
    (hsplit : t.hasBasis = true → split.WellFormed t.rowCount t.varCount) :
    { t with split }.Shaped solved σ := by
  have hs := ht.state
  exact ⟨ht.settings, ⟨hs.matrix, hs.rightHandSide, hs.bounds, hrows, hplaces, hmarked,
    hs.basicValues, hs.nonBasicValues, hs.standings⟩, ht.inverse, ht.multipliers, ht.costs, ht.plan,
    hsplit, ht.row, ht.size⟩

theorem Shaped.markBasic (ht : t.Shaped solved σ) {v : Nat} (h : t.markBasic v = .ok u) :
    u.Shaped solved σ := by
  obtain ⟨_, hb, h⟩ := Checked.bind_eq_ok.mp h
  obtain ⟨split, hs, h⟩ := Checked.bind_eq_ok.mp h
  cases h
  have hmarked := ht.state.marked.insert hs
  obtain ⟨_, _, hs⟩ := Checked.bind_eq_ok.mp hs
  cases hs
  refine ht.withSplit ht.state.rows ht.state.places hmarked fun h => ?_
  rw [Checked.require_eq_ok.mp hb] at h
  cases h

theorem Shaped.assignRow (ht : t.Shaped solved σ) {v i : Nat} (h : t.assignRow v i = .ok u) :
    u.Shaped solved σ := by
  obtain ⟨_, hb, h⟩ := Checked.bind_eq_ok.mp h
  obtain ⟨split, hs, h⟩ := Checked.bind_eq_ok.mp h
  cases h
  obtain ⟨-, rfl⟩ := BasisSplit.assignRow_spec hs
  have hplaces : (t.split.positions.set v (some i)).length = t.split.positions.length :=
    List.length_set
  refine ht.withSplit (List.length_set.trans ht.state.rows) (hplaces.trans ht.state.places)
    (fun w hw => ?_) fun h => ?_
  · exact hplaces.symm ▸ ht.state.marked w hw
  · rw [Checked.require_eq_ok.mp hb] at h
    cases h

theorem Shaped.computeValues (ht : t.Shaped solved σ) (h : t.computeValues = .ok u) :
    u.Shaped solved σ := by
  obtain ⟨w, hw, rfl⟩ := computeValues_moves ht.state ht.inverse h
  exact (hw.shaped ht).invalidate

/-- With an inverse of the size of the basis, more may be granted. -/
theorem Shaped.grant (ht : t.Shaped False σ) (hsize : t.inverse.size = t.rowCount) :
    t.Shaped solved σ :=
  ⟨ht.settings, ht.state, ht.inverse, ht.multipliers, ht.costs, ht.plan, ht.split, ht.row,
    fun _ _ => hsize⟩

theorem Shaped.weaken (ht : t.Shaped solved σ) : t.Shaped False σ :=
  ⟨ht.settings, ht.state, ht.inverse, ht.multipliers, ht.costs, ht.plan, ht.split, ht.row,
    fun h => h.elim⟩

/-- A basis that is accepted. -/
theorem Shaped.setUp (ht : t.Shaped solved σ) (hsplit : t.split.WellFormed t.rowCount t.varCount)
    (hsize : t.inverse.size = t.rowCount) :
    { t with hasBasis := true, plan := .none }.Shaped solved σ :=
  ⟨ht.settings, ht.state, ht.inverse, ht.multipliers, ht.costs, PivotPlan.shaped_none _ _,
    fun _ => hsplit, (fun _ _ h => by cases h), fun _ _ => hsize⟩

/-- **Completing the setup.**  If the basis is singular, the split and the values are those of the
    new basis already, and everything that was valid before is as long as it was. -/
theorem Shaped.start (ht : t.Shaped solved σ) {r : Except Failure Unit} (h : t.start = .ok (r, u)) :
    u.Shaped solved σ := by
  unfold Tableau.start at h
  dsimp only at h
  split at h
  · cases h
    exact ht
  next hcount =>
    have hmarks : t.split.basicSet.size = t.rowCount := not_not.mp hcount
    obtain ⟨split, hs, h⟩ := Checked.bind_eq_ok.mp h
    obtain ⟨_, hc, h⟩ := Checked.bind_eq_ok.mp h
    obtain ⟨ys, hy, h⟩ := Checked.bind_eq_ok.mp h
    obtain ⟨⟨r', w⟩, hw, h⟩ := Checked.bind_eq_ok.mp h
    have hstate := ht.state
    have hsplit := BasisSplit.wellFormed_of_listNonBasic hstate.places hmarks hs
      (Checked.require_eq_ok.mp hc)
    obtain ⟨hset, hbasic, hplaces, hlen⟩ := BasisSplit.listNonBasic_spec hs
    have hmarked : split.Marked := fun v hv => by
      rw [hplaces]
      exact hstate.marked v (by rwa [BasisSplit.isBasic, hset] at hv)
    -- everything but the inverse is in place before the refactoring
    have hlisted : { t with
        split, nonBasicValues := ys
        basicValues := Scalar.zeros t.rowCount
        standings := List.replicate t.rowCount .between }.Shaped solved σ :=
      ⟨ht.settings, ⟨hstate.matrix, hstate.rightHandSide, hstate.bounds, hsplit.basic.length,
        hsplit.places, hmarked, Scalar.length_zeros _,
        (Checked.length_of_mapM hy).trans hsplit.nonBasic.length, List.length_replicate⟩,
        ht.inverse, ht.multipliers, ht.costs, ht.plan, fun _ => hsplit, ht.row, ht.size⟩
    obtain ⟨hshaped, hsize⟩ := hlisted.refactor hw
    cases r' with
    | error cause =>
      cases h
      exact hshaped
    | ok _ =>
      obtain ⟨v, hv, h⟩ := Checked.bind_eq_ok.mp h
      obtain ⟨v', hv', h⟩ := Checked.bind_eq_ok.mp h
      obtain ⟨_, _, h⟩ := Checked.bind_eq_ok.mp h
      cases h
      have hsplit' : w.split.WellFormed w.rowCount w.varCount := by
        rcases refactor_reinverts hw with ⟨⟨cause, hcause⟩, -⟩ | ⟨-, inverse, -, -, hsil⟩
        · cases hcause
        · obtain ⟨_, _, rfl⟩ := hsil
          exact hsplit
      exact ((hshaped.setUp hsplit' (hsize rfl)).computeValues hv).computePrices hv'

/-- Starting from a list, refused, rejected or accepted. -/
theorem Shaped.startFrom (ht : t.Shaped solved σ) {vs : List Nat} {r : Except Failure Unit}
    (h : t.startFrom vs = .ok (r, u)) : u.Shaped solved σ := by
  unfold Tableau.startFrom at h
  split at h
  · cases h
    exact ht
  · split at h
    · cases h
      exact ht
    · obtain ⟨w, hw, h⟩ := Checked.bind_eq_ok.mp h
      -- With a blank split nothing is claimed about a basis.
      have hstate := ht.state
      have hblank : { t with
          split := BasisSplit.blank t.rowCount t.varCount, hasBasis := false }.Shaped solved σ :=
        ⟨ht.settings, ⟨hstate.matrix, hstate.rightHandSide, hstate.bounds, List.length_replicate,
          List.length_replicate, BasisSplit.marked_blank _ _, hstate.basicValues,
          hstate.nonBasicValues, hstate.standings⟩, ht.inverse, ht.multipliers, ht.costs, ht.plan,
          (fun h => by cases h), (fun h => by cases h), fun _ h => by cases h⟩
      have hassigned : w.Shaped solved σ := by
        refine Checked.foldlM_inv (P := Shaped solved σ) (fun p _ s s' hs hs' => ?_) hblank hw
        obtain ⟨s₁, hs₁, hs'⟩ := Checked.bind_eq_ok.mp hs'
        exact (hs.markBasic hs₁).assignRow hs'
      exact hassigned.start h

/-! ## §4.  Growing -/

theorem extendMatrix_shaped {a b : SystemMatrix α} {m n : Nat} (ha : a.Shaped m n)
    {e : LinearEquation α} {aux : Nat} (h : extendMatrix a e aux = .ok b) :
    b.Shaped (m + 1) (n + 1) := by
  obtain ⟨-, grown, filled, hgrown, hf, h⟩ := of_extendMatrix h
  refine SystemMatrix.Shaped.set ?_ h
  exact Checked.foldlM_inv (P := SystemMatrix.Shaped (m + 1) (n + 1))
    (fun term _ c d hc hd => hc.addEntry hd) (ha.appendRow hgrown).appendColumn hf

/-- One more row and one more variable.  The inverse does not know of them yet. -/
theorem Shaped.extendState (ht : t.Shaped solved σ) (hb : t.hasBasis = true) {e : LinearEquation α}
    {lower upper x : α} {aux : Nat} (h : t.extendState e lower upper x = .ok (aux, u)) :
    u.clearPlan.invalidatePrices.Shaped False σ := by
  obtain ⟨matrix, bounds, standing, hm, hbounds, -, -, rfl⟩ := of_extendState h
  have hs := ht.state
  have hsplit := (ht.split hb).pushBasic.1
  have hmatrix := extendMatrix_shaped hs.matrix hm
  have hmultipliers : (t.multipliers ++ [0]).length = t.rowCount + 1 := by
    rw [List.length_append, ht.multipliers, List.length_singleton]
  have hgrown : ({ t with
      matrix, bounds
      split := t.split.pushBasic
      rightHandSide := t.rightHandSide ++ [e.scalar]
      basicValues := t.basicValues ++ [x]
      standings := t.standings ++ [Standing.between]
      multipliers := t.multipliers ++ [0]
      } : Tableau α).clearPlan.invalidatePrices.Shaped False σ :=
    .of_dimensions ht.settings (hs.grow (ht.split hb) hmatrix (hs.bounds.push hbounds) e.scalar x)
      hmatrix.rowCount hmatrix.columnCount ht.inverse hmultipliers
      (fun h => by cases h) (PivotPlan.shaped_none _ _) (fun _ => hsplit) (fun _ _ h => by cases h)
      fun h => h.elim
  -- the standing of the new row is all that is still to come
  exact (moves_standings List.length_set).shaped hgrown

/-- **Adding an equation.**  If the new basis has no usable inverse, everything but the inverse has
    grown. -/
theorem Shaped.addEquation (ht : t.Shaped solved σ) {e : LinearEquation α} {r : Except Failure Nat}
    (h : t.addEquation e = .ok (r, u)) :
    u.Shaped False σ ∧ ((∀ cause, r ≠ .error (.factorization cause)) → u.Shaped solved σ) := by
  obtain ⟨_, hb, h⟩ := Checked.bind_eq_ok.mp h
  split at h
  · cases h
    exact ⟨ht.weaken, fun _ => ht⟩
  · obtain ⟨⟨lower, upper⟩, _, h⟩ := Checked.bind_eq_ok.mp h
    obtain ⟨x, _, h⟩ := Checked.bind_eq_ok.mp h
    obtain ⟨⟨aux, w⟩, hw, h⟩ := Checked.bind_eq_ok.mp h
    obtain ⟨⟨r', v⟩, hv, h⟩ := Checked.bind_eq_ok.mp h
    have hw := ((silent_remark _ _).shaped ht).extendState (Checked.require_eq_ok.mp hb) hw
    have hcounted := silent_count w.clearPlan.invalidatePrices .addedRows
    -- Notices about the new variable do not matter to the shape.
    have htold := (((hcounted.trans (silent_tellSize _)).trans (silent_tellLower _ aux lower)).trans
      (silent_tellUpper _ aux upper)).trans (silent_tellValue _ aux x)
    obtain ⟨hshaped, hsize⟩ := (htold.shaped hw).refactor hv
    cases r' with
    | error cause =>
      cases h
      obtain ⟨c, rfl⟩ := failure_of_refactor hv
      exact ⟨hshaped, fun hne => absurd rfl (hne c)⟩
    | ok _ =>
      cases h
      exact ⟨hshaped, fun _ => hshaped.grant (hsize rfl)⟩

/-! ## §5.  Merging -/

theorem Shaped.intersectBounds (ht : t.Shaped solved σ) {source target : Nat}
    (h : t.intersectBounds source target = .ok u) : u.Shaped solved σ := by
  obtain ⟨l, l', x, x', w, -, -, hw, -, -, h⟩ := intersectBounds_halves h
  have hraised : w.Shaped solved σ := by
    split at hw
    · exact ht.tightenLower hw
    · cases hw
      exact ht
  split at h
  · exact hraised.tightenUpper h
  · cases h
    exact hraised

theorem Shaped.freeze (ht : t.Shaped solved σ) {v : Nat} (h : t.freeze v = .ok u) :
    u.Shaped solved σ := by
  obtain ⟨i, _, h⟩ := Checked.bind_eq_ok.mp h
  obtain ⟨x, _, h⟩ := Checked.bind_eq_ok.mp h
  obtain ⟨w, hw, h⟩ := Checked.bind_eq_ok.mp h
  exact (ht.setLower hw).setUpper h

theorem Shaped.fold (ht : t.Shaped solved σ) {source target : Nat}
    (h : t.fold source target = .ok u) : u.Shaped solved σ := by
  obtain ⟨matrix, hm, h⟩ := Checked.bind_eq_ok.mp h
  obtain ⟨merges, _, h⟩ := Checked.bind_eq_ok.mp h
  exact ((ht.withMatrix (ht.state.matrix.mergeColumns hm)).withMerges merges).freeze h

theorem Shaped.merge (ht : t.Shaped solved σ) {source target : Nat} {r : Except Failure Unit}
    (h : t.merge source target = .ok (r, u)) : u.Shaped solved σ := by
  obtain ⟨-, -, ⟨_, -, -, rfl⟩ | ⟨-, w, v, r', x, hw, hv, hx, hend⟩⟩ := merge_cases h
  · exact ht
  have hv := (((silent_remark _ _).shaped ht).intersectBounds hw).fold hv
  have hx := ((silent_count _ _).shaped hv).refactor hx
  rcases hend with ⟨_, -, -, rfl⟩ | ⟨-, -, hy⟩
  · exact hx.1
  · exact hx.1.computeValues hy

/-! ## §6.  Snapshots -/

/-- **Returning to a snapshot** takes over its dimensions, or changes nothing. -/
theorem Shaped.restore (ht : t.Shaped solved σ) {s : State α} (hs : s.Shaped)
    (hsplit : s.split.WellFormed s.rowCount s.varCount) {r : Except Failure Unit}
    (h : t.restore s = .ok (r, u)) : u.Shaped solved σ := by
  rw [restore_eq_refresh] at h
  obtain ⟨columns, hc, h⟩ := Checked.bind_eq_ok.mp h
  split at h
  · cases h
    exact (silent_remark _ _).shaped ht
  next inverse hf =>
    obtain ⟨_, _, h⟩ := Checked.bind_eq_ok.mp h
    cases h
    obtain ⟨hshape, hsize⟩ := BasisInverse.shaped_of_refresh hf
    refine (silent_tellSize _).shaped ?_
    exact ⟨ht.settings, hs, hshape, Scalar.length_zeros _, (fun h => by cases h),
      PivotPlan.shaped_none _ _, fun _ => hsplit, (fun _ _ h => by cases h),
      fun _ _ => hsize.trans ((Checked.length_of_mapM hc).trans hs.rows)⟩

end Tableau

end BoundedSimplex
