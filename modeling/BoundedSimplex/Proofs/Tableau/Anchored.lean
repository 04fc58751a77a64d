/-
  BoundedSimplex.Proofs.Tableau.Anchored — the equations and the merges through all operations.

  Few operations touch the matrix or the merges at all.  Whatever was done to a tableau, the forms
  of the matrix hold the same numbers, for no operation writes into one of them alone, and a merge
  leads to a variable that there is (`Anchored`).

  Main results:
    * `Spares` — operations that leave the equations, the merges and the basis alone;
    * `Anchored.perform`, `Operated.anchored` — every operation, and every run;
    * `start_sameSystem`, `startFrom_sameSystem` — what giving a basis to a tableau leaves behind.
-/
import BoundedSimplex.Proofs.Freshness
import BoundedSimplex.Proofs.Merges
import BoundedSimplex.Proofs.Progress

namespace BoundedSimplex

variable {α : Type} [Scalar α]

/-- The forms of the matrix agree, and every merge leads to a variable. -/
structure State.Anchored (s : State α) : Prop where
  coherent : s.matrix.Coherent
  linked : s.merges.Within s.varCount

/-- The operations that write neither to the matrix nor to the record of the merges. -/
def Operation.SparesSystem : Operation α → Prop
  | .setSize _ _ | .setCoefficients _ | .setCoefficient _ _ _ | .addEquation _ | .merge _ _
  | .restore _ => False
  | _ => True

namespace Tableau

variable {solved : Prop} {σ : Settings α} {t u w : Tableau α}

/-! ## §1.  Operations that leave the equations alone -/

/-- The equations and the merges are the same. -/
structure SameSystem (t u : Tableau α) : Prop where
  matrix : u.matrix = t.matrix
  merges : u.merges = t.merges

/-- So are the basis and the costs, which may not be current any more. -/
structure Spares (t u : Tableau α) : Prop extends SameSystem t u where
  split : u.split = t.split
  inverse : u.inverse = t.inverse
  hasBasis : u.hasBasis = t.hasBasis
  costs : u.pricing.costs = t.pricing.costs

theorem SameSystem.trans (h : SameSystem t u) (h' : SameSystem u w) : SameSystem t w :=
  ⟨h'.matrix.trans h.matrix, h'.merges.trans h.merges⟩

theorem SameSystem.varCount (h : SameSystem t u) : u.varCount = t.varCount :=
  congrArg SystemMatrix.columnCount h.matrix

theorem SameSystem.rowCount (h : SameSystem t u) : u.rowCount = t.rowCount :=
  congrArg SystemMatrix.rowCount h.matrix

theorem SameSystem.nonBasicCount (h : SameSystem t u) : u.nonBasicCount = t.nonBasicCount := by
  show u.matrix.columnCount - u.matrix.rowCount = t.matrix.columnCount - t.matrix.rowCount
  rw [h.matrix]

theorem SameSystem.anchored (h : SameSystem t u) (ht : t.toState.Anchored) :
    u.toState.Anchored := by
  refine ⟨h.matrix ▸ ht.coherent, ?_⟩
  rw [h.merges, State.varCount, h.matrix]
  exact ht.linked

theorem Spares.trans (h : Spares t u) (h' : Spares u w) : Spares t w :=
  ⟨h.toSameSystem.trans h'.toSameSystem, h'.split.trans h.split, h'.inverse.trans h.inverse,
    h'.hasBasis.trans h.hasBasis, h'.costs.trans h.costs⟩

theorem Moves.spares (h : Moves t u) : Spares t u := by
  obtain ⟨_, _, _, _, _, _, -, -, -, rfl⟩ := h
  exact ⟨⟨rfl, rfl⟩, rfl, rfl, rfl, rfl⟩

theorem Silent.spares (h : Silent t u) : Spares t u := h.moves.spares

theorem Revalues.spares (h : Revalues t u) : Spares t u := by
  rcases h with ⟨hm, -⟩ | ⟨w, hm, rfl⟩
  · exact hm.spares
  · exact ⟨⟨hm.spares.matrix, hm.spares.merges⟩, hm.spares.split, hm.spares.inverse,
      hm.spares.hasBasis, hm.spares.costs⟩

theorem Concludes.spares (h : Concludes t u) : Spares t u := by
  obtain ⟨_, _, _, -, _, _, rfl⟩ := h
  exact ⟨⟨rfl, rfl⟩, rfl, rfl, rfl, rfl⟩

theorem setLower_spares {v : Nat} {x : α} (h : t.setLower v x = .ok u) : Spares t u := by
  obtain ⟨_, -, _, _, rfl⟩ := setLower_spec h
  exact ⟨⟨rfl, rfl⟩, rfl, rfl, rfl, rfl⟩

theorem setUpper_spares {v : Nat} {x : α} (h : t.setUpper v x = .ok u) : Spares t u := by
  obtain ⟨_, -, _, _, rfl⟩ := setUpper_spec h
  exact ⟨⟨rfl, rfl⟩, rfl, rfl, rfl, rfl⟩

theorem tightenLower_spares (ht : t.Shaped solved σ) {v : Nat} {x : α}
    (h : t.tightenLower v x = .ok u) : Spares t u := by
  obtain ⟨w, hw, h⟩ := Checked.bind_eq_ok.mp h
  have hshaped := ((silent_remark t _).shaped ht).setLower hw
  exact ((silent_remark t _).spares.trans (setLower_spares hw)).trans
    (enforce_revalues hshaped.state h).spares

theorem tightenUpper_spares (ht : t.Shaped solved σ) {v : Nat} {x : α}
    (h : t.tightenUpper v x = .ok u) : Spares t u := by
  obtain ⟨w, hw, h⟩ := Checked.bind_eq_ok.mp h
  have hshaped := ((silent_remark t _).shaped ht).setUpper hw
  exact ((silent_remark t _).spares.trans (setUpper_spares hw)).trans
    (enforce_revalues hshaped.state h).spares

/-- The bounds of the folded variable are handed on by tightening. -/
theorem intersectBounds_spares (ht : t.Shaped solved σ) {source target : Nat}
    (h : t.intersectBounds source target = .ok u) : Spares t u := by
  obtain ⟨l, l', x, x', w, -, -, hw, -, -, h⟩ := intersectBounds_halves h
  have hraised : Spares t w ∧ w.Shaped solved σ := by
    split at hw
    · exact ⟨tightenLower_spares ht hw, ht.tightenLower hw⟩
    · cases hw
      exact ⟨(Silent.refl _).spares, ht⟩
  split at h
  · exact hraised.1.trans (tightenUpper_spares hraised.2 h)
  · cases h
    exact hraised.1

theorem freeze_spares {v : Nat} (h : t.freeze v = .ok u) : Spares t u := by
  obtain ⟨_, -, h⟩ := Checked.bind_eq_ok.mp h
  obtain ⟨_, -, h⟩ := Checked.bind_eq_ok.mp h
  obtain ⟨w, hw, h⟩ := Checked.bind_eq_ok.mp h
  exact (setLower_spares hw).trans (setUpper_spares h)

theorem classifyAll_spares (h : t.classifyAll = .ok u) : Spares t u := by
  obtain ⟨_, -, rfl⟩ := of_classifyAll h
  exact ⟨⟨rfl, rfl⟩, rfl, rfl, rfl, rfl⟩

/-- An outcome also says that the inverse has the size of the basis. -/
theorem computeValues_spares (h : t.computeValues = .ok u) :
    Spares t u ∧ t.inverse.size = t.rowCount := by
  obtain ⟨_, hsize, h⟩ := Checked.bind_eq_ok.mp h
  obtain ⟨rhs, -, h⟩ := Checked.bind_eq_ok.mp h
  obtain ⟨xs, -, h⟩ := Checked.bind_eq_ok.mp h
  obtain ⟨w, hw, h⟩ := Checked.bind_eq_ok.mp h
  obtain ⟨pairs, -, h⟩ := Checked.bind_eq_ok.mp h
  cases h
  have hw := classifyAll_spares hw
  have hsolved : Spares t w :=
    ⟨⟨hw.matrix, hw.merges⟩, hw.split, hw.inverse, hw.hasBasis, hw.costs⟩
  have hstale : Spares w w.invalidatePrices := ⟨⟨rfl, rfl⟩, rfl, rfl, rfl, rfl⟩
  exact ⟨(hsolved.trans hstale).trans (silent_tellValues _ pairs).spares,
    Checked.require_eq_ok.mp hsize⟩

theorem refactor_sameSystem {r : Except Failure Unit} (h : t.refactor = .ok (r, u)) :
    SameSystem t u ∧ u.split = t.split ∧ u.hasBasis = t.hasBasis := by
  rcases refactor_reinverts h with ⟨-, _, _, rfl⟩ | ⟨-, _, -, -, _, _, rfl⟩ <;>
    exact ⟨⟨rfl, rfl⟩, rfl, rfl⟩

/-- Following an exchange changes costs only. -/
theorem followExchange_frame {j i : Nat} {element : α} (h : t.followExchange j i element = .ok u) :
    u.toState = t.toState ∧ u.plan = t.plan ∧ u.hasBasis = t.hasBasis := by
  unfold followExchange at h
  split at h
  · split at h
    · obtain ⟨⟨pricing, changed⟩, -, h⟩ := Checked.bind_eq_ok.mp h
      cases h
      cases changed <;> exact ⟨rfl, rfl, rfl⟩
    · cases h
      exact ⟨rfl, rfl, rfl⟩
  · cases h
    exact ⟨rfl, rfl, rfl⟩

theorem followExchange_sameSystem {j i : Nat} {element : α}
    (h : t.followExchange j i element = .ok u) : SameSystem t u := by
  have hstate := (followExchange_frame h).1
  exact ⟨congrArg State.matrix hstate, congrArg State.merges hstate⟩

theorem exchangePlaces_sameSystem {j i : Nat} {x y : α} {names : Nat × Nat}
    (h : t.exchangePlaces j i x y = .ok (names, u)) :
    SameSystem t u ∧ u.hasBasis = t.hasBasis := by
  obtain ⟨_, -, h⟩ := Checked.bind_eq_ok.mp h
  obtain ⟨_, -, h⟩ := Checked.bind_eq_ok.mp h
  obtain ⟨_, -, h⟩ := Checked.bind_eq_ok.mp h
  obtain ⟨_, -, h⟩ := Checked.bind_eq_ok.mp h
  cases h
  exact ⟨⟨rfl, rfl⟩, rfl⟩

/-- An exchange at a pivot changes roles, values and costs, but not the system. -/
theorem performExchange_sameSystem {j i : Nat} (h : t.performExchange j i = .ok u) :
    SameSystem t u ∧ u.hasBasis = t.hasBasis := by
  obtain ⟨element, -, h⟩ := Checked.bind_eq_ok.mp h
  obtain ⟨leaving, -, h⟩ := Checked.bind_eq_ok.mp h
  obtain ⟨standing, -, h⟩ := Checked.bind_eq_ok.mp h
  obtain ⟨l, -, h⟩ := Checked.bind_eq_ok.mp h
  obtain ⟨b, -, h⟩ := Checked.bind_eq_ok.mp h
  obtain ⟨x, -, h⟩ := Checked.bind_eq_ok.mp h
  obtain ⟨⟨⟨q, p⟩, v⟩, hplaces, h⟩ := Checked.bind_eq_ok.mp h
  obtain ⟨w, hw, h⟩ := Checked.bind_eq_ok.mp h
  obtain ⟨y, hy, h⟩ := Checked.bind_eq_ok.mp h
  obtain ⟨pairs, -, h⟩ := Checked.bind_eq_ok.mp h
  -- The places first, then the costs, and at the end what is told.
  obtain ⟨hsame, hbasis⟩ := exchangePlaces_sameSystem hplaces
  have hplaced : SameSystem t v := ⟨hsame.matrix, hsame.merges⟩
  have hclassed := (silent_remark v _).spares.trans (classifyAll_spares hw)
  have hfollowed : SameSystem v y := hclassed.toSameSystem.trans (followExchange_sameSystem hy)
  have hbasis' : y.hasBasis = v.hasBasis := (followExchange_frame hy).2.2.trans hclassed.hasBasis
  have htold := ((silent_tellValues y pairs).trans (silent_tellValue _ leaving
    (landing standing t.plan.leavingRises l b))).trans (silent_count _ .pivots)
  have hend : Spares y u := by
    cases h
    split
    · exact (htold.trans (silent_count _ .degeneratePivots)).spares
    · exact htold.spares
  exact ⟨(hplaced.trans hfollowed).trans hend.toSameSystem,
    hend.hasBasis.trans (hbasis'.trans hbasis)⟩

theorem finish_sameSystem (h : t.finish = .ok u) : SameSystem t u := by
  rcases refactorIfDue_reinverts h with ⟨_, _, rfl⟩ | ⟨_, -, -, _, _, rfl⟩ <;> exact ⟨rfl, rfl⟩

/-- A pivot exchanges variables and leaves the equations as they are. -/
theorem performPivot_sameSystem (ht : t.Shaped solved σ) (h : t.performPivot = .ok u) :
    SameSystem t u := by
  obtain ⟨_, -, h⟩ := Checked.bind_eq_ok.mp h
  obtain ⟨j, -, h⟩ := Checked.bind_eq_ok.mp h
  split at h
  · obtain ⟨w, hw, h⟩ := Checked.bind_eq_ok.mp h
    exact (performFake_revalues ht hw).spares.toSameSystem.trans (finish_sameSystem h)
  · obtain ⟨w, hw, h⟩ := Checked.bind_eq_ok.mp h
    exact (performExchange_sameSystem hw).1.trans (finish_sameSystem h)
  · cases h

theorem performDegenerate_sameSystem (h : t.performDegenerate = .ok u) : SameSystem t u := by
  obtain ⟨_, -, h⟩ := Checked.bind_eq_ok.mp h
  obtain ⟨j, -, h⟩ := Checked.bind_eq_ok.mp h
  obtain ⟨i, -, h⟩ := Checked.bind_eq_ok.mp h
  obtain ⟨standing, -, h⟩ := Checked.bind_eq_ok.mp h
  obtain ⟨_, -, h⟩ := Checked.bind_eq_ok.mp h
  obtain ⟨element, -, h⟩ := Checked.bind_eq_ok.mp h
  obtain ⟨x, -, h⟩ := Checked.bind_eq_ok.mp h
  obtain ⟨y, -, h⟩ := Checked.bind_eq_ok.mp h
  obtain ⟨⟨⟨q, p⟩, v⟩, hplaces, h⟩ := Checked.bind_eq_ok.mp h
  obtain ⟨w, hw, h⟩ := Checked.bind_eq_ok.mp h
  obtain ⟨z, hz, h⟩ := Checked.bind_eq_ok.mp h
  have hclassed := (silent_remark v _).spares.trans (classifyAt_moves hw).spares
  have hcounted := (silent_count z .pivots).trans (silent_count _ .degeneratePivots)
  exact (((exchangePlaces_sameSystem hplaces).1.trans hclassed.toSameSystem).trans
    (followExchange_sameSystem hz)).trans
      (hcounted.spares.toSameSystem.trans (finish_sameSystem h))

/-! ## §2.  A basis -/

/-- A tableau that was given a basis. -/
structure Begun (t u : Tableau α) : Prop where
  sameSystem : SameSystem t u
  hasBasis : u.hasBasis = true
  size : u.inverse.size = u.rowCount
  current : u.Current
  priced : u.pricing.stale = false

/-- Completing a setup does not change the system, and if it is accepted the costs are current. -/
theorem start_sameSystem {r : Except Failure Unit} (h : t.start = .ok (r, u)) :
    SameSystem t u ∧ (r = .ok () → Begun t u) := by
  unfold Tableau.start at h
  dsimp only at h
  split at h
  · cases h
    exact ⟨⟨rfl, rfl⟩, fun h => by cases h⟩
  · obtain ⟨split, _, h⟩ := Checked.bind_eq_ok.mp h
    obtain ⟨_, _, h⟩ := Checked.bind_eq_ok.mp h
    obtain ⟨ys, _, h⟩ := Checked.bind_eq_ok.mp h
    obtain ⟨⟨r', w⟩, hw, h⟩ := Checked.bind_eq_ok.mp h
    obtain ⟨hrefactored, -⟩ := refactor_sameSystem hw
    have hlisted : SameSystem t w := ⟨hrefactored.matrix, hrefactored.merges⟩
    cases r' with
    | error cause =>
      cases h
      exact ⟨hlisted, fun h => by cases h⟩
    | ok _ =>
      obtain ⟨v, hv, h⟩ := Checked.bind_eq_ok.mp h
      obtain ⟨v', hv', h⟩ := Checked.bind_eq_ok.mp h
      obtain ⟨_, _, h⟩ := Checked.bind_eq_ok.mp h
      cases h
      obtain ⟨hv, hsize⟩ := computeValues_spares hv
      -- The costs are computed last, and nothing after them makes them stale.
      have hcurrent := current_of_computePrices hv'
      obtain ⟨_, _, hv'⟩ := Checked.bind_eq_ok.mp hv'
      obtain ⟨pricing, hpricing, hv'⟩ := Checked.bind_eq_ok.mp hv'
      cases hv'
      have hsame : SameSystem t { v with pricing } :=
        ⟨hv.matrix.trans hlisted.matrix, hv.merges.trans hlisted.merges⟩
      refine ⟨hsame, fun _ =>
        ⟨hsame, hv.hasBasis, ?_, hcurrent, (Pricing.length_compute hpricing).1⟩⟩
      show v.inverse.size = v.matrix.rowCount
      rw [hv.inverse, hv.matrix]
      exact hsize

theorem markBasic_sameSystem {v : Nat} (h : t.markBasic v = .ok u) : SameSystem t u := by
  obtain ⟨_, _, h⟩ := Checked.bind_eq_ok.mp h
  obtain ⟨split, _, h⟩ := Checked.bind_eq_ok.mp h
  cases h
  exact ⟨rfl, rfl⟩

theorem assignRow_sameSystem {v i : Nat} (h : t.assignRow v i = .ok u) : SameSystem t u := by
  obtain ⟨_, _, h⟩ := Checked.bind_eq_ok.mp h
  obtain ⟨split, _, h⟩ := Checked.bind_eq_ok.mp h
  cases h
  exact ⟨rfl, rfl⟩

/-- Starting from a list does not change the system either. -/
theorem startFrom_sameSystem {vs : List Nat} {r : Except Failure Unit}
    (h : t.startFrom vs = .ok (r, u)) : SameSystem t u ∧ (r = .ok () → Begun t u) := by
  unfold Tableau.startFrom at h
  split at h
  · cases h
    exact ⟨⟨rfl, rfl⟩, fun h => by cases h⟩
  · split at h
    · cases h
      exact ⟨⟨rfl, rfl⟩, fun h => by cases h⟩
    · obtain ⟨w, hw, h⟩ := Checked.bind_eq_ok.mp h
      -- Giving out the rows, one variable after the other.
      have hassigned : SameSystem t w := by
        refine Checked.foldlM_inv (P := SameSystem t) (fun p _ s s' hs hs' => ?_) ?_ hw
        · obtain ⟨s₁, hs₁, hs'⟩ := Checked.bind_eq_ok.mp hs'
          exact hs.trans ((markBasic_sameSystem hs₁).trans (assignRow_sameSystem hs'))
        · exact ⟨rfl, rfl⟩
      obtain ⟨hsame, hbegun⟩ := start_sameSystem h
      refine ⟨hassigned.trans hsame, fun hr => ?_⟩
      have hu := hbegun hr
      exact ⟨hassigned.trans hsame, hu.hasBasis, hu.size, hu.current, hu.priced⟩

/-! ## §3.  Every operation -/

/-- A rule selects a variable or none, and does nothing else. -/
theorem chooseEntering_replans {rule next : EnteringRule} {found : Bool}
    (h : t.chooseEntering rule = .ok (found, next, u)) : ∃ plan, u = { t with plan } := by
  obtain ⟨_, -, h⟩ := Checked.bind_eq_ok.mp h
  obtain ⟨⟨chosen, _⟩, -, h⟩ := Checked.bind_eq_ok.mp h
  cases chosen with
  | none =>
    cases h
    exact ⟨t.plan, rfl⟩
  | some j =>
    obtain ⟨w, hw, h⟩ := Checked.bind_eq_ok.mp h
    cases h
    obtain ⟨-, rfl⟩ := selectEntering_spec hw
    exact ⟨_, rfl⟩

/-- A return to a saved state takes all of it over, or was refused. -/
theorem restored_or_silent {s : State α} {r : Except Failure Unit} (h : t.restore s = .ok (r, u)) :
    u.toState = s ∨ Silent t u := by
  rw [restore_eq_refresh] at h
  obtain ⟨columns, _, h⟩ := Checked.bind_eq_ok.mp h
  split at h
  · cases h
    exact .inr (silent_remark t _)
  next inverse hf =>
    obtain ⟨_, _, h⟩ := Checked.bind_eq_ok.mp h
    cases h
    exact .inl rfl

theorem checkBounds_sameSystem {v : Nat} {valid : Bool} (h : t.checkBounds v = .ok (valid, u)) :
    SameSystem t u := by
  obtain ⟨⟨b, bounds⟩, _, h⟩ := Checked.bind_eq_ok.mp h
  cases h
  exact ⟨rfl, rfl⟩

theorem checkAllBounds_sameSystem {valid : Bool} (h : t.checkAllBounds = .ok (valid, u)) :
    SameSystem t u := by
  obtain ⟨⟨b, bounds⟩, _, h⟩ := Checked.bind_eq_ok.mp h
  cases h
  exact ⟨rfl, rfl⟩

theorem computePrices_sameSystem (h : t.computePrices = .ok u) : SameSystem t u := by
  obtain ⟨_, _, h⟩ := Checked.bind_eq_ok.mp h
  obtain ⟨pricing, _, h⟩ := Checked.bind_eq_ok.mp h
  cases h
  exact ⟨rfl, rfl⟩

theorem computeMultipliers_sameSystem {costs : List α} (h : t.computeMultipliers costs = .ok u) :
    SameSystem t u := by
  obtain ⟨_, _, h⟩ := Checked.bind_eq_ok.mp h
  obtain ⟨multipliers, _, h⟩ := Checked.bind_eq_ok.mp h
  cases h
  exact ⟨rfl, rfl⟩

/-- **The other operations** leave the matrix and the merges alone. -/
theorem perform_sameSystem (ht : t.Shaped solved σ) {op : Operation α} (hop : op.SparesSystem)
    {reply : Reply α} (h : t.perform op = .ok (reply, u)) : SameSystem t u := by
  cases op with
  | setSize m n => exact hop.elim
  | setCoefficients xs => exact hop.elim
  | setCoefficient i j x => exact hop.elim
  | setRightHandSide xs =>
    obtain ⟨_, _, h⟩ := Checked.bind_eq_ok.mp (of_replyDone h)
    cases h
    exact ⟨rfl, rfl⟩
  | setRightHandSideAt i x =>
    obtain ⟨xs, _, h⟩ := Checked.bind_eq_ok.mp (of_replyDone h)
    cases h
    exact ⟨rfl, rfl⟩
  | setLower v x => exact (setLower_spares (of_replyDone h)).toSameSystem
  | setUpper v x => exact (setUpper_spares (of_replyDone h)).toSameSystem
  | tightenLower v x => exact (tightenLower_spares ht (of_replyDone h)).toSameSystem
  | tightenUpper v x => exact (tightenUpper_spares ht (of_replyDone h)).toSameSystem
  | checkBounds v =>
    obtain ⟨⟨valid, w⟩, hw, h⟩ := Checked.bind_eq_ok.mp h
    cases h
    exact (checkBounds_sameSystem hw)
  | checkAllBounds =>
    obtain ⟨⟨valid, w⟩, hw, h⟩ := Checked.bind_eq_ok.mp h
    cases h
    exact (checkAllBounds_sameSystem hw)
  | markBasic v => exact (markBasic_sameSystem (of_replyDone h))
  | assignRow v i => exact (assignRow_sameSystem (of_replyDone h))
  | startFrom vs =>
    obtain ⟨r, h, -⟩ := of_replyAttempt h
    exact (startFrom_sameSystem h).1
  | start =>
    obtain ⟨r, h, -⟩ := of_replyAttempt h
    exact (start_sameSystem h).1
  | refactor =>
    obtain ⟨r, h, -⟩ := of_replyAttempt h
    exact (refactor_sameSystem h).1
  | addEquation e => exact hop.elim
  | merge source target => exact hop.elim
  | computeValues => exact (computeValues_spares (of_replyDone h)).1.toSameSystem
  | classifyAll => exact (classifyAll_spares (of_replyDone h)).toSameSystem
  | classify v => exact (classify_moves (of_replyDone h)).spares.toSameSystem
  | classifyAt i => exact (classifyAt_moves (of_replyDone h)).spares.toSameSystem
  | setSettled settled =>
    cases of_replyDone h
    exact ⟨rfl, rfl⟩
  | moveNonBasic v x follow =>
    obtain ⟨w, hw, rfl⟩ := moveNonBasic_moves ht.state (of_replyDone h)
    exact hw.revalues.spares.toSameSystem
  | computePrices => exact (computePrices_sameSystem (of_replyDone h))
  | usePricing rule =>
    cases of_replyDone h
    exact ⟨rfl, rfl⟩
  | computeMultipliers costs => exact (computeMultipliers_sameSystem (of_replyDone h))
  | chooseEntering rule =>
    obtain ⟨⟨found, next, w⟩, hw, h⟩ := Checked.bind_eq_ok.mp h
    cases h
    obtain ⟨plan, rfl⟩ := chooseEntering_replans hw
    exact ⟨rfl, rfl⟩
  | selectEntering j =>
    obtain ⟨-, rfl⟩ := selectEntering_spec (of_replyDone h)
    exact ⟨rfl, rfl⟩
  | selectLeaving i =>
    obtain ⟨-, rfl⟩ := selectLeaving_spec (of_replyDone h)
    exact ⟨rfl, rfl⟩
  | setDistance x =>
    obtain ⟨_, _, h⟩ := Checked.bind_eq_ok.mp (of_replyDone h)
    cases h
    exact ⟨rfl, rfl⟩
  | setColumn column =>
    obtain ⟨_, _, h⟩ := Checked.bind_eq_ok.mp (of_replyDone h)
    cases h
    exact ⟨rfl, rfl⟩
  | computeColumn =>
    obtain ⟨column, -, rfl⟩ := column_of_computeColumn ht (of_replyDone h)
    exact ⟨rfl, rfl⟩
  | chooseLeaving =>
    exact (Concludes.spares (chooseLeaving_concludes (of_replyDone h))).toSameSystem
  | standardRatioTest =>
    exact (Concludes.spares (standardRatioTest_concludes (of_replyDone h))).toSameSystem
  | harrisRatioTest =>
    exact (Concludes.spares (harrisRatioTest_concludes (of_replyDone h))).toSameSystem
  | computeRow =>
    obtain ⟨i, row, -, -, rfl⟩ := computeRow_spec (of_replyDone h)
    exact ⟨rfl, rfl⟩
  | performPivot => exact (performPivot_sameSystem ht (of_replyDone h))
  | performDegenerate => exact (performDegenerate_sameSystem (of_replyDone h))
  | save =>
    obtain ⟨⟨s, w⟩, hw, h⟩ := Checked.bind_eq_ok.mp h
    cases h
    exact (save_spec hw).2.spares.toSameSystem
  | restore s => exact hop.elim

/-- An equation is refused, or its row is written into the matrix. -/
theorem addEquation_system {e : LinearEquation α} {r : Except Failure Nat}
    (h : t.addEquation e = .ok (r, u)) : u = t ∨ (∀ term ∈ e.terms, term.var < t.varCount)
      ∧ extendMatrix t.matrix (e.rename t.merges.resolve) t.varCount = .ok u.matrix
      ∧ u.merges = t.merges := by
  obtain ⟨_, _, h⟩ := Checked.bind_eq_ok.mp h
  split at h
  · cases h
    exact .inl rfl
  next hfind =>
    obtain ⟨⟨lower, upper⟩, _, h⟩ := Checked.bind_eq_ok.mp h
    obtain ⟨x, _, h⟩ := Checked.bind_eq_ok.mp h
    obtain ⟨⟨aux, w⟩, hw, h⟩ := Checked.bind_eq_ok.mp h
    obtain ⟨⟨r', v⟩, hv, h⟩ := Checked.bind_eq_ok.mp h
    obtain ⟨matrix, bounds, standing, hm, -, -, -, rfl⟩ := of_extendState hw
    have hend := (refactor_sameSystem hv).1
    have hmatrix : v.matrix = matrix := hend.matrix
    have hmerges : v.merges = t.merges := hend.merges
    refine .inr ⟨fun term hterm => by simpa using List.find?_eq_none.mp hfind term hterm, ?_⟩
    cases r' <;> cases h <;> exact ⟨hmatrix ▸ hm, hmerges⟩

/-- A merge is refused, or the columns are folded and the merge is recorded. -/
theorem merge_system (ht : t.Shaped solved σ) {source target : Nat} {r : Except Failure Unit}
    (h : t.merge source target = .ok (r, u)) : u = t
      ∨ (source < t.varCount ∧ target < t.varCount ∧ source ≠ target)
        ∧ t.matrix.mergeColumns source target = .ok u.matrix
        ∧ t.merges.record source target = .ok u.merges := by
  obtain ⟨-, hne, ⟨_, -, -, rfl⟩ | ⟨hopen, w, v, r', x, hw, hv, hx, hend⟩⟩ := merge_cases h
  · exact .inl rfl
  obtain ⟨matrix, hm, hfreeze⟩ := Checked.bind_eq_ok.mp hv
  obtain ⟨merges, hrecord, hfreeze⟩ := Checked.bind_eq_ok.mp hfreeze
  obtain ⟨hsource, htarget⟩ := Option.or_eq_none_iff.mp hopen
  -- Up to the fold, nothing has touched matrix and merges.
  have hremark := silent_remark t (.merging source target)
  have hsame := hremark.spares.trans (intersectBounds_spares (hremark.shaped ht) hw)
  rw [hsame.matrix] at hm
  rw [hsame.merges] at hrecord
  have hfrozen := (freeze_spares hfreeze).toSameSystem
  have hafter := (refactor_sameSystem hx).1
  -- Nor does anything after it.
  have hlast : SameSystem x u := by
    rcases hend with ⟨_, -, -, rfl⟩ | ⟨-, -, hy⟩
    · exact ⟨rfl, rfl⟩
    · exact (computeValues_spares hy).1.toSameSystem
  have hmatrix : u.matrix = matrix := hlast.matrix.trans (hafter.matrix.trans hfrozen.matrix)
  have hmerges : u.merges = merges := hlast.merges.trans (hafter.merges.trans hfrozen.merges)
  exact .inr ⟨⟨(mergeFailure?_eq_none.mp hsource).1, (mergeFailure?_eq_none.mp htarget).1, hne⟩,
    hmatrix ▸ hm, hmerges ▸ hrecord⟩

variable [LawfulZero α]

/-- A blank matrix has no entries, and a blank record no merges. -/
theorem anchored_setSize {m n : Nat} (h : t.setSize m n = .ok u) : u.toState.Anchored := by
  obtain ⟨_, _, h⟩ := Checked.bind_eq_ok.mp h
  obtain ⟨_, _, h⟩ := Checked.bind_eq_ok.mp h
  cases h
  exact ⟨SystemMatrix.coherent_zero m n, Merges.within_none n⟩

section Anchored

variable (ha : t.toState.Anchored)
include ha

theorem anchored_setCoefficients {xs : List α} (h : t.setCoefficients xs = .ok u) :
    u.toState.Anchored := by
  obtain ⟨matrix, hm, h⟩ := Checked.bind_eq_ok.mp h
  cases h
  exact ⟨SystemMatrix.coherent_ofRowMajor hm,
    ha.linked.mono (SystemMatrix.Shaped.ofRowMajor hm).columnCount.ge⟩

omit [LawfulZero α] in
theorem anchored_setCoefficient (ht : t.Shaped solved σ) {i j : Nat} {x : α}
    (h : t.setCoefficient i j x = .ok u) : u.toState.Anchored := by
  obtain ⟨matrix, hm, h⟩ := Checked.bind_eq_ok.mp h
  cases h
  exact ⟨ha.coherent.set hm, ha.linked.mono (ht.state.matrix.set hm).columnCount.ge⟩

theorem anchored_addEquation (ht : t.Shaped solved σ) {e : LinearEquation α}
    {r : Except Failure Nat} (h : t.addEquation e = .ok (r, u)) : u.toState.Anchored := by
  rcases addEquation_system h with rfl | ⟨hvars, hm, hmerges⟩
  · exact ha
  have hrenamed : ∀ term ∈ (e.rename t.merges.resolve).terms, term.var < t.varCount := by
    intro term hterm
    obtain ⟨term', hterm', rfl⟩ := List.mem_map.mp hterm
    exact ha.linked.resolve_lt (hvars term' hterm')
  obtain ⟨matrix, hm', hshaped, hcoherent⟩ :=
    exists_extendMatrix ht.state.matrix ha.coherent hrenamed
  obtain rfl : matrix = u.matrix := Except.ok.inj (hm'.symm.trans hm)
  refine ⟨hcoherent, ?_⟩
  rw [hmerges, State.varCount, hshaped.columnCount]
  exact ha.linked.mono (Nat.le_succ _)

theorem anchored_merge (ht : t.Shaped solved σ) {source target : Nat} {r : Except Failure Unit}
    (h : t.merge source target = .ok (r, u)) : u.toState.Anchored := by
  rcases merge_system ht h with rfl | ⟨⟨hs, ht', hne⟩, hm, hrecord⟩
  · exact ha
  obtain ⟨matrix, hm', hcoherent⟩ := ha.coherent.exists_mergeColumns hs ht' hne
  obtain rfl : matrix = u.matrix := Except.ok.inj (hm'.symm.trans hm)
  refine ⟨hcoherent, ?_⟩
  rw [State.varCount, (ht.state.matrix.mergeColumns hm).columnCount]
  exact ha.linked.record ht' hrecord

/-- **What an operation keeps**, whether it replies or fails half-way. -/
theorem Anchored.perform (ht : t.Shaped solved σ) {op : Operation α} {reply : Reply α}
    (hs : ∀ s, op = .restore s → s.Anchored) (h : t.perform op = .ok (reply, u)) :
    u.toState.Anchored := by
  cases op with
  | setSize m n => exact anchored_setSize (of_replyDone h)
  | setCoefficients xs => exact anchored_setCoefficients ha (of_replyDone h)
  | setCoefficient i j x => exact anchored_setCoefficient ha ht (of_replyDone h)
  | addEquation e =>
    obtain ⟨r, h, -⟩ := of_replyAttempt h
    exact anchored_addEquation ha ht h
  | merge source target =>
    obtain ⟨r, h, -⟩ := of_replyAttempt h
    exact anchored_merge ha ht h
  | restore s =>
    obtain ⟨r, h, -⟩ := of_replyAttempt h
    rcases restored_or_silent h with hu | hu
    · exact hu ▸ hs s rfl
    · exact hu.spares.toSameSystem.anchored ha
  | _ => exact (perform_sameSystem ht (by trivial) h).anchored ha

end Anchored

/-- **Whatever was done** to a tableau. -/
theorem Operated.anchored {kind : StepKind α} (h : Operated kind t) : t.toState.Anchored := by
  induction h with
  | created settings => exact ⟨SystemMatrix.coherent_zero 0 0, Merges.within_none 0⟩
  | createdExplicit settings => exact ⟨SystemMatrix.coherent_zero 0 0, Merges.within_none 0⟩
  | performed before hforward _ hdone ih =>
    obtain ⟨σ, hshape⟩ := before.shaped
    exact Anchored.perform ih hshape (fun s hs => absurd hs (hforward s)) hdone
  | restored before _ hsaved _ hdone ih ih' =>
    obtain ⟨σ, hshape⟩ := before.shaped
    refine Anchored.perform ih hshape (fun s hs => ?_) hdone
    cases hs
    rw [(save_spec hsaved).1]
    exact ih'
  | attended _ watchers statistics journal ih => exact ih

end Tableau

end BoundedSimplex
