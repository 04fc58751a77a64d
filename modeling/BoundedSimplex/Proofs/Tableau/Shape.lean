/-
  BoundedSimplex.Proofs.Tableau.Shape — the dimensions of everything that a tableau keeps.

  Next to its state a tableau keeps an inverse, costs, multipliers and the selections of a pivot,
  each as long as there are rows or non-basic positions.  This module says so for any arithmetic
  (`Shaped`) and shows it of the steps that the larger operations are made of.  Most of those change
  values and standings only, so their effect is named once (`Moves`, `Revalues`).

  Main results:
    * `Shaped` — the representation invariant;
    * `computeValues_moves`, `moveNonBasic_moves`, `enforce_revalues` — what moving
      variables touches;
    * `Shaped.refactor` — starting the inverse over.
-/
import BoundedSimplex.Proofs.Basis.Shape
import BoundedSimplex.Proofs.Shape
import BoundedSimplex.Proofs.Tableau.Tightening

namespace BoundedSimplex

variable {α : Type} [Scalar α]

/-! ## §1.  The invariant -/

/-- The selections of a pivot are among `m` rows and `k` non-basic positions. -/
structure PivotPlan.Shaped (m k : Nat) (p : PivotPlan α) : Prop where
  entering : ∀ j, p.entering = some j → j < k
  leaving : ∀ i, p.leaving = some (.basic i) → i < m
  column : p.column = [] ∨ p.column.length = m

theorem PivotPlan.shaped_none (m k : Nat) : (PivotPlan.none : PivotPlan α).Shaped m k where
  entering _ h := by cases h
  leaving _ h := by cases h
  column := .inl rfl

namespace Tableau

/-- The parts of a tableau fit together, those of the basis as soon as there is one, and the
    settings are `σ`.  Where `solved` is granted, the inverse has the size of the basis. -/
structure Shaped (solved : Prop) (σ : Settings α) (t : Tableau α) : Prop where
  settings : t.settings = σ
  state : t.toState.Shaped
  inverse : t.inverse.Shaped
  multipliers : t.multipliers.length = t.rowCount
  costs : t.pricing.stale = false → t.pricing.costs.length = t.nonBasicCount
  plan : t.plan.Shaped t.rowCount t.nonBasicCount
  split : t.hasBasis = true → t.split.WellFormed t.rowCount t.varCount
  row : t.hasBasis = true → ∀ row, t.plan.row = some row →
    row.basicIndex < t.rowCount ∧ row.entries.length = t.nonBasicCount
  size : solved → t.hasBasis = true → t.inverse.size = t.rowCount

variable {solved : Prop} {σ : Settings α} {t u w : Tableau α}

/-- The dimensions may be given next to the state. -/
theorem Shaped.of_dimensions {m n : Nat} (settings : t.settings = σ) (state : t.toState.Shaped)
    (hm : t.rowCount = m) (hn : t.varCount = n) (inverse : t.inverse.Shaped)
    (multipliers : t.multipliers.length = m)
    (costs : t.pricing.stale = false → t.pricing.costs.length = n - m)
    (plan : t.plan.Shaped m (n - m)) (split : t.hasBasis = true → t.split.WellFormed m n)
    (row : t.hasBasis = true → ∀ row, t.plan.row = some row →
      row.basicIndex < m ∧ row.entries.length = n - m)
    (size : solved → t.hasBasis = true → t.inverse.size = m) : t.Shaped solved σ := by
  subst hm hn
  exact ⟨settings, state, inverse, multipliers, costs, plan, split, row, size⟩

theorem Silent.refl (t : Tableau α) : Silent t t := ⟨_, _, rfl⟩

theorem Silent.shaped (h : Silent t u) (ht : t.Shaped solved σ) : u.Shaped solved σ := by
  obtain ⟨_, _, rfl⟩ := h
  exact ⟨ht.settings, ht.state, ht.inverse, ht.multipliers, ht.costs, ht.plan, ht.split,
    ht.row, ht.size⟩

theorem Shaped.invalidate (ht : t.Shaped solved σ) : t.invalidatePrices.Shaped solved σ :=
  ⟨ht.settings, ht.state, ht.inverse, ht.multipliers, (fun h => by cases h), ht.plan, ht.split,
    ht.row, ht.size⟩

theorem Shaped.clearPlan (ht : t.Shaped solved σ) : t.clearPlan.Shaped solved σ :=
  ⟨ht.settings, ht.state, ht.inverse, ht.multipliers, ht.costs, PivotPlan.shaped_none _ _, ht.split,
    (fun _ _ h => by cases h), ht.size⟩

/-! ## §2.  Values and standings -/

/-- `u` differs from `t` in values and standings, of which there are as many, in whether the basic
    values count as computed, and in what was told. -/
def Moves (t u : Tableau α) : Prop :=
  ∃ xs ys ss b j st, xs.length = t.basicValues.length ∧ ys.length = t.nonBasicValues.length
    ∧ ss.length = t.standings.length ∧ u = { t with
        basicValues := xs, nonBasicValues := ys, standings := ss, settled := b, journal := j
        statistics := st }

/-- A move that leaves the standings as they were, or after which the costs count as stale. -/
def Revalues (t u : Tableau α) : Prop :=
  (Moves t u ∧ u.standings = t.standings) ∨ ∃ w, Moves t w ∧ u = w.invalidatePrices

theorem Silent.moves (h : Silent t u) : Moves t u := by
  obtain ⟨_, _, rfl⟩ := h
  exact ⟨_, _, _, _, _, _, rfl, rfl, rfl, rfl⟩

theorem Moves.trans (h : Moves t u) (h' : Moves u w) : Moves t w := by
  obtain ⟨xs, ys, ss, b, j, st, hx, hy, hs, rfl⟩ := h
  obtain ⟨xs', ys', ss', b', j', st', hx', hy', hs', rfl⟩ := h'
  exact ⟨xs', ys', ss', b', j', st', hx'.trans hx, hy'.trans hy, hs'.trans hs, rfl⟩

theorem Moves.plan (h : Moves t u) : u.plan = t.plan := by
  obtain ⟨_, _, _, _, _, _, -, -, -, rfl⟩ := h
  rfl

theorem Moves.pricing (h : Moves t u) : u.pricing = t.pricing := by
  obtain ⟨_, _, _, _, _, _, -, -, -, rfl⟩ := h
  rfl

theorem Moves.length_standings (h : Moves t u) : u.standings.length = t.standings.length := by
  obtain ⟨_, _, _, _, _, _, -, -, hs, rfl⟩ := h
  exact hs

theorem Moves.hasBasis (h : Moves t u) : u.hasBasis = t.hasBasis := by
  obtain ⟨_, _, _, _, _, _, -, -, -, rfl⟩ := h
  rfl

theorem Moves.shaped (h : Moves t u) (ht : t.Shaped solved σ) : u.Shaped solved σ := by
  obtain ⟨_, _, _, _, _, _, hx, hy, hs, rfl⟩ := h
  have hstate := ht.state
  exact ⟨ht.settings, ⟨hstate.matrix, hstate.rightHandSide, hstate.bounds, hstate.rows,
    hstate.places, hstate.marked, hx.trans hstate.basicValues, hy.trans hstate.nonBasicValues,
    hs.trans hstate.standings⟩, ht.inverse, ht.multipliers, ht.costs, ht.plan, ht.split, ht.row,
    ht.size⟩

theorem Moves.revalues (h : Moves t w) : Revalues t w.invalidatePrices := .inr ⟨w, h, rfl⟩

/-- Telling something changes neither standings nor costs. -/
theorem Silent.revalues (h : Silent t u) (h' : Revalues u w) : Revalues t w := by
  rcases h' with ⟨hm, hs⟩ | ⟨x, hm, rfl⟩
  · exact .inl ⟨h.moves.trans hm, by rw [hs, h.toState]⟩
  · exact .inr ⟨x, h.moves.trans hm, rfl⟩

theorem Revalues.shaped (h : Revalues t u) (ht : t.Shaped solved σ) : u.Shaped solved σ := by
  rcases h with ⟨hm, -⟩ | ⟨w, hm, rfl⟩
  · exact hm.shaped ht
  · exact (hm.shaped ht).invalidate

/-- Standings of the same number are a move. -/
theorem moves_standings {ss : List Standing} (h : ss.length = t.standings.length) :
    Moves t { t with standings := ss } :=
  ⟨_, _, _, _, _, _, rfl, rfl, h, rfl⟩

theorem classifyAt_moves {i : Nat} (h : t.classifyAt i = .ok u) : Moves t u := by
  obtain ⟨standing, _, h⟩ := Checked.bind_eq_ok.mp h
  obtain ⟨ss, hs, h⟩ := Checked.bind_eq_ok.mp h
  obtain ⟨-, rfl⟩ := Checked.setAt_eq_ok.mp hs
  cases h
  exact moves_standings List.length_set

theorem classify_moves {v : Nat} (h : t.classify v = .ok u) : Moves t u := by
  obtain ⟨_, _, h⟩ := Checked.bind_eq_ok.mp h
  obtain ⟨i, _, h⟩ := Checked.bind_eq_ok.mp h
  exact classifyAt_moves h

theorem classifyAll_moves (ht : t.toState.Shaped) (h : t.classifyAll = .ok u) : Moves t u := by
  obtain ⟨ss, hs, rfl⟩ := of_classifyAll h
  refine moves_standings ?_
  rw [Checked.length_of_mapM hs, List.length_range, ht.standings]

/-- Computing the basic values. -/
theorem computeValues_moves (ht : t.toState.Shaped) (hf : t.inverse.Shaped)
    (h : t.computeValues = .ok u) : ∃ w, Moves t w ∧ u = w.invalidatePrices := by
  obtain ⟨_, hsize, h⟩ := Checked.bind_eq_ok.mp h
  obtain ⟨rhs, _, h⟩ := Checked.bind_eq_ok.mp h
  obtain ⟨xs, hxs, h⟩ := Checked.bind_eq_ok.mp h
  obtain ⟨w, hw, h⟩ := Checked.bind_eq_ok.mp h
  obtain ⟨pairs, _, h⟩ := Checked.bind_eq_ok.mp h
  cases h
  -- The solution has a value for each row.
  have hsize := Checked.require_eq_ok.mp hsize
  have hlen : xs.length = t.basicValues.length := by
    rw [(hf.solveColumn hxs).2, hsize, ht.basicValues]
  have hsolved : Moves t { t with basicValues := xs, settled := true } :=
    ⟨_, _, _, _, _, _, hlen, rfl, rfl, rfl⟩
  have hw : Moves t w := (hsolved.trans (silent_count _ _).moves).trans
    (classifyAll_moves ⟨ht.matrix, ht.rightHandSide, ht.bounds, ht.rows, ht.places, ht.marked,
      hlen.trans ht.basicValues, ht.nonBasicValues, ht.standings⟩ hw)
  obtain ⟨j, st, htold⟩ := silent_tellValues w.invalidatePrices pairs
  exact ⟨{ w with journal := j, statistics := st }, hw.trans (Silent.moves ⟨j, st, rfl⟩), htold⟩

theorem followMove_moves (ht : t.toState.Shaped) {v : Nat} {δ : α} (h : t.followMove v δ = .ok u) :
    Moves t u := by
  unfold followMove at h
  split at h
  · cases h
    exact (Silent.refl t).moves
  · obtain ⟨c, _, h⟩ := Checked.bind_eq_ok.mp h
    obtain ⟨column, _, h⟩ := Checked.bind_eq_ok.mp h
    obtain ⟨pairs, _, h⟩ := Checked.bind_eq_ok.mp h
    have hlen := length_shift δ t.basicValues column
    have hshift : Moves t { t with basicValues := shift δ t.basicValues column } :=
      ⟨_, _, _, _, _, _, hlen, rfl, rfl, rfl⟩
    have htold := silent_tellValues { t with basicValues := shift δ t.basicValues column } pairs
    refine (hshift.trans htold.moves).trans (classifyAll_moves ?_ h)
    rw [htold.toState]
    exact ⟨ht.matrix, ht.rightHandSide, ht.bounds, ht.rows, ht.places, ht.marked,
      hlen.trans ht.basicValues, ht.nonBasicValues, ht.standings⟩

/-- Moving a non-basic variable. -/
theorem moveNonBasic_moves (ht : t.toState.Shaped) {v : Nat} {x : α} {follow : Bool}
    (h : t.moveNonBasic v x follow = .ok u) : ∃ w, Moves t w ∧ u = w.invalidatePrices := by
  obtain ⟨_, _, h⟩ := Checked.bind_eq_ok.mp h
  obtain ⟨j, _, h⟩ := Checked.bind_eq_ok.mp h
  obtain ⟨old, _, h⟩ := Checked.bind_eq_ok.mp h
  -- One value is replaced by another.
  have hset : (t.nonBasicValues.set j x).length = t.nonBasicValues.length := List.length_set
  have hmoved : Moves t { t with nonBasicValues := t.nonBasicValues.set j x } :=
    ⟨_, _, _, _, _, _, rfl, hset, rfl, rfl⟩
  have htold := ((silent_remark { t with nonBasicValues := t.nonBasicValues.set j x }
    (.movingNonBasic v x)).trans (silent_tellValue _ v x))
  have hmoved := hmoved.trans htold.moves
  cases follow with
  | true =>
    obtain ⟨w, hw, h⟩ := Checked.bind_eq_ok.mp h
    cases h
    refine ⟨w, hmoved.trans (followMove_moves ?_ hw), rfl⟩
    rw [htold.toState]
    exact ⟨ht.matrix, ht.rightHandSide, ht.bounds, ht.rows, ht.places, ht.marked, ht.basicValues,
      hset.trans ht.nonBasicValues, ht.standings⟩
  | false =>
    cases h
    exact ⟨_, hmoved.trans ⟨_, _, _, _, _, _, rfl, rfl, rfl, rfl⟩, rfl⟩

/-! ## §3.  Bounds -/

theorem Shaped.rebound (ht : t.Shaped solved σ) {bounds : Bounds α}
    (hb : bounds.Shaped t.varCount) :
    { t with bounds }.Shaped solved σ := by
  have hs := ht.state
  exact ⟨ht.settings, ⟨hs.matrix, hs.rightHandSide, hb, hs.rows, hs.places, hs.marked,
    hs.basicValues, hs.nonBasicValues, hs.standings⟩, ht.inverse, ht.multipliers, ht.costs, ht.plan,
    ht.split, ht.row, ht.size⟩

theorem Shaped.setLower (ht : t.Shaped solved σ) {v : Nat} {x : α} (h : t.setLower v x = .ok u) :
    u.Shaped solved σ := by
  obtain ⟨bounds, hb, hu⟩ := setLower_spec h
  exact hu.shaped (ht.rebound (ht.state.bounds.setLower hb))

theorem Shaped.setUpper (ht : t.Shaped solved σ) {v : Nat} {x : α} (h : t.setUpper v x = .ok u) :
    u.Shaped solved σ := by
  obtain ⟨bounds, hb, hu⟩ := setUpper_spec h
  exact hu.shaped (ht.rebound (ht.state.bounds.setUpper hb))

theorem Shaped.checkBounds (ht : t.Shaped solved σ) {v : Nat} {valid : Bool}
    (h : t.checkBounds v = .ok (valid, u)) : u.Shaped solved σ := by
  obtain ⟨⟨b, bounds⟩, hb, h⟩ := Checked.bind_eq_ok.mp h
  cases h
  exact ht.rebound (ht.state.bounds.check hb).1

theorem Shaped.checkAllBounds (ht : t.Shaped solved σ) {valid : Bool}
    (h : t.checkAllBounds = .ok (valid, u)) : u.Shaped solved σ := by
  obtain ⟨⟨b, bounds⟩, hb, h⟩ := Checked.bind_eq_ok.mp h
  cases h
  exact ht.rebound (ht.state.bounds.checkAll hb)

/-- Recording a standing anew: the costs go stale if it changed. -/
theorem restand_revalues {i : Nat} (h : t.restand i = .ok u) : Revalues t u := by
  obtain ⟨before, hbefore, h⟩ := Checked.bind_eq_ok.mp h
  obtain ⟨w, hw, h⟩ := Checked.bind_eq_ok.mp h
  obtain ⟨after, hafter, h⟩ := Checked.bind_eq_ok.mp h
  have hmoves := classifyAt_moves hw
  split at h
  next heq =>
    -- the entry that was written is the one that was read before
    cases h
    refine .inl ⟨hmoves, ?_⟩
    obtain ⟨standing, _, hw⟩ := Checked.bind_eq_ok.mp hw
    obtain ⟨ss, hs, hw⟩ := Checked.bind_eq_ok.mp hw
    obtain ⟨hi, rfl⟩ := Checked.setAt_eq_ok.mp hs
    cases hw
    have hbefore := Checked.getAt_eq_ok.mp hbefore
    have hafter := Checked.getAt_eq_ok.mp hafter
    rw [List.getElem?_set_self hi] at hafter
    cases hafter
    subst heq
    obtain ⟨_, hget⟩ := List.getElem?_eq_some_iff.mp hbefore
    rw [← hget]
    exact List.set_getElem_self _
  next =>
    cases h
    exact hmoves.revalues

/-- What a new bound does to the assignment. -/
theorem enforce_revalues (ht : t.toState.Shaped) {v : Nat} {bound : α} {violated : α → Bool}
    (h : t.enforce v bound violated = .ok u) : Revalues t u := by
  have hcount := silent_count t .boundTightenings
  refine hcount.revalues ?_
  have ht : (t.count .boundTightenings).toState.Shaped := by rwa [hcount.toState]
  unfold enforce at h
  dsimp only at h
  -- The count is out of the way, so what remains is about the tableau with it.
  generalize t.count .boundTightenings = t at h ht
  split at h
  · obtain ⟨i, _, h⟩ := Checked.bind_eq_ok.mp h
    split at h
    · exact restand_revalues h
    · obtain ⟨x, _, h⟩ := Checked.bind_eq_ok.mp h
      split at h
      · exact .inr (moveNonBasic_moves ht h)
      · cases h
        exact .inl ⟨(Silent.refl _).moves, rfl⟩
  · cases h
    exact .inl ⟨(Silent.refl _).moves, rfl⟩

theorem Shaped.tightenLower (ht : t.Shaped solved σ) {v : Nat} {x : α}
    (h : t.tightenLower v x = .ok u) : u.Shaped solved σ := by
  obtain ⟨w, hw, h⟩ := Checked.bind_eq_ok.mp h
  have hw := ((silent_remark t _).shaped ht).setLower hw
  exact (enforce_revalues hw.state h).shaped hw

theorem Shaped.tightenUpper (ht : t.Shaped solved σ) {v : Nat} {x : α}
    (h : t.tightenUpper v x = .ok u) : u.Shaped solved σ := by
  obtain ⟨w, hw, h⟩ := Checked.bind_eq_ok.mp h
  have hw := ((silent_remark t _).shaped ht).setUpper hw
  exact (enforce_revalues hw.state h).shaped hw

/-! ## §4.  The inverse -/

/-- Another inverse in shape, which has the size of the basis or that of the one before. -/
theorem Shaped.reinvert (ht : t.Shaped solved σ) {inverse : BasisInverse α} (hf : inverse.Shaped)
    (hsize : inverse.size = t.rowCount ∨ inverse.size = t.inverse.size) :
    { t with inverse }.Shaped solved σ := by
  refine ⟨ht.settings, ht.state, hf, ht.multipliers, ht.costs, ht.plan, ht.split, ht.row,
    fun hs hb => ?_⟩
  rcases hsize with h | h
  · exact h
  · exact h.trans (ht.size hs hb)

/-- **Starting the inverse over.**  Success gives it the size of the basis, also where it had
    another. -/
theorem refactor_reinverts {r : Except Failure Unit} (h : t.refactor = .ok (r, u)) :
    ((∃ cause, r = .error cause) ∧ Silent t u)
      ∨ (r = .ok () ∧ ∃ inverse, inverse.Shaped ∧ inverse.size = t.split.basic.length
          ∧ Silent { t with inverse } u) := by
  obtain ⟨inverse, hu, ⟨rfl, cause, rfl⟩ | ⟨rfl, columns, hc, hf⟩⟩ := refactor_spec h
  · exact .inl ⟨⟨cause, rfl⟩, hu⟩
  · have hshape := BasisInverse.shaped_of_refresh hf
    rw [Checked.length_of_mapM hc] at hshape
    exact .inr ⟨rfl, inverse, hshape.1, hshape.2, hu⟩

theorem Shaped.refactor (ht : t.Shaped solved σ) {r : Except Failure Unit}
    (h : t.refactor = .ok (r, u)) :
    u.Shaped solved σ ∧ (r = .ok () → u.inverse.size = u.rowCount) := by
  rcases refactor_reinverts h with ⟨⟨cause, rfl⟩, hu⟩ | ⟨-, inverse, hf, hsize, hu⟩
  · exact ⟨hu.shaped ht, fun h => by cases h⟩
  · have hsize := hsize.trans ht.state.rows
    refine ⟨hu.shaped (ht.reinvert hf (.inl hsize)), fun _ => ?_⟩
    obtain ⟨_, _, rfl⟩ := hu
    exact hsize

theorem refactorIfDue_reinverts (h : t.refactorIfDue = .ok u) :
    Silent t u ∨ ∃ inverse, inverse.Shaped ∧ inverse.size = t.split.basic.length
      ∧ Silent { t with inverse } u := by
  unfold refactorIfDue at h
  split at h
  · obtain ⟨⟨r, w⟩, hr, h⟩ := Checked.bind_eq_ok.mp h
    rcases refactor_reinverts hr with ⟨⟨cause, rfl⟩, hw⟩ | ⟨rfl, inverse, hf, hsize, hw⟩
    · cases h
      exact .inl (hw.trans (silent_remark _ _))
    · cases h
      exact .inr ⟨inverse, hf, hsize, hw⟩
  · cases h
    exact .inl (Silent.refl t)

theorem Shaped.refactorIfDue (ht : t.Shaped solved σ) (h : t.refactorIfDue = .ok u) :
    u.Shaped solved σ := by
  rcases refactorIfDue_reinverts h with hu | ⟨inverse, hf, hsize, hu⟩
  · exact hu.shaped ht
  · exact hu.shaped (ht.reinvert hf (.inl (hsize.trans ht.state.rows)))

end Tableau

end BoundedSimplex
