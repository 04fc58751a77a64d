/-
  BoundedSimplex.Proofs.FailedStart — what a start that fails is taken for.

  A start puts the basic variables to zero and all of them between their bounds before it asks for a
  fresh start of the inverse.  Starting from a list of variables gives up the basis in use before
  that, so after a failure there is none.  Completing a setup does not: a tableau that had a basis
  has one afterwards, with zeros for values that count as computed and no standing out of bounds,
  and a search calls it feasible.

  Main results:
    * `start_of_rejectsBasis` — completing the setup of a tableau with a basis that is rejected;
    * `failed_start_passes_for_feasible` — all that a start that fails can leave behind.
-/
import BoundedSimplex.PhaseOne
import BoundedSimplex.Proofs.Refusals

namespace BoundedSimplex.Tableau

variable {α : Type} [Scalar α] {t u w : Tableau α}

/-- The tableau claims to have a basis and to be within its bounds: a search ends at once. -/
structure PassesForFeasible (t : Tableau α) : Prop where
  hasBasis : t.hasBasis = true
  within : t.existsOutOfBounds = false
  search : ∀ withRow limit rule, t.search withRow (limit + 1) rule = .ok ⟨.feasible, [], rule, t⟩

/-- A search that finds no recorded violation ends before its first pivot. -/
theorem passesForFeasible (hbasis : t.hasBasis = true) (hwithin : t.existsOutOfBounds = false) :
    t.PassesForFeasible := by
  refine ⟨hbasis, hwithin, fun withRow limit rule => ?_⟩
  rw [search, if_neg (by rw [hwithin]; decide)]
  rfl

/-- No row of a tableau on its way to a basis is recorded as violating a bound. -/
theorem ComesTo.within (h : t.ComesTo w) : w.existsOutOfBounds = false := by
  obtain ⟨-, split, values, -, -, -, rfl⟩ := h
  refine List.any_eq_false.mpr fun standing hs => ?_
  obtain rfl : standing = .between := List.eq_of_mem_replicate hs
  decide

/-- The steps before the refresh do not touch the mark that a basis is set. -/
theorem ComesTo.hasBasis (h : t.ComesTo w) : w.hasBasis = t.hasBasis := by
  obtain ⟨-, split, values, -, -, -, rfl⟩ := h
  rfl

/-- **Completing the setup of a tableau that has a basis**, which is rejected: the
    basis is not given up. -/
theorem start_of_rejectsBasis (hbasis : t.hasBasis = true) (hw : t.ComesTo w)
    {c : FactorizationFailure} (hc : w.RejectsBasis c) :
    t.start = .ok (.error (.factorization c), w.remark (.refreshFailed c))
      ∧ (w.remark (.refreshFailed c)).PassesForFeasible :=
  ⟨start_error_iff.mpr (.inr ⟨w, c, hw, hc, rfl, rfl⟩),
    passesForFeasible (hw.hasBasis.trans hbasis) hw.within⟩

/-- **A start that fails** leaves the tableau as it was or without a basis, unless the setup
    of a tableau with a basis is completed once more.  Then zeros replace the values, and
    pass for feasible. -/
theorem failed_start_passes_for_feasible (t : Tableau α) :
    (∀ vs cause u, t.startFrom vs = .ok (.error cause, u) → u = t ∨ u.hasBasis = false)
      ∧ (∀ cause u, t.start = .ok (.error cause, u) → u = t ∨ u.hasBasis = false
        ∨ t.hasBasis = true ∧ ∃ w c, t.ComesTo w ∧ w.RejectsBasis c ∧ cause = .factorization c
          ∧ u = w.remark (.refreshFailed c))
      ∧ ∀ w c, t.hasBasis = true → t.ComesTo w → w.RejectsBasis c →
        t.start = .ok (.error (.factorization c), w.remark (.refreshFailed c))
          ∧ (w.remark (.refreshFailed c)).PassesForFeasible := by
  refine ⟨fun vs cause u h => ?_, fun cause u h => ?_, fun w c hbasis hw hc =>
    start_of_rejectsBasis hbasis hw hc⟩
  · obtain ⟨-, hu⟩ | ⟨-, hu⟩ := startFrom_error h
    · exact .inl hu
    · exact .inr hu
  · obtain ⟨-, -, hu⟩ | ⟨w, c, hw, hc, hcause, hu⟩ := start_error_iff.mp h
    · exact .inl hu
    · right
      cases hbasis : t.hasBasis with
      | false => exact .inl (hu ▸ hw.hasBasis.trans hbasis)
      | true => exact .inr ⟨rfl, w, c, hw, hc, hcause, hu⟩

/-- In `x + y = 10` with `y` basic at 10 the coefficient of `y` is taken out and the setup
    completed once more.  That fails and leaves `y` at 0, below its lower bound 1, in a tableau
    that a search calls feasible. -/
theorem zeros_pass_for_feasible : ∃ t u : Tableau Float,
    t.hasBasis = true ∧ t.storedValue 1 = .ok 10 ∧ t.existsOutOfBounds = true
      ∧ t.start = .ok (.error (.factorization (.singularBasis 0)), u)
      ∧ u.hasBasis = true ∧ u.storedValue 1 = .ok 0 ∧ u.bounds.lower 1 = .ok 1 ∧ u.settled = true
      ∧ u.search false 1 .first = .ok ⟨.feasible, [], .first, u⟩ := by
  -- The run is evaluated once; the rest is the general theorem at its last state.
  have hrun : (do
      let t ← (create (α := Float) {}).run [.setSize 1 2, .setCoefficients [1, 1],
        .setRightHandSide [10], .setLower 0 0, .setUpper 0 10, .setLower 1 1, .setUpper 1 5,
        .startFrom [1], .setCoefficient 0 1 0]
      let (r, u) ← t.start
      let x ← t.storedValue 1
      let y ← u.storedValue 1
      let l ← u.bounds.lower 1
      Checked.require (t.hasBasis = true ∧ x = 10 ∧ t.existsOutOfBounds = true
        ∧ r = Except.error (Failure.factorization (.singularBasis 0)) ∧ u.hasBasis = true
        ∧ y = 0 ∧ l = 1
        ∧ u.settled = true) .inconsistent) = .ok () := by
    decide +kernel
  obtain ⟨t, -, hrun⟩ := Checked.bind_eq_ok.mp hrun
  obtain ⟨⟨_, u⟩, hu, hrun⟩ := Checked.bind_eq_ok.mp hrun
  obtain ⟨x, hx, hrun⟩ := Checked.bind_eq_ok.mp hrun
  obtain ⟨y, hy, hrun⟩ := Checked.bind_eq_ok.mp hrun
  obtain ⟨l, hl, hrun⟩ := Checked.bind_eq_ok.mp hrun
  obtain ⟨hbasis, rfl, hout, rfl, hbasis', rfl, rfl, hsettled⟩ := Checked.require_eq_ok.mp hrun
  obtain ⟨-, hleft, hpasses⟩ := failed_start_passes_for_feasible t
  refine ⟨t, u, hbasis, hx, hout, hu, ?_⟩
  -- The stored value has changed, so it is not the same tableau, and the basis is still set.
  obtain rfl | hgone | ⟨-, w, c, hw, hc, -, rfl⟩ := hleft _ _ hu
  · rw [hx] at hy
    exact absurd (Except.ok.inj hy) (by decide +kernel)
  · rw [hbasis'] at hgone
    cases hgone
  · obtain ⟨-, hfeasible⟩ := hpasses w c hbasis hw hc
    exact ⟨hfeasible.hasBasis, hy, hl, hsettled, hfeasible.search false 0 .first⟩

end BoundedSimplex.Tableau
