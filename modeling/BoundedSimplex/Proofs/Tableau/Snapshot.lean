/-
  BoundedSimplex.Proofs.Tableau.Snapshot — returning to a saved state.

  A snapshot of a sound tableau has standings that fit its values, so all that a return needs is the
  inverse of its basis, which is computed afresh.

  Main results:
    * `save_spec` — a snapshot is the state;
    * `restore_spec` — a return leads to that state, or changes nothing.
-/
import BoundedSimplex.Proofs.Tableau.Values
import BoundedSimplex.Tableau.Snapshot

namespace BoundedSimplex.Tableau

open Extended

theorem save_spec {α : Type} [Scalar α] {t u : Tableau α} {s : State α} (h : t.save = .ok (s, u)) :
    s = t.toState ∧ Silent t u := by
  obtain ⟨_, -, h⟩ := Checked.bind_eq_ok.mp h
  cases h
  exact ⟨rfl, silent_remark _ _⟩

theorem hasBasis_of_save {α : Type} [Scalar α] {t u : Tableau α} {s : State α}
    (h : t.save = .ok (s, u)) : t.hasBasis = true := by
  obtain ⟨_, hb, -⟩ := Checked.bind_eq_ok.mp h
  exact Checked.require_eq_ok.mp hb

/-- A return through what its fresh start finds. -/
theorem restore_eq_refresh {α : Type} [Scalar α] (t : Tableau α) (s : State α) :
    t.restore s = (do
      let t := t.remark (.restoring s.rowCount s.varCount)
      match t.inverse.refresh (← s.basisColumns) with
      | .error cause => return (.error (.factorization cause), t)
      | .ok inverse =>
        let t :=
          { t with
            toState := s
            inverse
            pricing := t.pricing.invalidate
            multipliers := Scalar.zeros s.rowCount
            plan := .none
            hasBasis := true }.tellSize
        t.requireConsistent
        return (.ok (), t)) := by
  unfold Tableau.restore
  refine congrArg (s.basisColumns >>= ·) (funext fun columns => ?_)
  rw [BasisInverse.startOver_eq]
  cases (t.remark (.restoring s.rowCount s.varCount)).inverse.refresh columns with
  | error cause => rfl
  | ok inverse => rfl

variable {K : Type} [Field K] [LinearOrder K] {t u : Tableau (Extended K)}

/-- **A return to a saved state.** -/
theorem restore_spec [IsStrictOrderedRing K] {s : State (Extended K)} (hs : s.WellFormed)
    (hst : s.standings = freshStandings s t.settings.boundTolerance) {r : Except Failure Unit}
    (h : t.restore s = .ok (r, u)) :
    (∃ cause, r = .error cause) ∧ Silent t u
      ∨ r = .ok () ∧ u.Sound ∧ u.toState = s ∧ u.settings = t.settings := by
  rw [restore_eq_refresh] at h
  obtain ⟨columns, hc, h⟩ := Checked.bind_eq_ok.mp h
  split at h
  · next cause _ =>
    cases h
    exact .inl ⟨⟨_, rfl⟩, silent_remark _ _⟩
  · next inverse hr =>
    obtain ⟨_, -, h⟩ := Checked.bind_eq_ok.mp h
    cases h
    obtain ⟨hu, hrep⟩ := represents_of_refresh hs hc hr
    exact .inr ⟨rfl, ⟨⟨hs, hu, hrep⟩, hst, rfl⟩, rfl, rfl⟩

end BoundedSimplex.Tableau
