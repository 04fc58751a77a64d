/-
  BoundedSimplex.Proofs.Tableau.Sound — what holds of a tableau with a basis at all times.

  Telling watchers, counting and logging change nothing that is computed with.  Of the rest, the
  numbers are finite and fit together, the recorded standings are those of the values, and the
  representation of the basis inverse stands for the inverse of the basis.

  The last of these may be lost: a representation that leaves out small entries of a change column
  stands for some other matrix from then on.  The tableau is steady all the same, and what does not
  depend on the equations can be told of steady tableaux.

  Main results:
    * `Solvable.solveColumn_eq`, `Solvable.solveRow_eq` — the answers of the representation;
    * `Solvable.isColumn` — a change column is the column of its variable in the basis;
    * `Steady.refactor`, `Steady.refactorIfDue` — starting over keeps a tableau steady and sound.
-/
import BoundedSimplex.Proofs.Assignment
import BoundedSimplex.Tableau.Refactor

namespace BoundedSimplex.Tableau

open Extended Matrix

variable {K : Type} [Field K] [LinearOrder K]

/-! ## §1.  What nobody computes with -/

section Silent

variable {α : Type} [Scalar α] {t u w : Tableau α}

/-- The tableaux differ in what was told and counted only. -/
def Silent (t u : Tableau α) : Prop := ∃ j s, u = { t with journal := j, statistics := s }

theorem Silent.trans (h : Silent t u) (h' : Silent u w) : Silent t w := by
  obtain ⟨_, _, rfl⟩ := h
  obtain ⟨j, s, rfl⟩ := h'
  exact ⟨j, s, rfl⟩

theorem Silent.toState (h : Silent t u) : u.toState = t.toState := by
  obtain ⟨_, _, rfl⟩ := h
  rfl

theorem Silent.settings (h : Silent t u) : u.settings = t.settings := by
  obtain ⟨_, _, rfl⟩ := h
  rfl

theorem silent_remark (t : Tableau α) (r : Remark α) : Silent t (t.remark r) := ⟨_, _, rfl⟩

theorem silent_remarkIf (t : Tableau α) (b : Bool) (r : Remark α) : Silent t (t.remarkIf b r) := by
  cases b
  · exact ⟨_, _, rfl⟩
  · exact ⟨_, _, rfl⟩

theorem silent_tellValue (t : Tableau α) (v : Nat) (x : α) : Silent t (t.tellValue v x) :=
  ⟨_, _, rfl⟩

theorem silent_tellLower (t : Tableau α) (v : Nat) (x : α) : Silent t (t.tellLower v x) :=
  ⟨_, _, rfl⟩

theorem silent_tellUpper (t : Tableau α) (v : Nat) (x : α) : Silent t (t.tellUpper v x) :=
  ⟨_, _, rfl⟩

theorem silent_tellSize (t : Tableau α) : Silent t t.tellSize := ⟨_, _, rfl⟩

theorem silent_count (t : Tableau α) (c : Counter) : Silent t (t.count c) := ⟨_, _, rfl⟩

theorem silent_tellValues (t : Tableau α) (ps : List (Nat × α)) : Silent t (t.tellValues ps) := by
  induction ps generalizing t with
  | nil => exact ⟨_, _, rfl⟩
  | cons p ps ih => exact (silent_tellValue t p.1 p.2).trans (ih _)

end Silent

/-! ## §2.  Soundness -/

/-- The numbers fit together, and the representation stands for the inverse of the basis. -/
structure Solvable (t : Tableau (Extended K)) : Prop where
  state : t.toState.WellFormed
  unit : IsUnit t.toState.basis
  inverse : t.inverse.Represents t.toState.basis⁻¹

/-- The invariant of a tableau with a basis. -/
structure Sound (t : Tableau (Extended K)) : Prop extends Solvable t where
  standings : t.standings
    = (List.range t.rowCount).map (t.toState.standing t.settings.boundTolerance)
  hasBasis : t.hasBasis = true

/-- The numbers fit together, and the representation stands for some matrix. -/
structure Answering (t : Tableau (Extended K)) : Prop where
  state : t.toState.WellFormed
  answers : ∃ W : Matrix (Fin t.rowCount) (Fin t.rowCount) K, t.inverse.Represents W

/-- The invariant of a tableau with a basis, whatever matrix its representation stands for. -/
structure Steady (t : Tableau (Extended K)) : Prop extends Answering t where
  standings : t.standings
    = (List.range t.rowCount).map (t.toState.standing t.settings.boundTolerance)
  hasBasis : t.hasBasis = true

variable {t u : Tableau (Extended K)}

theorem Solvable.answering (h : t.Solvable) : t.Answering := ⟨h.state, _, h.inverse⟩

theorem Sound.steady (h : t.Sound) : t.Steady := ⟨h.answering, h.standings, h.hasBasis⟩

theorem Steady.sound (h : t.Steady) (hs : t.Solvable) : t.Sound := ⟨hs, h.standings, h.hasBasis⟩

theorem Silent.answering (h : Silent t u) (ht : t.Answering) : u.Answering := by
  obtain ⟨_, _, rfl⟩ := h
  exact ⟨ht.state, ht.answers⟩

theorem Silent.steady (h : Silent t u) (ht : t.Steady) : u.Steady := by
  obtain ⟨_, _, rfl⟩ := h
  exact ⟨⟨ht.state, ht.answers⟩, ht.standings, ht.hasBasis⟩

theorem Silent.solvable (h : Silent t u) (ht : t.Solvable) : u.Solvable := by
  obtain ⟨_, _, rfl⟩ := h
  exact ⟨ht.state, ht.unit, ht.inverse⟩

theorem Silent.sound (h : Silent t u) (ht : t.Sound) : u.Sound := by
  obtain ⟨_, _, rfl⟩ := h
  exact ⟨⟨ht.state, ht.unit, ht.inverse⟩, ht.standings, ht.hasBasis⟩

namespace Solvable

theorem det (h : t.Solvable) : IsUnit t.toState.basis.det := (isUnit_iff_isUnit_det _).mp h.unit

/-- **Solving `B x = y`** has an outcome for every right-hand side, which is the only solution. -/
theorem solveColumn_eq (h : t.Solvable) (y : Fin t.rowCount → K) :
    ∃ x, t.inverse.solveColumn (embed y) = .ok (embed x) ∧ ∀ z, t.toState.basis *ᵥ z = y
      ↔ z = x := by
  refine ⟨_, h.inverse.column y, fun z => ⟨?_, ?_⟩⟩
  · rintro rfl
    rw [mulVec_mulVec, nonsing_inv_mul _ h.det, one_mulVec]
  · rintro rfl
    rw [mulVec_mulVec, mul_nonsing_inv _ h.det, one_mulVec]

/-- **Solving `x B = y`** has an outcome for every right-hand side, which is the only solution. -/
theorem solveRow_eq (h : t.Solvable) (y : Fin t.rowCount → K) :
    ∃ x, t.inverse.solveRow (embed y) = .ok (embed x) ∧ ∀ z, z ᵥ* t.toState.basis = y ↔ z = x := by
  refine ⟨_, h.inverse.row y, fun z => ⟨?_, ?_⟩⟩
  · rintro rfl
    rw [vecMul_vecMul, mul_nonsing_inv _ h.det, vecMul_one]
  · rintro rfl
    rw [vecMul_vecMul, nonsing_inv_mul _ h.det, vecMul_one]

/-- Solving with the basis, in terms of lists. -/
theorem solveColumn_spec (h : t.Solvable) {ys : List (Extended K)} (hy : Numbers t.rowCount ys) :
    ∃ xs, t.inverse.solveColumn ys = .ok xs ∧ Numbers t.rowCount xs ∧ ∀ i < t.rowCount,
      ∑ k ∈ Finset.range t.rowCount, t.matrix.coeff i (t.split.basicVar k) * coord xs k
        = coord ys i := by
  rw [hy.eq_embed]
  obtain ⟨x, hx, hs⟩ := h.solveColumn_eq fun i => coord ys i
  refine ⟨embed x, hx, numbers_embed x, fun i hi => ?_⟩
  rw [coord_embed (fun i : Fin t.rowCount => coord ys i) ⟨i, hi⟩, Finset.sum_range]
  have := congrFun ((hs x).mpr rfl) ⟨i, hi⟩
  rw [← this]
  refine Finset.sum_congr rfl fun k _ => ?_
  rw [coord_embed]
  rfl

/-- A computed column is the column of its variable in the basis. -/
theorem isColumn (h : t.Solvable) {v : Nat} {col column : List (Extended K)}
    (hcol : t.matrix.column v = .ok col) (hs : t.inverse.solveColumn col = .ok column) :
    v < t.varCount ∧ t.toState.IsColumn column v := by
  have hv : v < t.varCount := SystemMatrix.lt_of_column hcol
  obtain ⟨col', hcol', hn, hc⟩ := h.state.matrix.column_eq hv
  rw [hcol] at hcol'
  cases hcol'
  obtain ⟨xs, hxs, hx, hsum⟩ := h.solveColumn_spec (show Numbers t.rowCount col from hn)
  rw [hs] at hxs
  cases hxs
  exact ⟨hv, hx, fun i hi => (hsum i hi).trans (hc i)⟩

end Solvable

/-- A computed column consists of numbers, whatever the representation stands for. -/
theorem Answering.numbers_of_column (h : t.Answering) {v : Nat} {col column : List (Extended K)}
    (hcol : t.matrix.column v = .ok col) (hs : t.inverse.solveColumn col = .ok column) :
    v < t.varCount ∧ Numbers t.rowCount column := by
  obtain ⟨W, hW⟩ := h.answers
  have hv : v < t.varCount := SystemMatrix.lt_of_column hcol
  obtain ⟨col', hcol', hn, -⟩ := h.state.matrix.column_eq hv
  obtain rfl : col' = col := Except.ok.inj (hcol'.symm.trans hcol)
  rw [(show Numbers t.rowCount col' from hn).eq_embed, hW.column] at hs
  cases hs
  exact ⟨hv, numbers_embed _⟩

/-! ## §3.  Starting over -/

/-- A fresh start through what it finds. -/
theorem refactor_eq_refresh {α : Type} [Scalar α] (t : Tableau α) :
    t.refactor = (do
      match t.inverse.refresh (← t.basisColumns) with
      | .ok inverse =>
        let t := { t with inverse }.remark (.refreshed t.rowCount t.inverse.exchanges)
        return (.ok (), t.count .refactorizations)
      | .error cause =>
        return (.error (.factorization cause), t.remark (.refreshFailed cause))) := by
  unfold Tableau.refactor
  refine congrArg (t.basisColumns >>= ·) (funext fun columns => ?_)
  rw [BasisInverse.startOver_eq]
  cases t.inverse.refresh columns with
  | error cause => rfl
  | ok inverse => rfl

/-- What a fresh start does to a tableau, whether it succeeds or not. -/
theorem refactor_spec {α : Type} [Scalar α] {t u : Tableau α} {r : Except Failure Unit}
    (h : t.refactor = .ok (r, u)) :
    ∃ inverse, Silent { t with inverse } u
      ∧ (inverse = t.inverse ∧ (∃ cause, r = .error cause)
        ∨ r = .ok () ∧ ∃ columns, t.basisColumns = .ok columns
          ∧ t.inverse.refresh columns = .ok inverse) := by
  rw [refactor_eq_refresh] at h
  obtain ⟨columns, hc, h⟩ := Checked.bind_eq_ok.mp h
  cases hr : t.inverse.refresh columns with
  | error cause =>
    simp only [hr] at h
    cases h
    exact ⟨t.inverse, silent_remark _ _, .inl ⟨rfl, _, rfl⟩⟩
  | ok inverse =>
    simp only [hr] at h
    cases h
    exact ⟨inverse, (silent_remark _ _).trans (silent_count _ _), .inr ⟨rfl, columns, hc, hr⟩⟩

/-- A fresh start is only ever turned down for its columns. -/
theorem failure_of_refactor {α : Type} [Scalar α] {t u : Tableau α} {cause : Failure}
    (h : t.refactor = .ok (.error cause, u)) : ∃ c, cause = .factorization c := by
  rw [refactor_eq_refresh] at h
  obtain ⟨columns, _, h⟩ := Checked.bind_eq_ok.mp h
  split at h
  · cases h
  · cases h
    exact ⟨_, rfl⟩

section Refresh

variable [IsStrictOrderedRing K]

/-- A fresh start that succeeds needs nothing of the old representation. -/
theorem represents_of_refresh {f g : BasisInverse (Extended K)} {s : State (Extended K)}
    (h : s.WellFormed) {columns : List (List (Extended K))} (hc : s.basisColumns = .ok columns)
    (hf : f.refresh columns = .ok g) : IsUnit s.basis ∧ g.Represents s.basis⁻¹ := by
  obtain ⟨columns', hc', hlen, hfin, hbasis⟩ := h.basisColumns_eq
  rw [hc] at hc'
  cases hc'
  rw [← hbasis]
  exact BasisInverse.represents_of_refresh hlen hfin hf

/-- **A successful start** makes a tableau solvable. -/
theorem solvable_of_refactor (hs : t.toState.WellFormed) (h : t.refactor = .ok (.ok (), u)) :
    ∃ inverse, Silent { t with inverse } u ∧ u.Solvable := by
  obtain ⟨inverse, hsil, hcase⟩ := refactor_spec h
  refine ⟨inverse, hsil, hsil.solvable ?_⟩
  rcases hcase with ⟨-, cause, hc⟩ | ⟨-, columns, hc, hr⟩
  · cases hc
  · obtain ⟨hu, hrep⟩ := represents_of_refresh hs hc hr
    exact ⟨hs, hu, hrep⟩

/-- **Starting over keeps a tableau steady**, and sound if it was, even if it fails. -/
theorem Steady.refactor (ht : t.Steady) {r : Except Failure Unit} (h : t.refactor = .ok (r, u)) :
    ∃ inverse, Silent { t with inverse } u ∧ u.Steady ∧ (t.Solvable → u.Solvable) := by
  obtain ⟨inverse, hs, hcase⟩ := refactor_spec h
  refine ⟨inverse, hs, hs.steady ?_, fun hsolv => hs.solvable ?_⟩
  · rcases hcase with ⟨rfl, -⟩ | ⟨-, columns, hc, hr⟩
    · exact ht
    · obtain ⟨-, hrep⟩ := represents_of_refresh ht.state hc hr
      exact ⟨⟨ht.state, _, hrep⟩, ht.standings, ht.hasBasis⟩
  · rcases hcase with ⟨rfl, -⟩ | ⟨-, columns, hc, hr⟩
    · exact hsolv
    · obtain ⟨hu, hrep⟩ := represents_of_refresh ht.state hc hr
      exact ⟨ht.state, hu, hrep⟩

theorem Sound.refactor (ht : t.Sound) {r : Except Failure Unit} (h : t.refactor = .ok (r, u)) :
    ∃ inverse, Silent { t with inverse } u ∧ u.Sound := by
  obtain ⟨inverse, hs, hu, hsolv⟩ := ht.steady.refactor h
  exact ⟨inverse, hs, hu.sound (hsolv ht.toSolvable)⟩

theorem Steady.refactorIfDue (ht : t.Steady) (h : t.refactorIfDue = .ok u) :
    ∃ inverse, Silent { t with inverse } u ∧ u.Steady ∧ (t.Solvable → u.Solvable) := by
  unfold Tableau.refactorIfDue at h
  split at h
  · obtain ⟨⟨r, w⟩, hr, h⟩ := Checked.bind_eq_ok.mp h
    obtain ⟨inverse, hs, hw, hsolv⟩ := ht.refactor hr
    cases r with
    | ok _ =>
      cases h
      exact ⟨inverse, hs, hw, hsolv⟩
    | error cause =>
      cases h
      exact ⟨inverse, hs.trans (silent_remark _ _), (silent_remark _ _).steady hw,
        fun ht => (silent_remark _ _).solvable (hsolv ht)⟩
  · cases h
    exact ⟨_, ⟨_, _, rfl⟩, ht, id⟩

end Refresh

end BoundedSimplex.Tableau
