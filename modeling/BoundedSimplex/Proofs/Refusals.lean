/-
  BoundedSimplex.Proofs.Refusals — requests that are turned down.

  A request is turned down for the variables it names, or for a basis that cannot be inverted.  The
  first kind is looked at before anything is touched.  The second kind shows in the course of a
  fresh start, which adds a line to the log and touches nothing else; what a larger request did
  before that stays.

  Main results:
    * `restore_error_iff` — a return that fails;
    * `start_error_iff`, `startFrom_error` — a start that fails, and what it has done by then;
    * `unchanged_of_failed` — every request that is turned down for the variables it names.
-/
import BoundedSimplex.Proofs.FailedMerge

namespace BoundedSimplex

/-! ## §1.  Marked variables -/

/-- Dropping repetitions leaves none. -/
theorem nodup_eraseDups (vs : List Nat) : vs.eraseDups.Nodup := by
  cases vs with
  | nil => exact .nil
  | cons v vs =>
    rw [List.eraseDups_cons]
    refine List.nodup_cons.mpr ⟨fun hmem => ?_, nodup_eraseDups _⟩
    simpa using List.mem_eraseDups.mp hmem
termination_by vs.length
decreasing_by
  have hle := List.length_filter_le (fun w => !w == v) vs
  rw [List.length_cons]
  omega

/-- A set has as many members as a list of them has different entries. -/
theorem IndexSet.size_eq_countDistinct {s : IndexSet} {vs : List Nat}
    (h : ∀ v, s.contains v = true ↔ v ∈ vs) : s.size = Tableau.countDistinct vs := by
  have hnodup : s.toList.Nodup := s.increasing.imp fun hlt => by omega
  have hperm : s.toList.Perm vs.eraseDups := by
    rw [List.perm_ext_iff_of_nodup hnodup (nodup_eraseDups vs)]
    intro v
    rw [List.mem_eraseDups, ← h v]
    simp [contains]
  exact hperm.length_eq

variable {α : Type} [Scalar α]

namespace Tableau

variable {t u : Tableau α} {cause : Failure}

/-- Giving a list of variables their rows touches the split only, and marks these variables. -/
theorem assignRows_spec {vs : List Nat} (h : t.assignRows vs = .ok u) :
    ∃ split, u = { t with split }
    ∧ ∀ v, split.isBasic v = true ↔ t.split.isBasic v = true ∨ v ∈ vs := by
  -- Position by position: what is marked are the variables so far.
  have hprefix := Checked.foldlM_zipIdx (P := fun i (w : Tableau α) => ∃ split, w = { t with split }
    ∧ ∀ v, split.isBasic v = true ↔ t.split.isBasic v = true ∨ v ∈ vs.take i)
    (fun i x hx w w' hw hw' => ?_) ⟨t.split, rfl, by simp⟩ h
  · rwa [List.take_length] at hprefix
  · obtain ⟨split, rfl, hmarks⟩ := hw
    obtain ⟨a, ha, hw'⟩ := Checked.bind_eq_ok.mp hw'
    obtain ⟨_, -, ha⟩ := Checked.bind_eq_ok.mp ha
    obtain ⟨split', hs, ha⟩ := Checked.bind_eq_ok.mp ha
    obtain ⟨_, -, hs⟩ := Checked.bind_eq_ok.mp hs
    cases hs
    cases ha
    obtain ⟨_, -, hw'⟩ := Checked.bind_eq_ok.mp hw'
    obtain ⟨split', hs, hw'⟩ := Checked.bind_eq_ok.mp hw'
    obtain ⟨-, rfl⟩ := BasisSplit.assignRow_spec hs
    cases hw'
    refine ⟨_, rfl, fun v => ?_⟩
    have hmarked : (split.basicSet.insert x).contains v = (v == x || split.isBasic v) :=
      IndexSet.contains_insert _ _ _
    unfold BasisSplit.isBasic
    rw [hmarked, Bool.or_eq_true, hmarks v, beq_iff_eq, List.take_add_one, hx]
    simp only [Option.toList_some, List.mem_append, List.mem_singleton]
    tauto

/-! ## §2.  A return -/

/-- **A return that fails** leaves a line in the log. -/
theorem restore_error_iff {s : State α} : t.restore s = .ok (.error cause, u)
    ↔ ∃ c columns, cause = .factorization c ∧ s.basisColumns = .ok columns
      ∧ t.inverse.refresh columns = .error c ∧ u = t.remark (.restoring s.rowCount s.varCount) := by
  rw [restore_eq_refresh]
  constructor
  · intro h
    obtain ⟨columns, hcolumns, h⟩ := Checked.bind_eq_ok.mp h
    split at h
    next c hrefresh =>
      cases h
      exact ⟨c, columns, rfl, hcolumns, hrefresh, rfl⟩
    · obtain ⟨_, -, h⟩ := Checked.bind_eq_ok.mp h
      cases h
  · rintro ⟨c, columns, rfl, hcolumns, hrefresh, rfl⟩
    refine Checked.bind_eq_ok.mpr ⟨columns, hcolumns, ?_⟩
    rw [show (t.remark (.restoring s.rowCount s.varCount)).inverse.refresh columns = .error c
      from hrefresh]
    rfl

/-! ## §3.  A start -/

/-- A tableau on the way to a first or another basis: the variables that are not basic have their
    values, the basic ones are at zero, and their standings are yet to be found. -/
def vacated (t : Tableau α) (split : BasisSplit) (nonBasicValues : List α) : Tableau α :=
  { t with
    split, nonBasicValues
    basicValues := Scalar.zeros t.rowCount
    standings := List.replicate t.rowCount .between }

/-- A start has come to the tableau `w` when it asks for a fresh start of the inverse. -/
def ComesTo (t w : Tableau α) : Prop :=
  t.split.basicSet.size = t.rowCount ∧ ∃ split values, t.split.listNonBasic = .ok split
    ∧ split.isConsistent = true ∧ split.nonBasic.mapM t.bounds.startValue = .ok values
    ∧ w = t.vacated split values

/-- **A start that fails**, for the number of basic variables or for the basis. -/
theorem start_error_iff : t.start = .ok (.error cause, u)
    ↔ (t.split.basicSet.size ≠ t.rowCount ∧ cause = .basisSize t.rowCount t.split.basicSet.size
        ∧ u = t)
      ∨ ∃ w c, t.ComesTo w ∧ w.RejectsBasis c ∧ cause = .factorization c
        ∧ u = w.remark (.refreshFailed c) := by
  unfold start
  dsimp only
  by_cases hsize : t.split.basicSet.size = t.rowCount
  · -- only the refactoring can fail then
    rw [if_neg (not_not.mpr hsize)]
    constructor
    · intro h
      obtain ⟨split, hlist, h⟩ := Checked.bind_eq_ok.mp h
      obtain ⟨_, hcons, h⟩ := Checked.bind_eq_ok.mp h
      obtain ⟨values, hvalues, h⟩ := Checked.bind_eq_ok.mp h
      obtain ⟨⟨r, v⟩, hv, h⟩ := Checked.bind_eq_ok.mp h
      cases r with
      | error cause' =>
        cases h
        obtain ⟨c, hc, hrejects, hu⟩ := refactor_error_iff.mp hv
        exact .inr ⟨_, c, ⟨hsize, split, values, hlist, Checked.require_eq_ok.mp hcons,
          hvalues, rfl⟩, hrejects, hc, hu⟩
      | ok _ =>
        obtain ⟨_, -, h⟩ := Checked.bind_eq_ok.mp h
        obtain ⟨_, -, h⟩ := Checked.bind_eq_ok.mp h
        obtain ⟨_, -, h⟩ := Checked.bind_eq_ok.mp h
        cases h
    · rintro (⟨hne, -⟩ | ⟨w, c, ⟨-, split, values, hlist, hcons, hvalues, rfl⟩, hrejects, rfl, rfl⟩)
      · exact absurd hsize hne
      · refine Checked.bind_eq_ok.mpr ⟨split, hlist, Checked.bind_eq_ok.mpr
          ⟨(), Checked.require_eq_ok.mpr hcons, Checked.bind_eq_ok.mpr ⟨values, hvalues,
            Checked.bind_eq_ok.mpr ⟨_, refactor_error_iff.mpr ⟨c, rfl, hrejects, rfl⟩, rfl⟩⟩⟩⟩
  · rw [if_pos hsize]
    constructor
    · intro h
      cases h
      exact .inl ⟨hsize, rfl, rfl⟩
    · rintro (⟨-, rfl, rfl⟩ | ⟨w, c, ⟨hsize', -⟩, -⟩)
      · rfl
      · exact absurd hsize' hsize

/-- **A start from a list of variables that fails.**  For these variables, at once; for the basis,
    after the one in use was given up. -/
theorem startFrom_error {vs : List Nat} (h : t.startFrom vs = .ok (.error cause, u)) :
    ((∀ c, cause ≠ .factorization c) ∧ u = t)
      ∨ ((∃ c, cause = .factorization c) ∧ u.hasBasis = false) := by
  unfold startFrom at h
  split at h
  · cases h
    exact .inl ⟨by simp, rfl⟩
  by_cases hsize : vs.length ≠ t.rowCount ∨ countDistinct vs ≠ t.rowCount
  · rw [if_pos hsize] at h
    cases h
    exact .inl ⟨by simp, rfl⟩
  rw [if_neg hsize] at h
  obtain ⟨w, hw, h⟩ := Checked.bind_eq_ok.mp h
  obtain ⟨split, rfl, hmarks⟩ := assignRows_spec hw
  obtain ⟨hmarked, -⟩ | ⟨v, c, ⟨-, split', values, -, -, -, rfl⟩, -, rfl, rfl⟩ :=
    start_error_iff.mp h
  · -- there are as many marked variables as different ones on the list
    have hcount : split.basicSet.size = countDistinct vs := by
      refine IndexSet.size_eq_countDistinct fun v => ?_
      have hv := hmarks v
      rw [show (BasisSplit.blank t.rowCount t.varCount).isBasic v = false from rfl] at hv
      exact hv.trans (by simp)
    have hrows : countDistinct vs = t.rowCount := by
      by_contra hne
      exact hsize (.inr hne)
    exact absurd (hcount.trans hrows) hmarked
  · exact .inr ⟨⟨c, rfl⟩, rfl⟩

/-! ## §4.  Everything that can be turned down -/

/-- A failed reply comes from a failed attempt. -/
theorem failed_of_replyAttempt {β : Type} {success : β → Reply α}
    (hsuccess : ∀ b, success b ≠ .failed cause) {r : Attempt α β}
    (h : replyAttempt success r = .ok (.failed cause, u)) : r = .ok (.error cause, u) := by
  obtain ⟨x, hr, ⟨b, -, hb⟩ | ⟨cause', rfl, hfailed⟩⟩ := of_replyAttempt h
  · exact absurd hb.symm (hsuccess b)
  · cases hfailed
    exact hr

/-- An operation that only answers that it is done does not fail. -/
theorem replyDone_ne_failed {r : Checked (Tableau α)} : replyDone r ≠ .ok (.failed cause, u) := by
  intro h
  obtain ⟨_, -, h⟩ := Checked.bind_eq_ok.mp h
  cases h

/-- A new equation is turned down for an unknown variable at once. -/
theorem addEquation_error {e : LinearEquation α} (h : t.addEquation e = .ok (.error cause, u)) :
    u = t ∨ ∃ c, cause = .factorization c := by
  obtain ⟨_, -, h⟩ := Checked.bind_eq_ok.mp h
  split at h
  · cases h
    exact .inl rfl
  · obtain ⟨⟨lower, upper⟩, -, h⟩ := Checked.bind_eq_ok.mp h
    obtain ⟨x, -, h⟩ := Checked.bind_eq_ok.mp h
    obtain ⟨w, -, h⟩ := Checked.bind_eq_ok.mp h
    obtain ⟨⟨r, v⟩, hv, h⟩ := Checked.bind_eq_ok.mp h
    cases r with
    | ok _ => cases h
    | error cause' =>
      cases h
      obtain ⟨c, hc, -⟩ := refactor_error_iff.mp hv
      exact .inr ⟨c, hc⟩

/-- A merge is turned down for an unknown or a basic variable at once. -/
theorem merge_error {source target : Nat} (h : t.merge source target = .ok (.error cause, u)) :
    u = t ∨ ∃ c, cause = .factorization c := by
  obtain ⟨-, -, ⟨_, -, -, hu⟩ | ⟨-, w, v, r, x, -, -, hx, hend⟩⟩ := merge_cases h
  · exact .inl hu
  · rcases hend with ⟨cause', rfl, hcause, -⟩ | ⟨-, hr, -⟩
    · cases hcause
      obtain ⟨c, hc, -⟩ := refactor_error_iff.mp hx
      exact .inr ⟨c, hc⟩
    · cases hr

/-- **Requests that are turned down for the variables they name** change nothing. -/
theorem unchanged_of_failed {op : Operation α} (h : t.perform op = .ok (.failed cause, u))
    (hcause : ∀ c, cause ≠ .factorization c) : u = t := by
  have excluded : ¬∃ c, cause = .factorization c := fun ⟨c, hc⟩ => hcause c hc
  cases op with
  | startFrom vs =>
    obtain ⟨-, hu⟩ | ⟨hc, -⟩ := startFrom_error (failed_of_replyAttempt (fun _ => by simp) h)
    · exact hu
    · exact absurd hc excluded
  | start =>
    obtain ⟨-, -, hu⟩ | ⟨w, c, -, -, hc, -⟩ :=
      start_error_iff.mp (failed_of_replyAttempt (fun _ => by simp) h)
    · exact hu
    · exact absurd hc (hcause c)
  | refactor =>
    obtain ⟨c, hc, -⟩ := refactor_error_iff.mp (failed_of_replyAttempt (fun _ => by simp) h)
    exact absurd hc (hcause c)
  | restore s =>
    obtain ⟨c, _, hc, -⟩ := restore_error_iff.mp (failed_of_replyAttempt (fun _ => by simp) h)
    exact absurd hc (hcause c)
  | addEquation e =>
    exact (addEquation_error (failed_of_replyAttempt (fun _ => by simp) h)).resolve_right excluded
  | merge source target =>
    exact (merge_error (failed_of_replyAttempt (fun _ => by simp) h)).resolve_right excluded
  | checkBounds v =>
    obtain ⟨_, -, h⟩ := Checked.bind_eq_ok.mp h
    cases h
  | checkAllBounds =>
    obtain ⟨_, -, h⟩ := Checked.bind_eq_ok.mp h
    cases h
  | chooseEntering rule =>
    obtain ⟨_, -, h⟩ := Checked.bind_eq_ok.mp h
    cases h
  | save =>
    obtain ⟨_, -, h⟩ := Checked.bind_eq_ok.mp h
    cases h
  -- all other requests only change the tableau
  | _ => exact absurd h replyDone_ne_failed

end Tableau

end BoundedSimplex
