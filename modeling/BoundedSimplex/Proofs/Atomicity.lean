/-
  BoundedSimplex.Proofs.Atomicity — what fails has changed nothing.

  A fresh start that is asked for can fail, and so can one that a pivot ends with because the
  inverse is due.  The pivot is over by then and is not taken back: it goes on with the inverse
  that followed it, as it would with a threshold that it has not reached yet.  So thresholds can
  be exchanged, and whether the inverse could not or need not be started over makes no
  difference beyond the log.

  Main results:
    * `alike_of_withThreshold` — a pivot up to the fresh start does not see the threshold;
    * `performPivot_of_failed_refresh`, `performDegenerate_of_failed_refresh` — a fresh start that
      fails at the end of a pivot;
    * `failures_change_nothing` — all failures together.
-/
import BoundedSimplex.Proofs.Basis.Failures
import BoundedSimplex.Proofs.Continuation
import BoundedSimplex.Proofs.Parallel
import BoundedSimplex.Proofs.Refusals

namespace BoundedSimplex

variable {α : Type} [Scalar α]

/-- Computations that agree have their outcomes together. -/
theorem Agree.exists_of_ok {ε β γ : Type} {R : β → γ → Prop} {x : Except ε β} {y : Except ε γ}
    (h : Agree R x y) {b : β} (hx : x = .ok b) : ∃ c, y = .ok c ∧ R b c := by
  subst hx
  cases h with
  | ok related => exact ⟨_, rfl, related⟩

/-! ## §1.  Thresholds -/

namespace BasisInverse

/-- The same representation, to be started over after another number of exchanges. -/
def withThreshold (f : BasisInverse α) (k : Nat) : BasisInverse α :=
  match f with
  | product f => product { f with threshold := k }
  | explicit f => explicit { f with threshold := k }

variable {f : BasisInverse α} (k : Nat)

omit [Scalar α] in
/-- The threshold is what it was set to. -/
@[simp] theorem threshold_withThreshold : (f.withThreshold k).threshold = k := by
  cases f <;> rfl

omit [Scalar α] in
@[simp] theorem size_withThreshold : (f.withThreshold k).size = f.size := by
  cases f <;> rfl

omit [Scalar α] in
@[simp] theorem exchanges_withThreshold : (f.withThreshold k).exchanges = f.exchanges := by
  cases f <;> rfl

@[simp] theorem solveColumn_withThreshold (y : List α) :
    (f.withThreshold k).solveColumn y = f.solveColumn y := by
  cases f <;> rfl

@[simp] theorem solveRow_withThreshold (y : List α) :
    (f.withThreshold k).solveRow y = f.solveRow y := by
  cases f <;> rfl

/-- Exchanges are followed alike. -/
theorem update_withThreshold (i : Nat) (column : List α) :
    Agree (fun g g' => g' = g.withThreshold k) (f.update i column)
      ((f.withThreshold k).update i column) := by
  cases f with
  | product f =>
    have hupdate : Agree (fun g g' : ProductForm α => g' = { g with threshold := k })
        (f.update i column) (ProductForm.update { f with threshold := k } i column) :=
      .step (EtaColumn.ofColumn i column) fun _ _ => .ok rfl
    exact .step (Checked.require (i < f.size) (.outOfRange i f.size)) fun _ _ =>
      .step (Checked.require (column.length = f.size) (.sizeMismatch column.length f.size))
        fun _ _ =>
        hupdate.bind fun g g' _ _ hg => .ok (congrArg product hg)
  | explicit f =>
    have hupdate : Agree (fun g g' : ExplicitInverse α => g' = { g with threshold := k })
        (f.update i column) (ExplicitInverse.update { f with threshold := k } i column) :=
      .step (Checked.getAt column i) fun c _ => .step (Checked.require (¬(c == 0)) .zeroPivot)
        fun _ _ => .step (ExplicitInverse.reduce? f.rows i c column) fun _ _ => .ok rfl
    exact .step (Checked.require (i < f.size) (.outOfRange i f.size)) fun _ _ =>
      .step (Checked.require (column.length = f.size) (.sizeMismatch column.length f.size))
        fun _ _ =>
        hupdate.bind fun g g' _ _ hg => .ok (congrArg explicit hg)

/-- Both start over, or neither does. -/
theorem refresh_withThreshold (columns : List (List α)) :
    Agree (fun g g' => g' = g.withThreshold k) (f.refresh columns)
      ((f.withThreshold k).refresh columns) := by
  cases f with
  | product f =>
    unfold withThreshold refresh ProductForm.refresh
    cases TriangularFactors.ofColumns columns with
    | error cause => exact .error cause
    | ok factors => exact .ok rfl
  | explicit f =>
    unfold withThreshold refresh ExplicitInverse.refresh
    cases TriangularFactors.ofColumns columns with
    | error cause => exact .error cause
    | ok factors => exact .ok rfl

end BasisInverse

/-- Representations with different thresholds answer alike. -/
def Likeness.rethreshold (k : Nat) (first second : Journal α) : Likeness α where
  numbers := .all α
  follows := fun _ => True
  inverse := fun f g => g = f.withThreshold k
  statistics := Eq
  first
  second
  size := fun h => by rw [h, BasisInverse.size_withThreshold]
  solveColumn := fun h _ => by rw [h, BasisInverse.solveColumn_withThreshold]
  solveRow := fun h _ => by rw [h, BasisInverse.solveRow_withThreshold]
  update := fun h _ _ _ => by rw [h]; exact BasisInverse.update_withThreshold k _ _
  refresh := fun h _ => by rw [h]; exact BasisInverse.refresh_withThreshold k _
  count := fun _ h => by rw [h]
  restart := rfl

namespace Tableau

variable {t u w : Tableau α} {c : FactorizationFailure} {k : Nat}

/-- The same tableau, whose inverse is to be started over after another number of exchanges. -/
def withThreshold (t : Tableau α) (k : Nat) : Tableau α :=
  { t with inverse := t.inverse.withThreshold k }

/-- The same state, inverse, costs and selections, and the same notices; only the threshold is
    another one, and the logs may differ. -/
structure SameButThreshold (k : Nat) (t u : Tableau α) : Prop where
  same : u = { t with inverse := t.inverse.withThreshold k, journal := u.journal }
  notices : u.journal.notices = t.journal.notices
  exchanges : u.journal.exchanges = t.journal.exchanges

/-- Another threshold makes a tableau that agrees with this one but for the threshold. -/
theorem alike_of_withThreshold (t : Tableau α) (k : Nat) :
    Alike (.rethreshold k t.journal t.journal) t (t.withThreshold k) :=
  ⟨rfl, rfl, rfl, .refl _ _⟩

/-! ## §2.  A fresh start that fails at the end of a pivot -/

/-- The end of a pivot, if the inverse is due and the basis is rejected. -/
theorem finish_of_rejectsBasis (hdue : w.inverse.isDue = true) (hc : w.RejectsBasis c) :
    w.finish
      = .ok ((w.clearPlan.remark (.refreshFailed c)).remark
          (.exchangedKept (.factorization c))) := by
  have hrefactor : w.clearPlan.refactor
      = .ok (.error (.factorization c), w.clearPlan.remark (.refreshFailed c)) :=
    refactor_error_iff.mpr ⟨c, rfl, hc, rfl⟩
  unfold finish refactorIfDue
  rw [if_pos (show w.clearPlan.inverse.isDue = true from hdue), hrefactor]
  rfl

/-- **The end of a pivot whose fresh start fails** is that of a pivot that does not try. -/
theorem finish_alike {w' : Tableau α} {j : Journal α} (h : Alike (.rethreshold k j j) w w')
    (hdue : w.inverse.isDue = true) (hc : w.RejectsBasis c) (hk : w.inverse.exchanges < k) :
    ∃ u u', w.finish = .ok u ∧ w'.finish = .ok u' ∧ SameButThreshold k u u' := by
  have hidle : w'.inverse.isDue = false := by
    rw [show w'.inverse = w.inverse.withThreshold k from h.inverse, BasisInverse.isDue,
      BasisInverse.threshold_withThreshold, BasisInverse.exchanges_withThreshold]
    simpa using hk
  refine ⟨_, _, finish_of_rejectsBasis hdue hc, finish_of_not_due hidle, ?_⟩
  obtain ⟨f, journal, statistics, rfl, rfl, rfl, ⟨told, hn, hn'⟩, records, he, he'⟩ := h.cases
  exact ⟨rfl, hn'.trans hn.symm, he'.trans he.symm⟩

/-- **A pivot whose fresh start fails.** -/
theorem performPivot_of_failed_refresh (hw : t.turn = .ok w) (hdue : w.inverse.isDue = true)
    (hc : w.RejectsBasis c) (hk : w.inverse.exchanges < k) :
    ∃ u u', t.performPivot = .ok u ∧ (t.withThreshold k).performPivot = .ok u'
      ∧ SameButThreshold k u u' := by
  have hturn := (alike_of_withThreshold t k).turn (fun _ _ => trivial) fun _ _ => trivial
  obtain ⟨w', hw', halike⟩ := hturn.exists_of_ok hw
  rw [performPivot_eq, performPivot_eq, hw, hw']
  exact finish_alike halike hdue hc hk

/-- **A degenerate pivot whose fresh start fails.** -/
theorem performDegenerate_of_failed_refresh (hw : t.turnDegenerate = .ok w)
    (hdue : w.inverse.isDue = true) (hc : w.RejectsBasis c) (hk : w.inverse.exchanges < k) :
    ∃ u u', t.performDegenerate = .ok u ∧ (t.withThreshold k).performDegenerate = .ok u'
      ∧ SameButThreshold k u u' := by
  have hturn := (alike_of_withThreshold t k).turnDegenerate (fun _ _ => trivial) fun _ _ => trivial
  obtain ⟨w', hw', halike⟩ := hturn.exists_of_ok hw
  rw [performDegenerate_eq, performDegenerate_eq, hw, hw']
  exact finish_alike halike hdue hc hk

/-! ## §3.  All failures -/

/-- **What fails has changed nothing.**  A representation that cannot start over is in use as
    before, and nothing shows later that it was asked to.  A fresh start and a return that
    fail leave a line in the log, a request that is turned down for other reasons than the
    basis leaves not even that, and a pivot that ends with a fresh start that fails is a pivot
    that does not try. -/
theorem failures_change_nothing (t : Tableau α) :
    (∀ (f : BasisInverse α) columns cause,
      (∀ g, f.startOver columns = .ok (.error cause, g)
        ↔ TriangularFactors.EndsAt columns cause ∧ g = f)
        ∧ (TriangularFactors.EndsAt columns cause → ∀ earlier later,
          (earlier ++ .startOver columns :: later).foldlM BasisInverse.serve f
            = (earlier ++ later).foldlM BasisInverse.serve f))
      ∧ (∀ cause u, t.refactor = .ok (.error cause, u) →
        ∃ c, cause = .factorization c ∧ u = t.remark (.refreshFailed c))
      ∧ (∀ s cause u, t.restore s = .ok (.error cause, u) →
        ∃ c, cause = .factorization c ∧ u = t.remark (.restoring s.rowCount s.varCount))
      ∧ (∀ op cause u, t.perform op = .ok (.failed cause, u) →
          (∀ c, cause ≠ .factorization c) → u = t)
      ∧ (∀ w c k, t.turn = .ok w → w.inverse.isDue = true → w.RejectsBasis c →
          w.inverse.exchanges < k →
        ∃ u u', t.performPivot = .ok u ∧ (t.withThreshold k).performPivot = .ok u'
          ∧ SameButThreshold k u u')
      ∧ ∀ w c k, t.turnDegenerate = .ok w → w.inverse.isDue = true → w.RejectsBasis c →
        w.inverse.exchanges < k →
        ∃ u u', t.performDegenerate = .ok u ∧ (t.withThreshold k).performDegenerate = .ok u'
          ∧ SameButThreshold k u u' := by
  refine ⟨fun f columns cause => ⟨fun g => BasisInverse.startOver_error_iff_endsAt,
    fun hends earlier later => ?_⟩, fun cause u h => ?_,
    fun s cause u h => ?_, fun op cause u h hcause => unchanged_of_failed h hcause,
    fun w c k hw hdue hc hk => performPivot_of_failed_refresh hw hdue hc hk,
    fun w c k hw hdue hc hk => performDegenerate_of_failed_refresh hw hdue hc hk⟩
  · have hfails : (BasisInverse.Demand.startOver columns).fails = true := by
      rw [BasisInverse.Demand.fails, TriangularFactors.ofColumns_error_iff.mpr hends]
      rfl
    rw [BasisInverse.serveAll_erase, BasisInverse.serveAll_erase f (earlier ++ later),
      List.filter_append, List.filter_append, List.filter_cons, hfails]
    rfl
  · obtain ⟨c, hcause, -, hu⟩ := refactor_error_iff.mp h
    exact ⟨c, hcause, hu⟩
  · obtain ⟨c, columns, hcause, -, -, hu⟩ := restore_error_iff.mp h
    exact ⟨c, hcause, hu⟩

/-- In `x / 10 ^ 13 + y = 10` an exchange makes `x` basic, whose column is too small to start over
    from, and one exchange makes the inverse due.  The exchange stands, and neither a fresh start
    nor a return to the state after it nor an unknown variable changes anything afterwards. -/
theorem tiny_pivot_with_due_inverse : ∃ e w u u' : Tableau (Extended ℚ),
    e.turnDegenerate = .ok w ∧ w.inverse.isDue = true ∧ w.RejectsBasis (.singularBasis 0)
      ∧ e.performDegenerate = .ok u ∧ (e.withThreshold 100).performDegenerate = .ok u'
      ∧ SameButThreshold 100 u u'
      ∧ u.refactor = .ok (.error (.factorization (.singularBasis 0)),
          u.remark (.refreshFailed (.singularBasis 0)))
      ∧ u.restore u.toState = .ok (.error (.factorization (.singularBasis 0)),
          u.remark (.restoring 1 2))
      ∧ u.perform (.startFrom [7]) = .ok (.failed (.unknownVariable 7 2), u) := by
  have hrun : (do
      let t ← (create (α := Extended ℚ) { boundTolerance := .fin 0, refreshThreshold := 1 }).run
        [.setSize 1 2, .setCoefficients [.fin (1 / 10 ^ 13), .fin 1], .setRightHandSide [.fin 10],
        .setLower 0 (.fin 0), .setUpper 0 (.fin 10), .setLower 1 (.fin 0), .setUpper 1 (.fin 20)]
      let (r, s) ← t.startFrom [1]
      let a ← s.selectEntering 0
      let c ← a.computeColumn
      let e ← c.selectLeaving 0
      let w ← e.turnDegenerate
      let (q, _) ← w.refactor
      let u ← e.performDegenerate
      let (p, _) ← u.refactor
      let (o, _) ← u.restore u.toState
      let (n, _) ← u.startFrom [7]
      Checked.require (r = Except.ok () ∧ w.inverse.isDue = true ∧ w.inverse.exchanges < 100
        ∧ q = Except.error (Failure.factorization (.singularBasis 0))
        ∧ p = Except.error (Failure.factorization (.singularBasis 0))
        ∧ o = Except.error (Failure.factorization (.singularBasis 0))
        ∧ n = Except.error (Failure.unknownVariable 7 2)
        ∧ u.rowCount = 1 ∧ u.varCount = 2) .inconsistent) = .ok () := by decide +kernel
  obtain ⟨t, -, hrun⟩ := Checked.bind_eq_ok.mp hrun
  obtain ⟨⟨_, s⟩, -, hrun⟩ := Checked.bind_eq_ok.mp hrun
  obtain ⟨a, -, hrun⟩ := Checked.bind_eq_ok.mp hrun
  obtain ⟨c, -, hrun⟩ := Checked.bind_eq_ok.mp hrun
  obtain ⟨e, -, hrun⟩ := Checked.bind_eq_ok.mp hrun
  obtain ⟨w, hw, hrun⟩ := Checked.bind_eq_ok.mp hrun
  obtain ⟨⟨_, w'⟩, hw', hrun⟩ := Checked.bind_eq_ok.mp hrun
  obtain ⟨u, hu, hrun⟩ := Checked.bind_eq_ok.mp hrun
  obtain ⟨⟨_, v⟩, hv, hrun⟩ := Checked.bind_eq_ok.mp hrun
  obtain ⟨⟨_, x⟩, hx, hrun⟩ := Checked.bind_eq_ok.mp hrun
  obtain ⟨⟨_, y⟩, hy, hrun⟩ := Checked.bind_eq_ok.mp hrun
  obtain ⟨rfl, hdue, hexchanges, rfl, rfl, rfl, rfl, hrows, hvars⟩ := Checked.require_eq_ok.mp hrun
  obtain ⟨_, hc, hrejects, -⟩ := refactor_error_iff.mp hw'
  obtain rfl := Failure.factorization.inj hc
  obtain ⟨-, -, -, -, -, hdegenerate⟩ := failures_change_nothing e
  obtain ⟨u₁, u', hu₁, hu', hsame⟩ := hdegenerate w _ 100 hw hdue hrejects hexchanges
  obtain rfl := Except.ok.inj (hu.symm.trans hu₁)
  obtain ⟨-, hrefactor, hrestore, hrequest, -⟩ := failures_change_nothing u
  have hstart : u.perform (.startFrom [7]) = .ok (.failed (.unknownVariable 7 2), y) := by
    rw [perform, hy]
    rfl
  obtain ⟨_, hc, rfl⟩ := hrefactor _ _ hv
  obtain rfl := Failure.factorization.inj hc
  obtain ⟨_, -, rfl⟩ := hrestore _ _ _ hx
  obtain rfl := hrequest _ _ _ hstart (by simp)
  rw [hrows, hvars] at hx
  exact ⟨e, w, _, u', hw, hdue, hrejects, hu, hu', hsame, hv, hx, hstart⟩

end Tableau

end BoundedSimplex
