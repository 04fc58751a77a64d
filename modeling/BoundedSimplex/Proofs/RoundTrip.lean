/-
  BoundedSimplex.Proofs.RoundTrip — returning to a snapshot after anything else was done.

  A snapshot is a whole state, so nothing that happens after it was taken can get in the way of a
  return: the inverse is computed from the saved basis, which is turned down or not whatever
  represents the inverse by then, and the settings never change.  The return ends with the check
  that a tableau which claims to satisfy its equations does.  That check looks at the saved state
  only, so a snapshot passes it exactly if the tableau it was taken of would have.  Bounds that were
  set, other than tightened, can leave a tableau that does not.

  Main results:
    * `State.Shaped.isConsistent` — the check has an outcome for every state in shape;
    * `Later.shaped` — what is left of a tableau after any further operations;
    * `restore_of_save` — a return succeeds and gives the saved state, or ends in the check.
-/
import BoundedSimplex.Proofs.Operated

namespace BoundedSimplex

variable {α : Type} [Scalar α]

/-! ## §1.  The check of a state -/

namespace State

variable {s : State α}

/-- The value of each variable can be read. -/
theorem Shaped.storedValue (hs : s.Shaped) (hsplit : s.split.WellFormed s.rowCount s.varCount)
    {v : Nat} (hv : v < s.varCount) : ∃ x, s.storedValue v = .ok x := by
  unfold State.storedValue
  rw [hsplit.positionOf_eq hv]
  cases hb : s.split.isBasic v with
  | true =>
    have hlt : s.split.place v < s.basicValues.length := by
      rw [hs.basicValues]
      exact (hsplit.of_isBasic hv hb).1
    exact ⟨_, Checked.getAt_eq_ok.mpr (List.getElem?_eq_getElem hlt)⟩
  | false =>
    have hlt : s.split.place v < s.nonBasicValues.length := by
      rw [hs.nonBasicValues]
      exact (hsplit.of_not_isBasic hv hb).1
    exact ⟨_, Checked.getAt_eq_ok.mpr (List.getElem?_eq_getElem hlt)⟩

theorem Shaped.standingMatches (hs : s.Shaped) (hsplit : s.split.WellFormed s.rowCount s.varCount)
    (β : α) {i : Nat} (hi : i < s.rowCount) : ∃ b, s.standingMatches β i = .ok b := by
  have hstanding := Checked.getAt_eq_ok.mpr
    (List.getElem?_eq_getElem (hs.standings.symm ▸ hi : i < s.standings.length))
  have hvalue := Checked.getAt_eq_ok.mpr
    (List.getElem?_eq_getElem (hs.basicValues.symm ▸ hi : i < s.basicValues.length))
  have hv := hsplit.basicVar_lt hi
  have hlower := Checked.getAt_eq_ok.mpr (List.getElem?_eq_getElem
    (hs.bounds.lowers.symm ▸ hv : s.split.basicVar i < s.bounds.lowers.length))
  have hupper := Checked.getAt_eq_ok.mpr (List.getElem?_eq_getElem
    (hs.bounds.uppers.symm ▸ hv : s.split.basicVar i < s.bounds.uppers.length))
  unfold State.standingMatches State.standingAt Bounds.lower Bounds.upper
  rw [hstanding, hsplit.basicAt_eq hi, hvalue]
  simp only [bind, Except.bind, hlower, hupper]
  exact ⟨_, rfl⟩

/-- **The check of a state** has an outcome wherever the dimensions and the split are in order. -/
theorem Shaped.isConsistent (hs : s.Shaped) (hsplit : s.split.WellFormed s.rowCount s.varCount)
    (β τ : α) : ∃ b, s.isConsistent β τ = .ok b := by
  obtain ⟨xs, hxs⟩ : ∃ xs, s.storedValues = .ok xs :=
    Checked.exists_mapM fun v hv => hs.storedValue hsplit (List.mem_range.mp hv)
  have hlen : xs.length = s.varCount := by
    rw [Checked.length_of_mapM hxs, List.length_range]
  obtain ⟨products, hproducts⟩ := hs.matrix.multiply hlen
  obtain ⟨b, hb⟩ : ∃ b, (List.range s.rowCount).allM (s.standingMatches β) = .ok b :=
    Checked.exists_allM fun i hi => hs.standingMatches hsplit β (List.mem_range.mp hi)
  unfold State.isConsistent
  rw [hsplit.isConsistent hs.marked, hxs]
  simp only [Bool.not_true, Bool.false_eq_true, if_false, bind, Except.bind, hproducts, hb]
  exact ⟨_, rfl⟩

end State

namespace Tableau

variable {σ : Settings α} {t u v w : Tableau α}

/-! ## §2.  The check of a tableau -/

/-- The check of consistency gives an answer. -/
theorem Shaped.isConsistent {solved : Prop} (ht : t.Shaped solved σ) (τ : α) :
    ∃ b, t.isConsistent τ = .ok b := by
  unfold Tableau.isConsistent
  cases hb : t.hasBasis with
  | true => exact ht.state.isConsistent (ht.split hb) _ τ
  | false => exact ⟨true, rfl⟩

/-- The check looks at the state, at whether there is a basis and at the settings. -/
theorem requireConsistent_congr (hs : u.toState = t.toState) (hσ : u.settings = t.settings)
    (hb : u.hasBasis = t.hasBasis) : u.requireConsistent = t.requireConsistent := by
  unfold requireConsistent Tableau.isConsistent
  rw [hs, hσ, hb]

/-- The check is passed by inconsistent values only where they are not claimed to be settled. -/
theorem requireConsistent_eq_ok (h : t.settled = false ∨ t.isConsistent 1e-6 = .ok true) :
    t.requireConsistent = .ok () := by
  unfold requireConsistent
  rcases h with h | h
  · rw [h]
    rfl
  · rw [h]
    cases t.settled
    · rfl
    · rfl

theorem requireConsistent_eq_error {b : Bool} (hb : t.isConsistent 1e-6 = .ok b)
    (h : ¬(t.settled = false ∨ t.isConsistent 1e-6 = .ok true)) :
    t.requireConsistent = .error .inconsistent := by
  obtain ⟨hsettled, hfails⟩ := not_or.mp h
  cases b with
  | true => exact absurd hb hfails
  | false =>
    unfold requireConsistent
    rw [Bool.not_eq_false] at hsettled
    rw [hsettled, hb]
    rfl

/-! ## §3.  Everything that can happen after a tableau -/

/-- The tableaux that further steps lead to.  As in `Operated`, a return leads to
    what some run saved. -/
inductive Later (t : Tableau α) : Tableau α → Prop
  | now : Later t t
  | performed {u w : Tableau α} {op : Operation α} {reply : Reply α} (before : Later t u)
      (forward : ∀ s, op ≠ .restore s) (done : u.perform op = .ok (reply, w)) : Later t w
  | restored {u w x x' : Tableau α} {s : State α} {reply : Reply α} (before : Later t u)
      (origin : Operated anyStep x) (saved : x.save = .ok (s, x'))
      (done : u.perform (.restore s) = .ok (reply, w)) : Later t w
  | attended {u : Tableau α} (before : Later t u) (watchers : Watchers)
      (statistics : Option Statistics) (journal : Journal α) :
      Later t { u with watchers, statistics, journal }

/-- Further steps keep the settings, and everything in shape but possibly the inverse. -/
theorem Later.shaped (h : Later t u) (ht : t.Shaped False σ) : u.Shaped False σ := by
  induction h with
  | now => exact ht
  | performed _ forward done ih => exact (ih.perform (fun s hs => absurd hs (forward s)) done).1
  | restored _ origin saved done ih =>
    obtain ⟨σ', hx⟩ := origin.shaped
    exact (ih.perform (fun s hs => by cases hs; exact hx.saved saved) done).1
  | attended _ watchers statistics journal ih => exact ih.attend watchers statistics journal

/-- Operations one after the other, without returns to snapshots. -/
theorem Later.run {ops : List (Operation α)} (h : Later t u)
    (hops : ∀ op ∈ ops, ∀ s, op ≠ .restore s) (hrun : u.run ops = .ok w) : Later t w := by
  induction ops generalizing u with
  | nil =>
    cases hrun
    exact h
  | cons op ops ih =>
    obtain ⟨reply, x, hx, hrun⟩ := run_cons.mp hrun
    exact ih (h.performed (hops op List.mem_cons_self) hx)
      (fun o ho => hops o (List.mem_cons_of_mem op ho)) hrun

/-! ## §4.  Saving and returning -/

/-- A return whose basis is accepted comes down to the check. -/
theorem restore_eq_requireConsistent {s : State α} {columns : List (List α)}
    {inverse : BasisInverse α} (hc : s.basisColumns = .ok columns)
    (hf : t.inverse.refresh columns = .ok inverse) :
    ∃ w : Tableau α, w.toState = s ∧ w.settings = t.settings ∧ w.hasBasis = true
      ∧ t.restore s = (w.requireConsistent >>= fun _ => .ok (.ok (), w)) := by
  refine ⟨({ t.remark (.restoring s.rowCount s.varCount) with
    toState := s
    inverse
    pricing := t.pricing.invalidate
    multipliers := Scalar.zeros s.rowCount
    plan := .none
    hasBasis := true } : Tableau α).tellSize, rfl, rfl, rfl, ?_⟩
  have hf : (t.remark (.restoring s.rowCount s.varCount)).inverse.refresh columns = .ok inverse :=
    hf
  -- Past the refresh, restoring copies the state and ends in the check.
  rw [restore_eq_refresh, hc]
  simp only [bind, Except.bind, hf]
  rfl

/-- Columns that one representation of the inverse accepts, every other one does. -/
theorem refresh_of_refresh {f g f' : BasisInverse α} {columns : List (List α)}
    (h : f.refresh columns = .ok f') : ∃ g', g.refresh columns = .ok g' := by
  cases hg : g.refresh columns with
  | ok g' => exact ⟨g', rfl⟩
  | error cause =>
    rw [BasisInverse.refresh_error_iff.mpr (BasisInverse.refresh_error_iff.mp hg)] at h
    cases h

/-- **Saving and returning.**  A basis that is accepted when the snapshot is taken is accepted on
    the return, whatever was done in between.  If the tableau would have passed the check when it
    was saved, the return leads to the same state, which saves as the same snapshot; if not, the
    return ends there. -/
theorem restore_of_save (ht : Operated anyStep t) {s : State α} (hs : t.save = .ok (s, v))
    (haccepted : t.refactor = .ok (.ok (), w)) (hu : Later v u) :
    (t.settled = false ∨ t.isConsistent 1e-6 = .ok true →
      ∃ x x' : Tableau α, u.restore s = .ok (.ok (), x) ∧ x.toState = t.toState ∧ x.hasBasis = true
        ∧ x.settings = t.settings ∧ x.save = .ok (s, x'))
    ∧ (¬(t.settled = false ∨ t.isConsistent 1e-6 = .ok true) →
      u.restore s = .error .inconsistent) := by
  obtain ⟨σ, hshape⟩ := ht.shaped
  have hbasis := hasBasis_of_save hs
  obtain ⟨rfl, hsilent⟩ := save_spec hs
  have hushape : u.Shaped False σ := hu.shaped (hsilent.shaped hshape)
  -- the basis was accepted before, so it is now
  obtain ⟨inverse, -, ⟨-, cause, hcause⟩ | ⟨-, columns, hc, hf⟩⟩ := refactor_spec haccepted
  · cases hcause
  obtain ⟨inverse', hf'⟩ := refresh_of_refresh (g := u.inverse) hf
  obtain ⟨x, hstate, hσ, hx, hrestore⟩ := restore_eq_requireConsistent (t := u) hc hf'
  have hsettings : x.settings = t.settings :=
    hσ.trans (hushape.settings.trans hshape.settings.symm)
  rw [hrestore, requireConsistent_congr hstate hsettings (hx.trans hbasis.symm)]
  obtain ⟨b, hb⟩ := hshape.isConsistent 1e-6
  refine ⟨fun hpasses => ?_, fun hfails => ?_⟩
  · rw [requireConsistent_eq_ok hpasses]
    refine ⟨x, x.remark (.storing x.rowCount x.varCount), rfl, hstate, hx, hsettings, ?_⟩
    have hrequired : x.requireBasis = .ok () := Checked.require_eq_ok.mpr hx
    unfold Tableau.save
    rw [← hstate, hrequired]
    rfl
  · rw [requireConsistent_eq_error hb hfails]
    rfl

/-- In rounded arithmetic: a snapshot, then a tighter bound, a pivot and one more equation, and in
    the end other dimensions; the return brings everything back. -/
theorem restore_after_resizing : ∃ t v u x : Tableau Float, Operated anyStep t
    ∧ t.save = .ok (t.toState, v) ∧ Later v u ∧ u.rowCount = 2 ∧ u.hasBasis = false
    ∧ u.restore t.toState = .ok (.ok (), x) ∧ x.toState = t.toState ∧ x.hasBasis = true := by
  have hrun : (do
      let t ← (create (α := Float) {}).run [.setSize 1 2, .setCoefficients [1, 1],
        .setRightHandSide [10], .setLower 0 0, .setUpper 0 10, .setLower 1 0, .setUpper 1 20,
        .startFrom [1]]
      let (_, v) ← t.save
      let (r, _) ← t.refactor
      let b ← t.isConsistent 1e-6
      let u ← v.run [.tightenUpper 1 5, .computePrices, .chooseEntering .first, .computeColumn,
        .chooseLeaving, .performPivot, .addEquation ⟨[⟨1, 0⟩, ⟨-1, 1⟩], 0⟩, .setSize 2 4]
      Checked.require (r = Except.ok () ∧ b = true ∧ u.rowCount = 2 ∧ u.hasBasis = false)
        .inconsistent) = .ok () := by decide +kernel
  obtain ⟨t, ht, hrun⟩ := Checked.bind_eq_ok.mp hrun
  obtain ⟨⟨s, v⟩, hv, hrun⟩ := Checked.bind_eq_ok.mp hrun
  obtain ⟨⟨r, w⟩, hw, hrun⟩ := Checked.bind_eq_ok.mp hrun
  obtain ⟨b, hb, hrun⟩ := Checked.bind_eq_ok.mp hrun
  obtain ⟨u, hu, hrun⟩ := Checked.bind_eq_ok.mp hrun
  obtain ⟨rfl, rfl, hrows, hbasis⟩ := Checked.require_eq_ok.mp hrun
  have hstart : Operated anyStep t := (Operated.created _).runForward (by simp) ht
  have hlater : Later v u := Later.now.run (by simp) hu
  obtain ⟨x, -, hrestore, hstate, hx, -, -⟩ := (restore_of_save hstart hv hw hlater).1 (.inr hb)
  obtain ⟨rfl, -⟩ := save_spec hv
  exact ⟨t, v, u, x, hstart, hv, hlater, hrows, hbasis, hrestore, hstate, hx⟩

/-- A bound that is set, not tightened, below the value of a basic variable: the tableau saves, and
    the return to its snapshot ends in the check. -/
theorem restore_ends_after_set_bound : ∃ t v w : Tableau Float, Operated anyStep t
    ∧ t.hasBasis = true ∧ t.save = .ok (t.toState, v) ∧ t.refactor = .ok (.ok (), w)
    ∧ v.restore t.toState = .error .inconsistent := by
  have hrun : (do
      let t ← (create (α := Float) {}).run [.setSize 1 2, .setCoefficients [1, 1],
        .setRightHandSide [10], .setLower 0 0, .setUpper 0 10, .setLower 1 0, .setUpper 1 20,
        .startFrom [1], .setUpper 1 5]
      let (s, v) ← t.save
      let (r, _) ← t.refactor
      Checked.require (t.hasBasis = true ∧ r = Except.ok ()
        ∧ (v.restore s).map (fun _ => ()) = Except.error Violation.inconsistent) .noEntering)
      = .ok () := by decide +kernel
  obtain ⟨t, ht, hrun⟩ := Checked.bind_eq_ok.mp hrun
  obtain ⟨⟨s, v⟩, hv, hrun⟩ := Checked.bind_eq_ok.mp hrun
  obtain ⟨⟨r, w⟩, hw, hrun⟩ := Checked.bind_eq_ok.mp hrun
  obtain ⟨hbasis, rfl, hends⟩ := Checked.require_eq_ok.mp hrun
  have hstart : Operated anyStep t := (Operated.created _).runForward (by simp) ht
  obtain ⟨rfl, -⟩ := save_spec hv
  refine ⟨t, v, w, hstart, hbasis, hv, hw, ?_⟩
  -- The check fails, so restoring ends there.
  cases hrestore : v.restore t.toState with
  | ok x =>
    rw [hrestore] at hends
    cases hends
  | error cause =>
    rw [hrestore] at hends
    cases hends
    rfl

end Tableau

end BoundedSimplex
