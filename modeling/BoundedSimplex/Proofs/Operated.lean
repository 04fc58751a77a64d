/-
  BoundedSimplex.Proofs.Operated — what every run of a tableau keeps, whatever the arithmetic.

  A run starts from a new tableau and performs operations in any order: setting up, starting,
  pivoting, growing, merging, saving and returning, with failures on the way.  Which steps a run may
  take is a parameter, so one theory serves the runs of all kinds.

  Main results:
    * `Shaped.perform` — what one operation keeps, one case per operation;
    * `Operated.shaped` — what every run keeps;
    * `InStep`, `inStep_of_operated` — the representation invariant of a tableau with a basis.
-/
import BoundedSimplex.Proofs.Tableau.Selection
import BoundedSimplex.Proofs.Tableau.ShapeSetup
import Mathlib.Algebra.Field.Rat
import Mathlib.Algebra.Order.Ring.Rat

namespace BoundedSimplex

variable {α : Type} [Scalar α]

namespace Tableau

/-! ## §1.  Runs -/

/-- Steps of a run: the tableau before, the operation, its reply, the tableau after. -/
abbrev StepKind (α : Type) [Scalar α] : Type :=
  Tableau α → Operation α → Reply α → Tableau α → Prop

/-- Every step. -/
def anyStep : StepKind α := fun _ _ _ _ => True

/-- Every step but an equation that is added and leaves the inverse behind. -/
def keepsInverse : StepKind α := fun _ op reply _ =>
  ∀ e cause, op = .addEquation e → reply ≠ .failed (.factorization cause)

/-- The tableaux that steps of a kind lead to from a new one.  A tableau returns only to what was
    saved in a run, which may be another one. -/
inductive Operated : StepKind α → Tableau α → Prop
  | created {kind : StepKind α} (settings : Settings α) : Operated kind (create settings)
  | createdExplicit {kind : StepKind α} (settings : Settings α) :
      Operated kind (createExplicit settings)
  | performed {kind : StepKind α} {t u : Tableau α} {op : Operation α} {reply : Reply α}
      (before : Operated kind t) (forward : ∀ s, op ≠ .restore s) (allowed : kind t op reply u)
      (done : t.perform op = .ok (reply, u)) : Operated kind u
  | restored {kind : StepKind α} {t u w w' : Tableau α} {s : State α} {reply : Reply α}
      (before : Operated kind t) (origin : Operated anyStep w) (saved : w.save = .ok (s, w'))
      (allowed : kind t (.restore s) reply u) (done : t.perform (.restore s) = .ok (reply, u)) :
      Operated kind u
  /-- Watchers, statistics and the journal are free to change. -/
  | attended {kind : StepKind α} {t : Tableau α} (before : Operated kind t) (watchers : Watchers)
      (statistics : Option Statistics) (journal : Journal α) :
      Operated kind { t with watchers, statistics, journal }

variable {solved : Prop} {σ : Settings α} {t u : Tableau α} {kind : StepKind α}

/-- Operations one after the other, without returns to snapshots. -/
theorem Operated.run {ops : List (Operation α)} (h : Operated kind t)
    (hops : ∀ op ∈ ops, (∀ s, op ≠ .restore s) ∧ ∀ t reply u, kind t op reply u)
    (hrun : t.run ops = .ok u) : Operated kind u := by
  induction ops generalizing t with
  | nil =>
    cases hrun
    exact h
  | cons op ops ih =>
    obtain ⟨reply, w, hw, hrun⟩ := run_cons.mp hrun
    obtain ⟨hforward, hkind⟩ := hops op List.mem_cons_self
    exact ih (h.performed hforward (hkind t reply w) hw)
      (fun o ho => hops o (List.mem_cons_of_mem _ ho)) hrun

/-- Without returns, every run counts. -/
theorem Operated.runForward {ops : List (Operation α)} (h : Operated anyStep t)
    (hops : ∀ op ∈ ops, ∀ s, op ≠ .restore s) (hrun : t.run ops = .ok u) : Operated anyStep u :=
  h.run (fun op hop => ⟨hops op hop, fun _ _ _ => trivial⟩) hrun

/-- Without new equations, no step leaves the inverse behind. -/
theorem Operated.runInStep {ops : List (Operation α)} (h : Operated keepsInverse t)
    (hops : ∀ op ∈ ops, (∀ s, op ≠ .restore s) ∧ ∀ e, op ≠ .addEquation e)
    (hrun : t.run ops = .ok u) : Operated keepsInverse u :=
  h.run (fun op hop => ⟨(hops op hop).1, fun _ _ _ e _ he => absurd he ((hops op hop).2 e)⟩) hrun

/-! ## §2.  One operation -/

/-- **What an operation keeps.**  All of it may be refused or fail half-way; only a new equation may
    leave the inverse with another size than the basis. -/
theorem Shaped.perform (ht : t.Shaped solved σ)
    {op : Operation α} {reply : Reply α} (hs : ∀ s, op = .restore s →
      s.Shaped ∧ s.split.WellFormed s.rowCount s.varCount)
    (h : t.perform op = .ok (reply, u)) :
    u.Shaped False σ ∧ (keepsInverse t op reply u → u.Shaped solved σ) := by
  have keep (hu : u.Shaped solved σ) :
      u.Shaped False σ ∧ (keepsInverse t op reply u → u.Shaped solved σ) := ⟨hu.weaken, fun _ => hu⟩
  cases op with
  | setSize m n => exact keep (ht.setSize (of_replyDone h))
  | setCoefficients xs => exact keep (ht.setCoefficients (of_replyDone h))
  | setCoefficient i j x => exact keep (ht.setCoefficient (of_replyDone h))
  | setRightHandSide xs => exact keep (ht.setRightHandSide (of_replyDone h))
  | setRightHandSideAt i x => exact keep (ht.setRightHandSideAt (of_replyDone h))
  | setLower v x => exact keep (ht.setLower (of_replyDone h))
  | setUpper v x => exact keep (ht.setUpper (of_replyDone h))
  | tightenLower v x => exact keep (ht.tightenLower (of_replyDone h))
  | tightenUpper v x => exact keep (ht.tightenUpper (of_replyDone h))
  | checkBounds v =>
    obtain ⟨⟨valid, w⟩, hw, h⟩ := Checked.bind_eq_ok.mp h
    cases h
    exact keep (ht.checkBounds hw)
  | checkAllBounds =>
    obtain ⟨⟨valid, w⟩, hw, h⟩ := Checked.bind_eq_ok.mp h
    cases h
    exact keep (ht.checkAllBounds hw)
  | markBasic v => exact keep (ht.markBasic (of_replyDone h))
  | assignRow v i => exact keep (ht.assignRow (of_replyDone h))
  | startFrom vs =>
    obtain ⟨r, hr, -⟩ := of_replyAttempt h
    exact keep (ht.startFrom hr)
  | start =>
    obtain ⟨r, hr, -⟩ := of_replyAttempt h
    exact keep (ht.start hr)
  | refactor =>
    obtain ⟨r, hr, -⟩ := of_replyAttempt h
    exact keep (ht.refactor hr).1
  | addEquation e =>
    obtain ⟨r, hr, hreply⟩ := of_replyAttempt h
    -- the inverse is left behind by a failure to refactor, which the reply tells
    obtain ⟨hbehind, hkept⟩ := ht.addEquation hr
    refine ⟨hbehind, fun hkeeps => hkept fun cause hcause => ?_⟩
    rcases hreply with ⟨v, hv, -⟩ | ⟨c, hc, hreply⟩
    · rw [hv] at hcause
      cases hcause
    · rw [hc] at hcause
      cases hcause
      exact hkeeps e cause rfl hreply
  | merge source target =>
    obtain ⟨r, hr, -⟩ := of_replyAttempt h
    exact keep (ht.merge hr)
  | computeValues => exact keep (ht.computeValues (of_replyDone h))
  | classifyAll => exact keep ((classifyAll_moves ht.state (of_replyDone h)).shaped ht)
  | classify v => exact keep ((classify_moves (of_replyDone h)).shaped ht)
  | classifyAt i => exact keep ((classifyAt_moves (of_replyDone h)).shaped ht)
  | setSettled settled =>
    cases of_replyDone h
    exact keep (Moves.shaped ⟨_, _, _, _, _, _, rfl, rfl, rfl, rfl⟩ ht)
  | moveNonBasic v x follow =>
    obtain ⟨w, hw, rfl⟩ := moveNonBasic_moves ht.state (of_replyDone h)
    exact keep (hw.shaped ht).invalidate
  | computePrices => exact keep (ht.computePrices (of_replyDone h))
  | usePricing rule =>
    cases of_replyDone h
    exact keep (ht.usePricing rule)
  | computeMultipliers costs => exact keep (ht.computeMultipliers (of_replyDone h))
  | chooseEntering rule =>
    obtain ⟨⟨found, next, w⟩, hw, h⟩ := Checked.bind_eq_ok.mp h
    cases h
    exact keep (ht.chooseEntering hw)
  | selectEntering j => exact keep (ht.selectEntering (of_replyDone h))
  | selectLeaving i => exact keep (ht.selectLeaving (of_replyDone h))
  | setDistance x => exact keep (ht.setDistance (of_replyDone h))
  | setColumn column => exact keep (ht.setColumn (of_replyDone h))
  | computeColumn => exact keep (ht.computeColumn (of_replyDone h))
  | chooseLeaving => exact keep ((chooseLeaving_concludes (of_replyDone h)).shaped ht)
  | standardRatioTest => exact keep ((standardRatioTest_concludes (of_replyDone h)).shaped ht)
  | harrisRatioTest => exact keep ((harrisRatioTest_concludes (of_replyDone h)).shaped ht)
  | computeRow => exact keep (ht.computeRow (of_replyDone h))
  | performPivot => exact keep (ht.performPivot (of_replyDone h))
  | performDegenerate => exact keep (ht.performDegenerate (of_replyDone h))
  | save =>
    obtain ⟨⟨s, w⟩, hw, h⟩ := Checked.bind_eq_ok.mp h
    cases h
    exact keep ((save_spec hw).2.shaped ht)
  | restore s =>
    obtain ⟨r, hr, -⟩ := of_replyAttempt h
    obtain ⟨hshape, hsplit⟩ := hs s rfl
    exact keep (ht.restore hshape hsplit hr)

/-! ## §3.  Whole runs -/

/-- What a run saves has the shape of a state with a basis. -/
theorem Shaped.saved (ht : t.Shaped solved σ) {s : State α} (h : t.save = .ok (s, u)) :
    s.Shaped ∧ s.split.WellFormed s.rowCount s.varCount := by
  obtain ⟨rfl, -⟩ := save_spec h
  exact ⟨ht.state, ht.split (hasBasis_of_save h)⟩

/-- Watchers, counters and journal are outside the shape. -/
theorem Shaped.attend (ht : t.Shaped solved σ) (watchers : Watchers)
    (statistics : Option Statistics) (journal : Journal α) :
    { t with watchers, statistics, journal }.Shaped solved σ :=
  ⟨ht.settings, ht.state, ht.inverse, ht.multipliers, ht.costs, ht.plan, ht.split, ht.row, ht.size⟩

/-- **Every run** keeps the settings, and everything in shape but possibly the inverse. -/
theorem Operated.shaped (h : Operated kind t) : ∃ σ, t.Shaped False σ := by
  induction h with
  | created settings =>
    exact ⟨settings, shaped_withInverse settings (BasisInverse.shaped_product_identity 0 _)⟩
  | createdExplicit settings =>
    exact ⟨settings, shaped_withInverse settings (BasisInverse.shaped_explicit_identity 0 _)⟩
  | performed _ hforward _ hdone ih =>
    obtain ⟨σ, ht⟩ := ih
    exact ⟨σ, (ht.perform (fun s hs => absurd hs (hforward s)) hdone).1⟩
  | restored _ _ hsaved _ hdone ih ih' =>
    obtain ⟨σ, ht⟩ := ih
    obtain ⟨σ', hw⟩ := ih'
    exact ⟨σ, (ht.perform (fun s hs => by cases hs; exact hw.saved hsaved) hdone).1⟩
  | attended _ watchers statistics journal ih =>
    obtain ⟨σ, ht⟩ := ih
    exact ⟨σ, ht.attend watchers statistics journal⟩

/-- **A run in which no equation leaves the inverse behind** keeps everything in shape. -/
theorem Operated.shaped_of_keeps (h : Operated keepsInverse t) : ∃ σ, t.Shaped True σ := by
  generalize hk : (keepsInverse : StepKind α) = kind at h
  induction h with
  | created settings =>
    exact ⟨settings, shaped_withInverse settings (BasisInverse.shaped_product_identity 0 _)⟩
  | createdExplicit settings =>
    exact ⟨settings, shaped_withInverse settings (BasisInverse.shaped_explicit_identity 0 _)⟩
  | performed _ hforward hallowed hdone ih =>
    subst hk
    obtain ⟨σ, ht⟩ := ih rfl
    exact ⟨σ, (ht.perform (fun s hs => absurd hs (hforward s)) hdone).2 hallowed⟩
  | restored _ horigin hsaved hallowed hdone ih _ =>
    subst hk
    obtain ⟨σ, ht⟩ := ih rfl
    obtain ⟨σ', hw⟩ := horigin.shaped
    exact ⟨σ, (ht.perform (fun s hs => by cases hs; exact hw.saved hsaved) hdone).2 hallowed⟩
  | attended _ watchers statistics journal ih =>
    obtain ⟨σ, ht⟩ := ih hk
    exact ⟨σ, ht.attend watchers statistics journal⟩

/-! ## §4.  The representation invariant -/

/-- The parallel lists and the index maps of a tableau with a basis are in step. -/
structure InStep (t : Tableau α) : Prop where
  /-- Every variable stands in exactly one of the two lists, and there exactly once. -/
  partition : (t.split.basic ++ t.split.nonBasic.map some).Perm ((List.range t.varCount).map some)
  rows : t.split.basic.length = t.rowCount
  others : t.split.nonBasic.length = t.nonBasicCount
  /-- The positions are the inverse of whichever list a variable stands in. -/
  places : t.split.positions.length = t.varCount
  basicPlace : ∀ i v, t.split.basic[i]? = some (some v) ↔
    v < t.varCount ∧ t.split.isBasic v = true ∧ t.split.positions[v]? = some (some i)
  otherPlace : ∀ j v, t.split.nonBasic[j]? = some v ↔
    v < t.varCount ∧ t.split.isBasic v = false ∧ t.split.positions[v]? = some (some j)
  /-- The marked variables are those of the list of basic ones. -/
  marks : ∀ v, v ∈ t.split.basicSet.toList ↔ some v ∈ t.split.basic
  rightHandSide : t.rightHandSide.length = t.rowCount
  basicValues : t.basicValues.length = t.rowCount
  standings : t.standings.length = t.rowCount
  multipliers : t.multipliers.length = t.rowCount
  nonBasicValues : t.nonBasicValues.length = t.nonBasicCount
  lowers : t.bounds.lowers.length = t.varCount
  uppers : t.bounds.uppers.length = t.varCount
  inverse : t.inverse.size = t.rowCount
  /-- On record are the variables whose lower bound exceeds the upper one, in increasing order. -/
  contradictory : t.bounds.contradictory.toList = (List.range t.varCount).filter fun v =>
    decide (t.bounds.lowers.getD v 0 > t.bounds.uppers.getD v 0)
  costs : t.pricing.stale = false → t.pricing.costs.length = t.nonBasicCount
  entering : ∀ j, t.plan.entering = some j → j < t.nonBasicCount
  leaving : ∀ i, t.plan.leaving = some (.basic i) → i < t.rowCount
  column : t.plan.column = [] ∨ t.plan.column.length = t.rowCount
  row : ∀ row, t.plan.row = some row →
    row.basicIndex < t.rowCount ∧ row.entries.length = t.nonBasicCount

/-- A shaped tableau with a basis is in step. -/
theorem Shaped.inStep (hinf : ¬(Scalar.infinity : α) < -Scalar.infinity) (ht : t.Shaped True σ)
    (hb : t.hasBasis = true) : t.InStep := by
  have hs := ht.state
  have hsplit := ht.split hb
  refine ⟨hsplit.perm_range, hs.rows, hsplit.nonBasic.length, hs.places, fun i v => ?_,
    fun j v => ?_, fun v => ?_, hs.rightHandSide, hs.basicValues, hs.standings, ht.multipliers,
    hs.nonBasicValues, hs.bounds.lowers, hs.bounds.uppers, ht.size trivial hb,
    hs.bounds.contradictory_eq hinf, ht.costs, ht.plan.entering, ht.plan.leaving,
    ht.plan.column, ht.row hb⟩
  · constructor
    · intro hi
      obtain ⟨w, hw, hlt, hp, hmark⟩ := hsplit.basic.of_getElem? hi
      cases hw
      exact ⟨hlt, hmark, hp⟩
    · rintro ⟨hlt, hmark, hp⟩
      obtain ⟨k, hk, hkv⟩ := hsplit.coversBasic v hlt hmark
      obtain ⟨w, hw, -, hpk, -⟩ := hsplit.basic.of_getElem? hkv
      cases hw
      cases hp.symm.trans hpk
      exact hkv
  · constructor
    · intro hj
      obtain ⟨hlt, hp, hmark⟩ := hsplit.nonBasic.of_getElem? hj
      exact ⟨hlt, hmark, hp⟩
    · rintro ⟨hlt, hmark, hp⟩
      obtain ⟨k, hk, hkv⟩ := hsplit.coversOther v hlt hmark
      cases hp.symm.trans (hsplit.nonBasic.of_getElem? hkv).2.1
      exact hkv
  · rw [← hsplit.isBasic_iff hs.marked]
    simp [BasisSplit.isBasic, IndexSet.contains]

/-- **The representation invariant.**  In an arithmetic whose infinities are in their usual order,
    every operation keeps the lists and maps of a tableau in step, those that fail included; a run
    may go on until an added equation leaves the inverse behind. -/
theorem inStep_of_operated (hinf : ¬(Scalar.infinity : α) < -Scalar.infinity)
    (h : Operated keepsInverse t) (hb : t.hasBasis = true) : t.InStep := by
  obtain ⟨σ, ht⟩ := h.shaped_of_keeps
  exact ht.inStep hinf hb

/-- In rounded arithmetic: a start that is turned down, one that is accepted, a pivot and one more
    equation. -/
theorem inStep_of_grown_run : ∃ t : Tableau Float, Operated keepsInverse t ∧ t.hasBasis = true
    ∧ t.rowCount = 2 ∧ t.split.basic = [some 1, some 3] ∧ t.InStep := by
  have hrun : (do
      let t ← (create (α := Float) {}).run [.setSize 1 3, .setCoefficients [1, 2, 1],
        .setRightHandSide [10], .setLower 0 0, .setUpper 0 4, .setLower 1 0, .setUpper 1 3,
        .setLower 2 0, .setUpper 2 5, .startFrom [0, 1], .startFrom [2], .chooseEntering .first,
        .selectEntering 1, .computeColumn, .standardRatioTest, .computeRow, .selectLeaving 0,
        .performPivot]
      let (r, u) ← t.addEquation ⟨[⟨1, 0⟩, ⟨1, 1⟩], 3⟩
      Checked.require (r = Except.ok 3 ∧ u.hasBasis = true ∧ u.rowCount = 2
        ∧ u.split.basic = [some 1, some 3]) .inconsistent) = .ok () := by decide +kernel
  obtain ⟨t, ht, hrun⟩ := Checked.bind_eq_ok.mp hrun
  obtain ⟨⟨r, u⟩, hu, hrun⟩ := Checked.bind_eq_ok.mp hrun
  obtain ⟨rfl, hbasis, hrows, hbasic⟩ := Checked.require_eq_ok.mp hrun
  have hstart : Operated keepsInverse t := (Operated.created _).runInStep (by simp) ht
  have hadded : t.perform (.addEquation ⟨[⟨1, 0⟩, ⟨1, 1⟩], 3⟩) = .ok (.variable 3, u) := by
    rw [perform, hu]
    rfl
  have hgrown : Operated keepsInverse u :=
    hstart.performed (fun _ h => by cases h) (fun _ _ _ h => by cases h) hadded
  exact ⟨u, hgrown, hbasis, hrows, hbasic, inStep_of_operated (by decide +kernel) hgrown hbasis⟩

end Tableau

end BoundedSimplex
