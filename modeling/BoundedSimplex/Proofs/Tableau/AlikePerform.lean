/-
  BoundedSimplex.Proofs.Tableau.AlikePerform — operations on tableaux that nothing can tell apart.

  Every operation has the same outcome on two tableaux that are alike, and leaves them alike,
  provided that the numbers that systems are made of may be asked about.  A pivot ends with a fresh
  start of the representations that are due; when the two become due at different times, that has to
  be looked at separately, and is a hypothesis here.

  Main results:
    * `Alike.turn`, `Alike.turnDegenerate` — a pivot up to the fresh start;
    * `Alike.start`, `Alike.addEquation`, `Alike.merge`, `Alike.restore` — the larger operations;
    * `Alike.perform` — every operation, one case per operation.
-/
import BoundedSimplex.Proofs.Tableau.Alike
import BoundedSimplex.Proofs.Tableau.ShapePivot
import BoundedSimplex.Proofs.Tableau.Pivot
import BoundedSimplex.Proofs.Tableau.Snapshot

namespace BoundedSimplex.Tableau

variable {α : Type} [Scalar α] {L : Likeness α} {t u v w : Tableau α}

/-! ## §1.  Pivots -/

/-- The selected pivot up to the fresh start at its end. -/
def turn (t : Tableau α) : Checked (Tableau α) := do
  t.requireBasis
  let j ← t.enteringIndex
  match t.plan.leaving with
  | some .entering => t.performFake j
  | some (.basic i) => t.performExchange j i
  | none => .error .noLeaving

/-- A degenerate pivot up to the fresh start at its end. -/
def turnDegenerate (t : Tableau α) : Checked (Tableau α) := do
  t.requireBasis
  let j ← t.enteringIndex
  let i ← t.leavingRow
  Checked.require ((← Checked.getAt t.standings i).isOutOfBounds = false) (.leavingOutOfBounds i)
  let element ← t.pivotElement i
  let enteringValue ← Checked.getAt t.nonBasicValues j
  let leavingValue ← Checked.getAt t.basicValues i
  let ((entering, leaving), t) ← t.exchangePlaces j i enteringValue leavingValue
  let t ← (t.remark (.degeneratePivot entering leaving)).classifyAt i
  let t ← t.followExchange j i element
  return (t.count .pivots).count .degeneratePivots

theorem performPivot_eq (t : Tableau α) : t.performPivot = t.turn >>= finish := by
  unfold performPivot turn
  cases t.requireBasis with
  | error e => rfl
  | ok _ =>
    cases t.enteringIndex with
    | error e => rfl
    | ok j =>
      cases t.plan.leaving with
      | none => rfl
      | some leaving => cases leaving with
        | entering => rfl
        | basic i => rfl

theorem performDegenerate_eq (t : Tableau α) :
    t.performDegenerate = t.turnDegenerate >>= finish := by
  unfold performDegenerate turnDegenerate
  simp only [bind_assoc, pure_bind]

/-- Making variables basic changes the split only. -/
theorem over_of_assignRows {N : NumberSet α} (ht : t.Over N) {vs : List Nat}
    (h : t.assignRows vs = .ok u) : u.Over N := by
  refine Checked.foldlM_inv (P := Tableau.Over N) (fun p _ x y hx hy => ?_) ht h
  obtain ⟨z, hz, hy⟩ := Checked.bind_eq_ok.mp hy
  obtain ⟨_, -, hz⟩ := Checked.bind_eq_ok.mp hz
  obtain ⟨split, -, hz⟩ := Checked.bind_eq_ok.mp hz
  cases hz
  obtain ⟨_, -, hy⟩ := Checked.bind_eq_ok.mp hy
  obtain ⟨split', -, hy⟩ := Checked.bind_eq_ok.mp hy
  cases hy
  exact ⟨hx.matrix, hx.rightHandSide, hx.nonBasicValues, hx.lowers, hx.uppers,
    hx.column, hx.weights⟩

namespace Alike

theorem jump (h : Alike L t u) (k : Nat) : Agree (Alike L) (t.jump k) (u.jump k) := by
  obtain ⟨f, j, s, rfl, hf, hs, hj⟩ := h.cases
  refine .step (t.split.nonBasicAt k) fun v _ => .step (Checked.getAt t.nonBasicValues k) fun x _ =>
    .step (t.bounds.lower v) fun l _ => .step (t.bounds.upper v) fun b _ => ?_
  refine (Alike.classifyAll (L := L) (remark ⟨rfl, hf, hs, hj⟩ _ _)).bind fun w w' _ _ hw => ?_
  have htold := hw.invalidatePrices.tellValue v (if t.plan.enteringFalls = true then l else b)
  dsimp only
  rw [htold.movedPairs]
  exact .step _ fun pairs _ => .ok ((htold.tellValues pairs).count _)

theorem performFake (h : Alike L t u) (k : Nat) :
    Agree (Alike L) (t.performFake k) (u.performFake k) := by
  have hjump := h.jump k
  have hidle := h.remark .unboundedMove .unboundedMove
  obtain ⟨f, j, s, rfl, hf, hs, hj⟩ := h.cases
  unfold Tableau.performFake
  dsimp only
  split
  · exact hjump
  · exact .ok hidle

/-- The entering and the leaving variable exchange their places. -/
theorem exchangePlaces (h : Alike L t u) (hc : L.numbers.Lists t.plan.column)
    (hfollows : L.follows t.plan.column) {i : Nat}
    (hi : ∀ x, t.plan.column[i]? = some x → ¬(x == 0) = true) (k : Nat) (x y : α) :
    Agree (AlikeWith L) (t.exchangePlaces k i x y) (u.exchangePlaces k i x y) := by
  obtain ⟨f, j, s, rfl, hf, hs, hj⟩ := h.cases
  refine .step (t.split.swap k i) fun swapped _ =>
    .step (Checked.setAt t.basicValues i x) fun xs _ =>
    .step (Checked.setAt t.nonBasicValues k y) fun ys _ => ?_
  exact (L.update hf hc hfollows hi).bind fun g g' _ _ hg => .ok ⟨rfl, rfl, hg, hs, hj⟩

theorem nonzero_of_pivotElement {i : Nat} {element : α} (h : t.pivotElement i = .ok element) :
    ∀ x, t.plan.column[i]? = some x → ¬(x == 0) = true := by
  intro x hx
  obtain ⟨hentry, hne⟩ := entry_of_pivotElement h
  cases hx.symm.trans hentry
  exact hne

/-- An exchange at a pivot, as long as the representations follow the same column. -/
theorem performExchange (h : Alike L t u) (hc : L.numbers.Lists t.plan.column)
    (hfollows : L.follows t.plan.column) (k i : Nat) :
    Agree (Alike L) (t.performExchange k i) (u.performExchange k i) := by
  obtain ⟨f, j, s, rfl, hf, hs, hj⟩ := h.cases
  -- Everything up to the exchange is read from what both have in common.
  refine .step (t.pivotElement i) fun element he => .step (t.split.basicAt i) fun leaving _ =>
    .step (Checked.getAt t.standings i) fun standing _ => .step (t.bounds.lower leaving) fun l _ =>
    .step (t.bounds.upper leaving) fun b _ => .step (Checked.getAt t.nonBasicValues k) fun x _ => ?_
  have hshift : Alike L { t with basicValues := shift t.change t.basicValues t.plan.column }
      { t with inverse := f, journal := j, statistics := s
               basicValues := shift t.change t.basicValues t.plan.column } := ⟨rfl, hf, hs, hj⟩
  refine (hshift.exchangePlaces hc hfollows (nonzero_of_pivotElement he) k _ _).bind
    fun r r' _ _ hr => ?_
  obtain ⟨⟨entering, _⟩, w⟩ := r
  obtain ⟨_, w'⟩ := r'
  obtain ⟨rfl, hw⟩ := hr
  -- After it both are alike again, and so are the steps that come.
  refine ((hw.remark _ _).classifyAll).bind fun v v' _ _ hv => ?_
  refine (hv.followExchange k i element).bind fun y y' _ _ hy => ?_
  rw [hy.movedPairs, hy.plan]
  refine .step _ fun pairs _ => ?_
  have hend := ((hy.tellValues pairs).tellValue leaving
    (landing standing t.plan.leavingRises l b)).count .pivots
  change Agree (Alike L) (.ok (if (t.change == 0) = true then _ else _))
    (.ok (if (t.change == 0) = true then _ else _))
  split
  · exact .ok (hend.count _)
  · exact .ok hend

/-- **A pivot up to the fresh start.** -/
theorem turn (h : Alike L t u) (hc : L.numbers.Lists t.plan.column)
    (hfollows : ∀ i, t.plan.leaving = some (.basic i) → L.follows t.plan.column) :
    Agree (Alike L) t.turn u.turn := by
  have hfake := h.performFake
  have hexchange := h.performExchange hc
  obtain ⟨f, j, s, rfl, hf, hs, hj⟩ := h.cases
  refine .step t.requireBasis fun _ _ => .step t.enteringIndex fun k _ => ?_
  dsimp only
  split
  · exact hfake k
  · next i hi => exact hexchange (hfollows i hi) k i
  · exact .error _

/-- **A degenerate pivot up to the fresh start.** -/
theorem turnDegenerate (h : Alike L t u) (hc : L.numbers.Lists t.plan.column)
    (hfollows : ∀ i, t.plan.leaving = some (.basic i) → L.follows t.plan.column) :
    Agree (Alike L) t.turnDegenerate u.turnDegenerate := by
  have hexchange := h.exchangePlaces hc
  obtain ⟨f, j, s, rfl, hf, hs, hj⟩ := h.cases
  refine .step t.requireBasis fun _ _ => .step t.enteringIndex fun k _ => .step t.leavingRow
    fun i hi => .step (Checked.getAt t.standings i) fun standing _ =>
    .step (Checked.require (standing.isOutOfBounds = false) (.leavingOutOfBounds i)) fun _ _ =>
    .step (t.pivotElement i) fun element he => .step (Checked.getAt t.nonBasicValues k) fun x _ =>
    .step (Checked.getAt t.basicValues i) fun y _ => ?_
  -- Only the exchange touches the representations.
  refine (hexchange (hfollows i (leavingRow_eq_ok hi)) (nonzero_of_pivotElement he) k x y).bind
    fun r r' _ _ hr => ?_
  obtain ⟨⟨entering, leaving⟩, w⟩ := r
  obtain ⟨_, w'⟩ := r'
  obtain ⟨rfl, hw⟩ := hr
  refine ((hw.remark _ _).classifyAt i).bind fun v v' _ _ hv => ?_
  exact (hv.followExchange k i element).bind fun y y' _ _ hy =>
    .ok ((hy.count _).count _)

/-- **The end of a pivot**, if the inverses are due at the same time. -/
theorem finish (h : Alike L t u) (ht : t.matrix.Over L.numbers)
    (hdue : u.inverse.isDue = t.inverse.isDue) : Agree (Alike L) t.finish u.finish := by
  have hrefactor := h.clearPlan.refactor ht
  have hclear := h.clearPlan
  unfold Tableau.finish refactorIfDue
  rw [show u.clearPlan.inverse.isDue = t.clearPlan.inverse.isDue from hdue]
  split
  · refine hrefactor.bind fun r r' _ _ hrr => ?_
    obtain ⟨outcome, w⟩ := r
    obtain ⟨_, w'⟩ := r'
    obtain ⟨rfl, hw⟩ := hrr
    cases outcome with
    | ok _ => exact .ok hw
    | error cause => exact .ok (hw.remark _ _)
  · exact .ok hclear

/-! ## §2.  Setting up -/

theorem setSize (h : Alike L t u) (m n : Nat) :
    Agree (Alike L) (t.setSize m n) (u.setSize m n) := by
  obtain ⟨f, j, s, rfl, hf, hs, hj⟩ := h.cases
  exact .step (Checked.require (m ≤ n) (.tooManyRows m n)) fun _ _ =>
    .step (Checked.requireRoom (max (m * n) n)) fun _ _ =>
      .ok (tellSize ⟨rfl, hf, hs, hj.add _ _⟩)

theorem setCoefficients (h : Alike L t u) (xs : List α) :
    Agree (Alike L) (t.setCoefficients xs) (u.setCoefficients xs) := by
  obtain ⟨f, j, s, rfl, hf, hs, hj⟩ := h.cases
  exact .step (SystemMatrix.ofRowMajor xs t.rowCount t.varCount) fun _ _ => .ok ⟨rfl, hf, hs, hj⟩

theorem setCoefficient (h : Alike L t u) (i k : Nat) (x : α) :
    Agree (Alike L) (t.setCoefficient i k x) (u.setCoefficient i k x) := by
  obtain ⟨f, j, s, rfl, hf, hs, hj⟩ := h.cases
  exact .step (t.matrix.set i k x) fun _ _ => .ok ⟨rfl, hf, hs, hj⟩

theorem setRightHandSide (h : Alike L t u) (xs : List α) :
    Agree (Alike L) (t.setRightHandSide xs) (u.setRightHandSide xs) := by
  obtain ⟨f, j, s, rfl, hf, hs, hj⟩ := h.cases
  exact .step (Checked.require (xs.length = t.rowCount) (.sizeMismatch xs.length t.rowCount))
    fun _ _ => .ok ⟨rfl, hf, hs, hj⟩

theorem setRightHandSideAt (h : Alike L t u) (i : Nat) (x : α) :
    Agree (Alike L) (t.setRightHandSideAt i x) (u.setRightHandSideAt i x) := by
  obtain ⟨f, j, s, rfl, hf, hs, hj⟩ := h.cases
  exact .step (Checked.setAt t.rightHandSide i x) fun _ _ => .ok ⟨rfl, hf, hs, hj⟩

theorem markBasic (h : Alike L t u) (v : Nat) :
    Agree (Alike L) (t.markBasic v) (u.markBasic v) := by
  obtain ⟨f, j, s, rfl, hf, hs, hj⟩ := h.cases
  exact .step t.requireNoBasis fun _ _ => .step (t.split.markBasic v) fun _ _ =>
    .ok ⟨rfl, hf, hs, hj⟩

theorem assignRow (h : Alike L t u) (v i : Nat) :
    Agree (Alike L) (t.assignRow v i) (u.assignRow v i) := by
  obtain ⟨f, j, s, rfl, hf, hs, hj⟩ := h.cases
  exact .step t.requireNoBasis fun _ _ => .step (t.split.assignRow v i) fun _ _ =>
    .ok ⟨rfl, hf, hs, hj⟩

theorem assignRows (h : Alike L t u) (vs : List Nat) :
    Agree (Alike L) (t.assignRows vs) (u.assignRows vs) :=
  .foldlM vs.zipIdx (fun p _ _ _ hw => (hw.markBasic p.1).bind fun _ _ _ _ hv =>
    hv.assignRow p.1 p.2) h

theorem requireConsistent (h : Alike L t u) : u.requireConsistent = t.requireConsistent := by
  obtain ⟨f, j, s, rfl, hf, hs, hj⟩ := h.cases
  rfl

/-- **The basis is complete.** -/
theorem start (h : Alike L t u) (ht : t.Over L.numbers) :
    Agree (AlikeWith L) t.start u.start := by
  have hsame := h
  obtain ⟨f, j, s, rfl, hf, hs, hj⟩ := h.cases
  unfold Tableau.start
  dsimp only
  split
  · exact .ok ⟨rfl, hsame⟩
  · refine .step t.split.listNonBasic fun split _ =>
      .step (Checked.require (split.isConsistent = true) .brokenPartition) fun _ _ =>
      .step (split.nonBasic.mapM t.bounds.startValue) fun ys hy => ?_
    have hys : L.numbers.Lists ys := fun y hmem => by
      obtain ⟨v, -, hv⟩ := Checked.exists_of_mem_mapM hy hmem
      exact mem_startValue hv
    have hset : Tableau.Over L.numbers { t with
        split
        nonBasicValues := ys
        basicValues := Scalar.zeros t.rowCount
        standings := List.replicate t.rowCount .between } :=
      ⟨ht.matrix, ht.rightHandSide, hys, ht.lowers, ht.uppers, ht.column, ht.weights⟩
    refine (Alike.refactor (L := L) ⟨rfl, hf, hs, hj⟩ hset.matrix).bind fun r r' hr _ hrr => ?_
    obtain ⟨outcome, v⟩ := r
    obtain ⟨_, v'⟩ := r'
    obtain ⟨rfl, hv⟩ := hrr
    cases outcome with
    | error cause => exact .ok ⟨rfl, hv⟩
    | ok _ =>
      -- the values and the prices of the start are computed from what is alike
      have hover := hset.refactor hr
      have hready : Tableau.Over L.numbers { v with hasBasis := true, plan := .none } :=
        ⟨hover.matrix, hover.rightHandSide, hover.nonBasicValues, hover.lowers, hover.uppers,
          fun _ hx => absurd hx List.not_mem_nil, hover.weights⟩
      have hplain : Alike L { v with hasBasis := true, plan := .none }
          { v' with hasBasis := true, plan := .none } := by
        obtain ⟨f', j', s', rfl, hf', hs', hj'⟩ := hv.cases
        exact ⟨rfl, hf', hs', hj'⟩
      refine (hplain.computeValues hready).bind fun w w' hw _ hww => ?_
      refine (hww.computePrices (hready.computeValues hw).weights).bind fun x x' _ _ hx => ?_
      rw [hx.requireConsistent]
      exact .step _ fun _ _ => .ok ⟨rfl, hx⟩

/-- **A start from a basis.** -/
theorem startFrom (h : Alike L t u) (ht : t.Over L.numbers) (vs : List Nat) :
    Agree (AlikeWith L) (t.startFrom vs) (u.startFrom vs) := by
  have hsame := h
  obtain ⟨f, j, s, rfl, hf, hs, hj⟩ := h.cases
  dsimp only [Tableau.startFrom]
  cases vs.find? fun v => decide (t.varCount ≤ v) with
  | some v => exact .ok ⟨rfl, hsame⟩
  | none =>
    dsimp only
    split
    · exact .ok ⟨rfl, hsame⟩
    · refine (Alike.assignRows (L := L) ⟨rfl, hf, hs, hj⟩ vs).bind fun v v' hv _ hvv =>
        hvv.start (over_of_assignRows ?_ hv)
      exact ⟨ht.matrix, ht.rightHandSide, ht.nonBasicValues, ht.lowers, ht.uppers, ht.column,
        ht.weights⟩

/-! ## §3.  Snapshots -/

theorem save (h : Alike L t u) : Agree (AlikeWith L) t.save u.save := by
  obtain ⟨f, j, s, rfl, hf, hs, hj⟩ := h.cases
  exact .step t.requireBasis fun _ _ => .ok ⟨rfl, rfl, hf, hs, hj.add _ _⟩

/-- **A return to a saved state.** -/
theorem restore (h : Alike L t u) {saved : State α} (hsaved : saved.matrix.Over L.numbers) :
    Agree (AlikeWith L) (t.restore saved) (u.restore saved) := by
  rw [restore_eq_refresh, restore_eq_refresh]
  have hremark := h.remark (.restoring saved.rowCount saved.varCount)
    (.restoring saved.rowCount saved.varCount)
  obtain ⟨f, j, s, rfl, hf, hs, hj⟩ := h.cases
  refine .step saved.basisColumns fun columns hc => ?_
  have hrefresh := L.refresh hf (basisColumns_over hsaved hc)
  dsimp only [Tableau.remark] at *
  generalize t.inverse.refresh columns = x, f.refresh columns = y at hrefresh
  cases hrefresh with
  | ok related =>
    refine .step _ fun _ _ => .ok ⟨rfl, tellSize ⟨rfl, related, hs, hj.add _ _⟩⟩
  | error cause => exact .ok ⟨rfl, hremark⟩

/-! ## §4.  Growing and merging -/

theorem extendState (h : Alike L t u) (e : LinearEquation α) (l b x : α) :
    Agree (AlikeWith L) (t.extendState e l b x) (u.extendState e l b x) := by
  obtain ⟨f, j, s, rfl, hf, hs, hj⟩ := h.cases
  refine .step (extendMatrix t.matrix e t.split.positions.length) fun matrix _ =>
    .step (t.bounds.push l b) fun bounds _ => ?_
  exact (Alike.classifyAt ⟨rfl, hf, hs, hj⟩ _).bind fun _ _ _ _ hv => .ok ⟨rfl, hv⟩

/-- **A new equation.** -/
theorem addEquation (h : Alike L t u) (ht : t.matrix.Over L.numbers) {e : LinearEquation α}
    (he : ∀ term ∈ e.terms, L.numbers.mem term.coefficient) :
    Agree (AlikeWith L) (t.addEquation e) (u.addEquation e) := by
  have hsame := h
  -- The new row and column are put into one matrix, so the refresh is asked the same.
  have hextend := fun e' => (h.remark (.addingEquation e') (.addingEquation e')).extendState e'
  obtain ⟨f, j, s, rfl, hf, hs, hj⟩ := h.cases
  refine .step t.requireBasis fun _ _ => ?_
  dsimp only
  cases e.terms.find? fun term => decide (t.varCount ≤ term.var) with
  | some term => exact .ok ⟨rfl, hsame⟩
  | none =>
    refine .step (LinearEquation.residualBounds (e.rename t.merges.resolve) t.bounds.lower
      t.bounds.upper) fun interval _ => ?_
    obtain ⟨l, b⟩ := interval
    refine .step (LinearEquation.residual (e.rename t.merges.resolve) t.storedValue) fun x _ => ?_
    refine (hextend (e.rename t.merges.resolve) l b x).bind fun r r' hv _ hvv => ?_
    obtain ⟨aux, v⟩ := r
    obtain ⟨_, v'⟩ := r'
    obtain ⟨rfl, hvv⟩ := hvv
    have htold := ((((hvv.clearPlan.invalidatePrices.count .addedRows).tellSize).tellLower aux
      l).tellUpper aux b).tellValue aux x
    -- The terms keep their coefficients when they are renamed.
    have hmatrix : v.matrix.Over L.numbers := by
      obtain ⟨matrix, -, -, hm, -, -, -, rfl⟩ := of_extendState (t := t.remark _) hv
      refine extendMatrix_over ht (fun term hterm => ?_) hm
      obtain ⟨old, hold, rfl⟩ := List.mem_map.mp hterm
      exact he old hold
    refine (htold.refactor hmatrix).bind fun r r' _ _ hrr => ?_
    obtain ⟨outcome, w⟩ := r
    obtain ⟨_, w'⟩ := r'
    obtain ⟨rfl, hw⟩ := hrr
    cases outcome with
    | error cause => exact .ok ⟨rfl, hw⟩
    | ok _ => exact .ok ⟨rfl, hw⟩

/-- Intersecting the bounds of two variables. -/
theorem intersectBounds (h : Alike L t u) (ht : t.Over L.numbers) (source target : Nat) :
    Agree (Alike L) (t.intersectBounds source target) (u.intersectBounds source target) := by
  -- The upper bounds, after whatever became of the lower ones.
  have hcut {w w' : Tableau α} (hw : Alike L w w') (hover : w.matrix.Over L.numbers) :
      Agree (Alike L)
        (do let x ← w.upperBound source
            if x < (← w.upperBound target) then w.tightenUpper target x else return w)
        (do let x ← w'.upperBound source
            if x < (← w'.upperBound target) then w'.tightenUpper target x else return w') := by
    have htighten := hw.tightenUpper hover target
    have hsame := hw
    obtain ⟨f, j, s, rfl, hf, hs, hj⟩ := hw.cases
    refine .step (w.upperBound source) fun x _ => .step (w.upperBound target) fun x' _ => ?_
    split
    · exact htighten x
    · exact .ok hsame
  have htighten := h.tightenLower ht.matrix target
  have hsame := h
  obtain ⟨f, j, s, rfl, hf, hs, hj⟩ := h.cases
  refine .step (t.lowerBound source) fun l hl => .step (t.lowerBound target) fun l' _ => ?_
  dsimp only
  split
  · next hlt =>
    exact (htighten l).bind fun w w' hw _ hww =>
      hcut hww (ht.tightenLower (ht.mem_lowerBound hl hlt) hw).matrix
  · exact hcut hsame ht.matrix

theorem freeze (h : Alike L t u) (v : Nat) : Agree (Alike L) (t.freeze v) (u.freeze v) := by
  have hlower := h.setLower v
  obtain ⟨f, j, s, rfl, hf, hs, hj⟩ := h.cases
  exact .step (t.split.positionOf v) fun k _ => .step (Checked.getAt t.nonBasicValues k) fun x _ =>
    (hlower x).bind fun _ _ _ _ hw => hw.setUpper v x

theorem fold (h : Alike L t u) (source target : Nat) :
    Agree (Alike L) (t.fold source target) (u.fold source target) := by
  obtain ⟨f, j, s, rfl, hf, hs, hj⟩ := h.cases
  exact .step (t.matrix.mergeColumns source target) fun _ _ =>
    .step (t.merges.record source target) fun _ _ => Alike.freeze ⟨rfl, hf, hs, hj⟩ source

/-- **A merge.** -/
theorem merge (h : Alike L t u) (ht : t.Over L.numbers) (source target : Nat) :
    Agree (AlikeWith L) (t.merge source target) (u.merge source target) := by
  have hsame := h
  have hintersect := (h.remark (.merging source target) (.merging source target)).intersectBounds
    ((silent_remark t _).over ht) source target
  obtain ⟨f, j, s, rfl, hf, hs, hj⟩ := h.cases
  refine .step t.requireBasis fun _ _ =>
    .step (Checked.require (source ≠ target) (.sameVariable source)) fun _ _ => ?_
  dsimp only [mergeFailure?]
  -- both sides make the same test
  generalize (if t.varCount ≤ source then _ else _ : Option Failure).or _ = refusal
  cases refusal with
  | some cause => exact .ok ⟨rfl, hsame⟩
  | none =>
    refine hintersect.bind fun v v' hv _ hvv => ?_
    have hover := ((silent_remark t _).over ht).intersectBounds hv
    refine (hvv.fold source target).bind fun w w' hw _ hww => ?_
    have hover := (silent_count w .mergedColumns).over (hover.fold hw)
    refine ((hww.count .mergedColumns).refactor hover.matrix).bind fun r r' hr _ hrr => ?_
    obtain ⟨outcome, x⟩ := r
    obtain ⟨_, x'⟩ := r'
    obtain ⟨rfl, hx⟩ := hrr
    cases outcome with
    | error cause => exact .ok ⟨rfl, hx⟩
    | ok _ => exact (hx.computeValues (hover.refactor hr)).bind fun y y' _ _ hy => .ok ⟨rfl, hy⟩

end Alike

/-! ## §5.  One operation -/

theorem agree_replyDone {x y : Checked (Tableau α)} (h : Agree (Alike L) x y) :
    Agree (AlikeWith L) (replyDone x) (replyDone y) :=
  h.bind fun _ _ _ _ hw => .ok ⟨rfl, hw⟩

theorem agree_replyAttempt {β : Type} {success : β → Reply α} {x y : Attempt α β}
    (h : Agree (AlikeWith L) x y) :
    Agree (AlikeWith L) (replyAttempt success x) (replyAttempt success y) := by
  refine h.bind fun r r' _ _ hrr => ?_
  obtain ⟨outcome, w⟩ := r
  obtain ⟨_, w'⟩ := r'
  obtain ⟨rfl, hw⟩ := hrr
  cases outcome with
  | ok b => exact .ok ⟨rfl, hw⟩
  | error cause => exact .ok ⟨rfl, hw⟩

/-- **Every operation** has the same outcome on tableaux that are alike, and leaves them alike. -/
theorem Alike.perform (h : Alike L t u) (ht : t.Over L.numbers) {op : Operation α}
    (hop : op.Over L.numbers)
    (hfollows : ∀ i, t.plan.leaving = some (.basic i) → L.follows t.plan.column)
    (hpivot : op = .performPivot → ∀ v w, t.turn = .ok v → u.turn = .ok w → Alike L v w →
      Agree (Alike L) v.finish w.finish)
    (hdegenerate : op = .performDegenerate → ∀ v w, t.turnDegenerate = .ok v →
      u.turnDegenerate = .ok w → Alike L v w → Agree (Alike L) v.finish w.finish) :
    Agree (AlikeWith L) (t.perform op) (u.perform op) := by
  have hm := ht.matrix
  cases op with
  | setSize m n => exact agree_replyDone (h.setSize m n)
  | setCoefficients xs => exact agree_replyDone (h.setCoefficients xs)
  | setCoefficient i j x => exact agree_replyDone (h.setCoefficient i j x)
  | setRightHandSide xs => exact agree_replyDone (h.setRightHandSide xs)
  | setRightHandSideAt i x => exact agree_replyDone (h.setRightHandSideAt i x)
  | setLower v x => exact agree_replyDone (h.setLower v x)
  | setUpper v x => exact agree_replyDone (h.setUpper v x)
  | tightenLower v x => exact agree_replyDone (h.tightenLower hm v x)
  | tightenUpper v x => exact agree_replyDone (h.tightenUpper hm v x)
  | checkBounds v =>
    exact (h.checkBounds v).bind fun _ _ _ _ hw => .ok ⟨congrArg Reply.flag hw.1, hw.2⟩
  | checkAllBounds =>
    exact h.checkAllBounds.bind fun _ _ _ _ hw => .ok ⟨congrArg Reply.flag hw.1, hw.2⟩
  | markBasic v => exact agree_replyDone (h.markBasic v)
  | assignRow v i => exact agree_replyDone (h.assignRow v i)
  | startFrom vs => exact agree_replyAttempt (h.startFrom ht vs)
  | start => exact agree_replyAttempt (h.start ht)
  | refactor => exact agree_replyAttempt (h.refactor hm)
  | addEquation e => exact agree_replyAttempt (h.addEquation hm hop)
  | merge source target => exact agree_replyAttempt (h.merge ht source target)
  | computeValues => exact agree_replyDone (h.computeValues ht)
  | classifyAll => exact agree_replyDone h.classifyAll
  | classify v => exact agree_replyDone (h.classify v)
  | classifyAt i => exact agree_replyDone (h.classifyAt i)
  | setSettled settled => exact agree_replyDone (.ok (h.setSettled settled))
  | moveNonBasic v x follow => exact agree_replyDone (h.moveNonBasic hm v x follow)
  | computePrices => exact agree_replyDone (h.computePrices ht.weights)
  | usePricing rule => exact agree_replyDone (.ok (h.usePricing rule))
  | computeMultipliers costs => exact agree_replyDone (h.computeMultipliers hop)
  | chooseEntering rule =>
    refine (h.chooseEntering rule).bind fun r r' _ _ hrr => ?_
    obtain ⟨found, next, w⟩ := r
    obtain ⟨_, _, w'⟩ := r'
    obtain ⟨rfl, rfl, hw⟩ := hrr
    exact .ok ⟨rfl, hw⟩
  | selectEntering j => exact agree_replyDone (h.selectEntering j)
  | selectLeaving i => exact agree_replyDone (h.selectLeaving i)
  | setDistance x => exact agree_replyDone (h.setDistance x)
  | setColumn column => exact agree_replyDone (h.setColumn column)
  | computeColumn => exact agree_replyDone (h.computeColumn hm)
  | chooseLeaving => exact agree_replyDone h.chooseLeaving
  | standardRatioTest => exact agree_replyDone h.standardRatioTest
  | harrisRatioTest => exact agree_replyDone h.harrisRatioTest
  | computeRow => exact agree_replyDone h.computeRow
  | performPivot =>
    refine agree_replyDone ?_
    rw [performPivot_eq, performPivot_eq]
    exact (h.turn ht.column hfollows).bind (hpivot rfl)
  | performDegenerate =>
    refine agree_replyDone ?_
    rw [performDegenerate_eq, performDegenerate_eq]
    exact (h.turnDegenerate ht.column hfollows).bind (hdegenerate rfl)
  | save => exact h.save.bind fun _ _ _ _ hw => .ok ⟨congrArg Reply.saved hw.1, hw.2⟩
  | restore s => exact agree_replyAttempt (h.restore hop)

end BoundedSimplex.Tableau
