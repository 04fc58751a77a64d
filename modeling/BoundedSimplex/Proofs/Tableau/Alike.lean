/-
  BoundedSimplex.Proofs.Tableau.Alike — two tableaux that nothing can tell apart.

  Two tableaux are alike if they differ in no more than their journals, their statistics, and the
  representations of their inverses, which have to answer every question alike.  An operation that
  is performed on both has the same outcome, and leaves them alike.

  What it means that representations answer alike is a parameter, and so are the numbers that may be
  asked about: `Likeness` lists what an instance has to provide.

  Main results:
    * `Alike.computeValues`, `Alike.moveNonBasic`, `Alike.tightenLower`,
      `Alike.tightenUpper` — values;
    * `Alike.computePrices`, `Alike.chooseEntering`, `Alike.chooseLeaving` — selections;
    * `Alike.refactor` — fresh starts.
-/
import BoundedSimplex.Proofs.Agree
import BoundedSimplex.Proofs.NumberSet

namespace BoundedSimplex

variable {α : Type} [Scalar α]

/-! ## §1.  What may differ -/

/-- The journals went on alike since `p` and `q`: the same notices and the same exchanges. -/
structure Journal.ToldAlike (p q j k : Journal α) : Prop where
  notices : ∃ told, j.notices = p.notices ++ told ∧ k.notices = q.notices ++ told
  exchanges : ∃ records, j.exchanges = p.exchanges ++ records ∧ k.exchanges = q.exchanges ++ records

namespace Journal.ToldAlike

variable {p q j k : Journal α}

omit [Scalar α] in
theorem refl (p q : Journal α) : ToldAlike p q p q :=
  ⟨⟨[], by simp, by simp⟩, ⟨[], by simp, by simp⟩⟩

omit [Scalar α] in
theorem tell (h : ToldAlike p q j k) (watchers : List Watcher) (notice : Notice α) :
    ToldAlike p q (j.tell watchers notice) (k.tell watchers notice) := by
  obtain ⟨⟨told, hj, hk⟩, he⟩ := h
  refine ⟨⟨told ++ watchers.map fun w => (w, notice), ?_, ?_⟩, he⟩
  · rw [Journal.tell, hj, List.append_assoc]
  · rw [Journal.tell, hk, List.append_assoc]

omit [Scalar α] in
/-- Remarks are not compared. -/
theorem add (h : ToldAlike p q j k) (r r' : Remark α) : ToldAlike p q (j.add r) (k.add r') :=
  ⟨h.notices, h.exchanges⟩

omit [Scalar α] in
theorem addExchange (h : ToldAlike p q j k) (e : ExchangeRecord α) :
    ToldAlike p q (j.addExchange e) (k.addExchange e) := by
  obtain ⟨hn, ⟨records, hj, hk⟩⟩ := h
  refine ⟨hn, ⟨records ++ [e], ?_, ?_⟩⟩
  · rw [Journal.addExchange, hj, List.append_assoc]
  · rw [Journal.addExchange, hk, List.append_assoc]

end Journal.ToldAlike

/-- When representations answer alike, about which numbers they are asked, and which statistics
    count as alike.  The journals are compared from two given ones on. -/
structure Likeness (α : Type) [Scalar α] where
  /-- The numbers that may be asked about. -/
  numbers : NumberSet α
  /-- The change columns that both representations can follow. -/
  follows : List α → Prop
  inverse : BasisInverse α → BasisInverse α → Prop
  statistics : Option Statistics → Option Statistics → Prop
  first : Journal α
  second : Journal α
  size : ∀ {f g}, inverse f g → g.size = f.size
  solveColumn : ∀ {f g y}, inverse f g → numbers.Lists y → g.solveColumn y = f.solveColumn y
  solveRow : ∀ {f g y}, inverse f g → numbers.Lists y → g.solveRow y = f.solveRow y
  update : ∀ {f g i column}, inverse f g → numbers.Lists column → follows column →
    (∀ x, column[i]? = some x → ¬(x == 0) = true) →
    Agree inverse (f.update i column) (g.update i column)
  refresh : ∀ {f g columns}, inverse f g → (∀ c ∈ columns, numbers.Lists c) →
    Agree inverse (f.refresh columns) (g.refresh columns)
  count : ∀ {s s'} (c : Counter), statistics s s' →
    statistics (s.map (·.increment c)) (s'.map (·.increment c))
  restart : statistics (some .zero) (some .zero)

variable {L : Likeness α}

/-- Costs are asked for at the weights of the rule, or at the slopes of the violations. -/
theorem Pricing.compute_congr {f g : BasisInverse α} (hfg : L.inverse f g)
    (p : Pricing α) (hw : ∀ weights, p.rule = .weighted weights → L.numbers.Lists weights)
    (standings : List Standing) (nonBasic : List Nat) (matrix : SystemMatrix α) :
    p.compute ⟨standings, nonBasic, matrix, g⟩ = p.compute ⟨standings, nonBasic, matrix, f⟩ := by
  unfold Pricing.compute Pricing.price
  dsimp only
  rw [L.size hfg]
  cases hrule : p.rule with
  | infeasibility =>
    dsimp only
    rw [L.solveRow hfg (NumberSet.lists_costs standings)]
    rfl
  | fixed costs => rfl
  | weighted weights =>
    dsimp only
    rw [L.solveRow hfg (NumberSet.lists_fit _ (hw weights hrule))]
    rfl

namespace Tableau

/-- The tableaux differ in no more than representations that answer alike, statistics that count as
    alike, and journals that went on alike. -/
structure Alike (L : Likeness α) (t u : Tableau α) : Prop where
  same : u = { t with inverse := u.inverse, journal := u.journal, statistics := u.statistics }
  inverse : L.inverse t.inverse u.inverse
  statistics : L.statistics t.statistics u.statistics
  journal : Journal.ToldAlike L.first L.second t.journal u.journal

/-- The same result beside tableaux that are alike. -/
def AlikeWith {β : Type} (L : Likeness α) (r s : β × Tableau α) : Prop :=
  r.1 = s.1 ∧ Alike L r.2 s.2

variable {t u : Tableau α}

/-- The other tableau is this one, with other representations, journals and statistics. -/
theorem Alike.cases (h : Alike L t u) : ∃ inverse journal statistics,
    u = { t with inverse, journal, statistics } ∧ L.inverse t.inverse inverse
      ∧ L.statistics t.statistics statistics
      ∧ Journal.ToldAlike L.first L.second t.journal journal :=
  ⟨u.inverse, u.journal, u.statistics, h.same, h.inverse, h.statistics, h.journal⟩

namespace Alike

theorem toState (h : Alike L t u) : u.toState = t.toState := by
  rw [h.same]

theorem plan (h : Alike L t u) : u.plan = t.plan := by
  rw [h.same]

/-! ## §2.  Telling and counting -/

theorem remark (h : Alike L t u) (r r' : Remark α) : Alike L (t.remark r) (u.remark r') := by
  obtain ⟨f, j, s, rfl, hf, hs, hj⟩ := h.cases
  exact ⟨rfl, hf, hs, hj.add r r'⟩

theorem remarkIf (h : Alike L t u) (b : Bool) (r : Remark α) :
    Alike L (t.remarkIf b r) (u.remarkIf b r) := by
  cases b with
  | true => exact h.remark r r
  | false => exact h

theorem tellValue (h : Alike L t u) (v : Nat) (x : α) :
    Alike L (t.tellValue v x) (u.tellValue v x) := by
  obtain ⟨f, j, s, rfl, hf, hs, hj⟩ := h.cases
  exact ⟨rfl, hf, hs, hj.tell _ _⟩

theorem tellLower (h : Alike L t u) (v : Nat) (x : α) :
    Alike L (t.tellLower v x) (u.tellLower v x) := by
  obtain ⟨f, j, s, rfl, hf, hs, hj⟩ := h.cases
  exact ⟨rfl, hf, hs, hj.tell _ _⟩

theorem tellUpper (h : Alike L t u) (v : Nat) (x : α) :
    Alike L (t.tellUpper v x) (u.tellUpper v x) := by
  obtain ⟨f, j, s, rfl, hf, hs, hj⟩ := h.cases
  exact ⟨rfl, hf, hs, hj.tell _ _⟩

theorem tellSize (h : Alike L t u) : Alike L t.tellSize u.tellSize := by
  obtain ⟨f, j, s, rfl, hf, hs, hj⟩ := h.cases
  exact ⟨rfl, hf, hs, hj.tell _ _⟩

theorem tellValues (h : Alike L t u) (ps : List (Nat × α)) :
    Alike L (t.tellValues ps) (u.tellValues ps) := by
  unfold Tableau.tellValues
  induction ps generalizing t u with
  | nil => exact h
  | cons p ps ih => exact ih (h.tellValue p.1 p.2)

theorem count (h : Alike L t u) (c : Counter) : Alike L (t.count c) (u.count c) := by
  obtain ⟨f, j, s, rfl, hf, hs, hj⟩ := h.cases
  exact ⟨rfl, hf, L.count c hs, hj⟩

theorem invalidatePrices (h : Alike L t u) : Alike L t.invalidatePrices u.invalidatePrices := by
  obtain ⟨f, j, s, rfl, hf, hs, hj⟩ := h.cases
  exact ⟨rfl, hf, hs, hj⟩

theorem clearPlan (h : Alike L t u) : Alike L t.clearPlan u.clearPlan := by
  obtain ⟨f, j, s, rfl, hf, hs, hj⟩ := h.cases
  exact ⟨rfl, hf, hs, hj⟩

theorem setSettled (h : Alike L t u) (b : Bool) : Alike L (t.setSettled b) (u.setSettled b) := by
  obtain ⟨f, j, s, rfl, hf, hs, hj⟩ := h.cases
  exact ⟨rfl, hf, hs, hj⟩

theorem usePricing (h : Alike L t u) (rule : PricingRule α) :
    Alike L (t.usePricing rule) (u.usePricing rule) := by
  obtain ⟨f, j, s, rfl, hf, hs, hj⟩ := h.cases
  exact ⟨rfl, hf, hs, hj⟩

/-! ## §3.  The inverse -/

/-- **A fresh start.** -/
theorem refactor (h : Alike L t u) (ht : t.matrix.Over L.numbers) :
    Agree (AlikeWith L) t.refactor u.refactor := by
  rw [refactor_eq_refresh, refactor_eq_refresh]
  obtain ⟨f, j, s, rfl, hf, hs, hj⟩ := h.cases
  refine .step t.basisColumns fun columns hc => ?_
  have hrefresh := L.refresh hf (basisColumns_over ht hc)
  dsimp only
  generalize t.inverse.refresh columns = x, f.refresh columns = y at hrefresh
  cases hrefresh with
  | ok related => exact .ok ⟨rfl, count ⟨rfl, related, hs, hj.add _ _⟩ .refactorizations⟩
  | error cause => exact .ok ⟨rfl, ⟨rfl, hf, hs, hj.add _ _⟩⟩

theorem computeMultipliers (h : Alike L t u) {costs : List α} (hc : L.numbers.Lists costs) :
    Agree (Alike L) (t.computeMultipliers costs) (u.computeMultipliers costs) := by
  obtain ⟨f, j, s, rfl, hf, hs, hj⟩ := h.cases
  unfold Tableau.computeMultipliers
  dsimp only
  rw [L.solveRow hf hc]
  exact .step _ fun _ _ => .step _ fun _ _ => .ok ⟨rfl, hf, hs, hj⟩

theorem solvedRow (h : Alike L t u) (i : Nat) : u.solvedRow i = t.solvedRow i := by
  obtain ⟨f, j, s, rfl, hf, hs, hj⟩ := h.cases
  unfold Tableau.solvedRow
  dsimp only [State.rowCount]
  rw [L.solveRow hf (NumberSet.lists_unit _ _)]

/-! ## §4.  Values -/

theorem classifyAt (h : Alike L t u) (i : Nat) :
    Agree (Alike L) (t.classifyAt i) (u.classifyAt i) := by
  obtain ⟨f, j, s, rfl, hf, hs, hj⟩ := h.cases
  exact .step (t.standingAt t.settings.boundTolerance i) fun standing _ =>
    .step (Checked.setAt t.standings i standing) fun _ _ => .ok ⟨rfl, hf, hs, hj⟩

theorem classify (h : Alike L t u) (v : Nat) : Agree (Alike L) (t.classify v) (u.classify v) := by
  have hc := h.classifyAt
  obtain ⟨f, j, s, rfl, hf, hs, hj⟩ := h.cases
  exact .step (t.requireBasic v) fun _ _ => .step (t.split.positionOf v) fun i _ => hc i

theorem classifyAll (h : Alike L t u) : Agree (Alike L) t.classifyAll u.classifyAll := by
  obtain ⟨f, j, s, rfl, hf, hs, hj⟩ := h.cases
  refine .step (Checked.require (t.rowCount ≤ t.standings.length) _) fun _ _ => ?_
  exact .step (t.allStandings t.settings.boundTolerance) fun _ _ => .ok ⟨rfl, hf, hs, hj⟩

theorem basicPairs (h : Alike L t u) : u.basicPairs = t.basicPairs := by
  obtain ⟨f, j, s, rfl, hf, hs, hj⟩ := h.cases
  rfl

theorem movedPairs (h : Alike L t u) (column : List α) :
    u.movedPairs column = t.movedPairs column := by
  obtain ⟨f, j, s, rfl, hf, hs, hj⟩ := h.cases
  rfl

/-- **All basic values at once.** -/
theorem computeValues (h : Alike L t u) (ht : t.Over L.numbers) :
    Agree (Alike L) t.computeValues u.computeValues := by
  obtain ⟨f, j, s, rfl, hf, hs, hj⟩ := h.cases
  unfold Tableau.computeValues
  dsimp only
  rw [L.size hf]
  refine .step _ fun _ _ => .step t.remainder fun rhs hr => ?_
  rw [L.solveColumn hf (ht.remainder hr)]
  refine .step _ fun xs _ => ?_
  have hset : Alike L { t with basicValues := xs, settled := true }
      { t with inverse := f, journal := j, statistics := s, basicValues := xs, settled := true } :=
    ⟨rfl, hf, hs, hj⟩
  refine ((hset.count .assignmentComputations).classifyAll).bind fun v w _ _ hvw => ?_
  rw [hvw.invalidatePrices.basicPairs]
  exact .step _ fun pairs _ => .ok (hvw.invalidatePrices.tellValues pairs)

theorem followMove (h : Alike L t u) (ht : t.matrix.Over L.numbers) (v : Nat) (δ : α) :
    Agree (Alike L) (t.followMove v δ) (u.followMove v δ) := by
  unfold Tableau.followMove
  split
  · exact .ok h
  · obtain ⟨f, j, s, rfl, hf, hs, hj⟩ := h.cases
    dsimp only
    refine .step (t.matrix.column v) fun c hc => ?_
    rw [L.solveColumn hf (ht.column hc)]
    refine .step _ fun column _ => ?_
    have hshift : Alike L { t with basicValues := shift δ t.basicValues column }
        { t with inverse := f, journal := j, statistics := s
                 basicValues := shift δ t.basicValues column } := ⟨rfl, hf, hs, hj⟩
    rw [hshift.movedPairs]
    exact .step _ fun pairs _ => (hshift.tellValues pairs).classifyAll

/-- **One non-basic variable moves.** -/
theorem moveNonBasic (h : Alike L t u) (ht : t.matrix.Over L.numbers) (v : Nat) (x : α)
    (follow : Bool) :
    Agree (Alike L) (t.moveNonBasic v x follow) (u.moveNonBasic v x follow) := by
  obtain ⟨f, j, s, rfl, hf, hs, hj⟩ := h.cases
  refine .step (Checked.require (t.split.isBasic v = false) (.wrongRole v)) fun _ _ =>
    .step (t.split.positionOf v) fun k _ => .step (Checked.getAt t.nonBasicValues k) fun old _ => ?_
  have hset : Alike L { t with nonBasicValues := t.nonBasicValues.set k x }
      { t with inverse := f, journal := j, statistics := s
               nonBasicValues := t.nonBasicValues.set k x } := ⟨rfl, hf, hs, hj⟩
  have htold := (hset.remark (.movingNonBasic v x) (.movingNonBasic v x)).tellValue v x
  cases follow with
  | true => exact (htold.followMove ht v (x - old)).bind fun _ _ _ _ hw => .ok hw.invalidatePrices
  | false => exact .ok (htold.setSettled false).invalidatePrices

/-! ## §5.  Bounds -/

theorem setLower (h : Alike L t u) (v : Nat) (x : α) :
    Agree (Alike L) (t.setLower v x) (u.setLower v x) := by
  obtain ⟨f, j, s, rfl, hf, hs, hj⟩ := h.cases
  refine .step (t.requireVariable v) fun _ _ => .step (t.bounds.setLower v x) fun bounds _ => ?_
  exact .ok (tellLower ⟨rfl, hf, hs, hj⟩ v x)

theorem setUpper (h : Alike L t u) (v : Nat) (x : α) :
    Agree (Alike L) (t.setUpper v x) (u.setUpper v x) := by
  obtain ⟨f, j, s, rfl, hf, hs, hj⟩ := h.cases
  refine .step (t.requireVariable v) fun _ _ => .step (t.bounds.setUpper v x) fun bounds _ => ?_
  exact .ok (tellUpper ⟨rfl, hf, hs, hj⟩ v x)

theorem checkBounds (h : Alike L t u) (v : Nat) :
    Agree (AlikeWith L) (t.checkBounds v) (u.checkBounds v) := by
  obtain ⟨f, j, s, rfl, hf, hs, hj⟩ := h.cases
  exact .step (t.bounds.check v) fun _ _ => .ok ⟨rfl, rfl, hf, hs, hj⟩

theorem checkAllBounds (h : Alike L t u) :
    Agree (AlikeWith L) t.checkAllBounds u.checkAllBounds := by
  obtain ⟨f, j, s, rfl, hf, hs, hj⟩ := h.cases
  exact .step t.bounds.checkAll fun _ _ => .ok ⟨rfl, rfl, hf, hs, hj⟩

theorem restand (h : Alike L t u) (i : Nat) : Agree (Alike L) (t.restand i) (u.restand i) := by
  unfold Tableau.restand
  rw [h.toState]
  refine .step _ fun before _ => (h.classifyAt i).bind fun v w _ _ hvw => ?_
  rw [hvw.toState]
  refine .step _ fun after _ => ?_
  split
  · exact .ok hvw
  · exact .ok hvw.invalidatePrices

/-- Enforcing a bound branches on what is alike: the role of the variable and its value. -/
theorem enforce (h : Alike L t u) (ht : t.matrix.Over L.numbers) (v : Nat) (bound : α)
    (violated : α → Bool) :
    Agree (Alike L) (t.enforce v bound violated) (u.enforce v bound violated) := by
  have hcount := h.count .boundTightenings
  have hrestand := hcount.restand
  have hmove := hcount.moveNonBasic ht v bound true
  obtain ⟨f, j, s, rfl, hf, hs, hj⟩ := h.cases
  unfold Tableau.enforce
  dsimp only [Tableau.count] at *
  split
  · refine .step _ fun i _ => ?_
    split
    · exact hrestand i
    · refine .step _ fun x _ => ?_
      split
      · exact hmove
      · exact .ok hcount
  · exact .ok hcount

theorem tightenLower (h : Alike L t u) (ht : t.matrix.Over L.numbers) (v : Nat) (x : α) :
    Agree (Alike L) (t.tightenLower v x) (u.tightenLower v x) := by
  refine ((h.remark _ _).setLower v x).bind fun w w' hw _ halike => ?_
  obtain ⟨bounds, -, hsil⟩ := setLower_spec hw
  have hmatrix : w.matrix = t.matrix := by rw [hsil.toState]; rfl
  exact halike.enforce (hmatrix ▸ ht) v x _

theorem tightenUpper (h : Alike L t u) (ht : t.matrix.Over L.numbers) (v : Nat) (x : α) :
    Agree (Alike L) (t.tightenUpper v x) (u.tightenUpper v x) := by
  refine ((h.remark _ _).setUpper v x).bind fun w w' hw _ halike => ?_
  obtain ⟨bounds, -, hsil⟩ := setUpper_spec hw
  have hmatrix : w.matrix = t.matrix := by rw [hsil.toState]; rfl
  exact halike.enforce (hmatrix ▸ ht) v x _

/-! ## §6.  Costs and the entering variable -/

theorem computePrices (h : Alike L t u)
    (hw : ∀ weights, t.pricing.rule = .weighted weights → L.numbers.Lists weights) :
    Agree (Alike L) t.computePrices u.computePrices := by
  obtain ⟨f, j, s, rfl, hf, hs, hj⟩ := h.cases
  refine .step t.requireBasis fun _ _ => ?_
  dsimp only [pricingView]
  rw [Pricing.compute_congr hf t.pricing hw]
  exact .step _ fun _ _ => .ok ⟨rfl, hf, hs, hj⟩

/-- Following an exchange reads the row and the costs, which are alike. -/
theorem followExchange (h : Alike L t u) (entering leaving : Nat) (element : α) :
    Agree (Alike L) (t.followExchange entering leaving element)
      (u.followExchange entering leaving element) := by
  have hmissing := (h.remark (.rowMissing leaving) (.rowMissing leaving)).invalidatePrices
  obtain ⟨f, j, s, rfl, hf, hs, hj⟩ := h.cases
  unfold Tableau.followExchange
  dsimp only
  split
  · next row _ =>
    split
    · refine .step _ fun r _ => .ok (remarkIf ?_ r.2 .basicCostChanged)
      obtain ⟨pricing, changed⟩ := r
      refine ⟨rfl, hf, hs, ?_⟩
      dsimp only
      split
      · exact hj.addExchange _
      · exact hj
    · exact .ok hmissing
  · exact .ok hmissing

theorem selectEntering (h : Alike L t u) (k : Nat) :
    Agree (Alike L) (t.selectEntering k) (u.selectEntering k) := by
  obtain ⟨f, j, s, rfl, hf, hs, hj⟩ := h.cases
  exact .step (Checked.require (k < t.nonBasicCount) (.outOfRange k t.nonBasicCount)) fun _ _ =>
    .ok ⟨rfl, hf, hs, hj⟩

theorem chooseEntering (h : Alike L t u) (rule : EnteringRule) :
    Agree (fun r s => r.1 = s.1 ∧ AlikeWith L r.2 s.2) (t.chooseEntering rule)
      (u.chooseEntering rule) := by
  have hselect := h.selectEntering
  have hsame := h
  obtain ⟨f, j, s, rfl, hf, hs, hj⟩ := h.cases
  refine .step t.candidates fun candidates _ =>
    .step (rule.choose candidates t.pricing.costs) fun r _ => ?_
  obtain ⟨chosen, next⟩ := r
  cases chosen with
  | some k => exact (hselect k).bind fun _ _ _ _ hw => .ok ⟨rfl, rfl, hw⟩
  | none => exact .ok ⟨rfl, rfl, hsame⟩

/-! ## §7.  The leaving variable -/

theorem selectLeaving (h : Alike L t u) (i : Nat) :
    Agree (Alike L) (t.selectLeaving i) (u.selectLeaving i) := by
  obtain ⟨f, j, s, rfl, hf, hs, hj⟩ := h.cases
  exact .step (Checked.require (i < t.rowCount) (.outOfRange i t.rowCount)) fun _ _ =>
    .ok ⟨rfl, hf, hs, hj⟩

theorem setDistance (h : Alike L t u) (x : α) :
    Agree (Alike L) (t.setDistance x) (u.setDistance x) := by
  obtain ⟨f, j, s, rfl, hf, hs, hj⟩ := h.cases
  exact .step (Checked.require (x ≥ 0) .negativeDistance) fun _ _ => .ok ⟨rfl, hf, hs, hj⟩

theorem setColumn (h : Alike L t u) (column : List α) :
    Agree (Alike L) (t.setColumn column) (u.setColumn column) := by
  obtain ⟨f, j, s, rfl, hf, hs, hj⟩ := h.cases
  exact .step (Checked.require (column.length = t.rowCount)
    (.sizeMismatch column.length t.rowCount))
    fun _ _ => .ok ⟨rfl, hf, hs, hj⟩

theorem computeColumn (h : Alike L t u) (ht : t.matrix.Over L.numbers) :
    Agree (Alike L) t.computeColumn u.computeColumn := by
  obtain ⟨f, j, s, rfl, hf, hs, hj⟩ := h.cases
  refine .step t.enteringIndex fun k _ => .step (t.split.nonBasicAt k) fun v _ =>
    .step (t.matrix.column v) fun c hc => ?_
  dsimp only
  rw [L.solveColumn hf (ht.column hc)]
  exact .step _ fun _ _ => .ok ⟨rfl, hf, hs, hj⟩

theorem computeRow (h : Alike L t u) : Agree (Alike L) t.computeRow u.computeRow := by
  have hrow := h.solvedRow
  obtain ⟨f, j, s, rfl, hf, hs, hj⟩ := h.cases
  unfold Tableau.computeRow
  dsimp only
  split
  · next i _ =>
    rw [hrow i]
    exact .step _ fun _ _ => .ok ⟨rfl, hf, hs, hj⟩
  · exact .error _

theorem conclude (h : Alike L t u) (leaving : Leaving) (distance : α) (falls : Bool) :
    Agree (Alike L) (t.conclude leaving distance falls) (u.conclude leaving distance falls) := by
  obtain ⟨f, j, s, rfl, hf, hs, hj⟩ := h.cases
  exact .step (t.leavingRises leaving falls) fun _ _ => .ok ⟨rfl, hf, hs, hj⟩

theorem standardRatioTest (h : Alike L t u) :
    Agree (Alike L) t.standardRatioTest u.standardRatioTest := by
  have hend := h.conclude
  obtain ⟨f, j, s, rfl, hf, hs, hj⟩ := h.cases
  exact .step t.enteringFalls fun falls _ => .step (t.enteringRange falls) fun range _ =>
    .step (t.plan.column.zipIdx.foldlM (t.tighter falls) (.entering, range)) fun r _ =>
      hend r.1 r.2 falls

theorem harrisRatioTest (h : Alike L t u) :
    Agree (Alike L) t.harrisRatioTest u.harrisRatioTest := by
  have hend := h
  obtain ⟨f, j, s, rfl, hf, hs, hj⟩ := h.cases
  refine .step t.enteringFalls fun falls _ => .step (t.enteringRange falls) fun range _ =>
    .step (t.relaxedBound falls range) fun bound _ => ?_
  dsimp only
  split
  · exact hend.conclude _ _ _
  · refine .step (t.plan.column.zipIdx.foldlM (HarrisScan.look t falls bound)
      ⟨none, Scalar.infinity⟩) fun scan _ => ?_
    split
    · exact (hend.remarkIf _ _).conclude _ _ _
    · exact (hend.remark _ _).conclude _ _ _

/-- **The ratio test that the settings ask for.** -/
theorem chooseLeaving (h : Alike L t u) : Agree (Alike L) t.chooseLeaving u.chooseLeaving := by
  have hharris := h.harrisRatioTest
  have hstandard := h.standardRatioTest
  -- The outcome is written into the log after either test.
  have hend {w w' : Tableau α} (hw : Alike L w w') : Agree (Alike L)
      (do return w.remark (.ratioTest (w.plan.leaving.getD .entering) w.plan.distance
        (← w.split.nonBasicAt (← w.enteringIndex))))
      (do return w'.remark (.ratioTest (w'.plan.leaving.getD .entering) w'.plan.distance
        (← w'.split.nonBasicAt (← w'.enteringIndex)))) := by
    have hremark := hw.remark
    obtain ⟨f, j, s, rfl, hf, hs, hj⟩ := hw.cases
    exact .step w.enteringIndex fun k _ => .step (w.split.nonBasicAt k) fun v _ => .ok (hremark _ _)
  obtain ⟨f, j, s, rfl, hf, hs, hj⟩ := h.cases
  refine .step (Checked.require (t.plan.column.length = t.rowCount)
    (.sizeMismatch t.plan.column.length t.rowCount)) fun _ _ => ?_
  dsimp only
  split
  · exact hharris.bind fun w w' _ _ hw => hend hw
  · exact hstandard.bind fun w w' _ _ hw => hend hw

end Alike

end Tableau

end BoundedSimplex
