/- BoundedSimplex.Proofs.Tableau.Pivot — a pivot keeps a tableau steady, and sound
  if nothing is lost.

  A pivot of a tableau whose selections are in order either does nothing, or moves the entering
  variable onto one of its bounds, or exchanges it for the leaving variable, which lands on one of
  its own.  Only a landing can take an assignment away from the equations: the leaving variable is
  put on its bound exactly, while the move took it to within the tolerance of it.

  All of that can be told of steady tableaux.  A sound one stays sound if the inverse takes the
  whole change column into account.

  Main results:
    * `exchangePlaces_spec` — the inverse follows an exchange;
    * `performPivot_turns`, `performPivot_spec` — the three outcomes of a pivot;
    * `performDegenerate_spec` — an exchange without a move.
-/
import BoundedSimplex.Proofs.Tableau.RatioTest
import BoundedSimplex.Tableau.Pivot

namespace BoundedSimplex.Tableau

open Extended Matrix

variable {K : Type} [Field K] [LinearOrder K] {t u : Tableau (Extended K)}

/-! ## §1.  Parts of a pivot -/

/-- The signed distance of a move that is not without limit. -/
theorem change_eq {d : K} (h : t.plan.distance = fin d) :
    t.change = fin (if t.plan.enteringFalls then -d else d) := by
  unfold change
  rw [h]
  cases t.plan.enteringFalls
  · rfl
  · rfl

/-- The inverse loses nothing of the change column when it follows the selected exchange. -/
def KeepsColumn (t : Tableau (Extended K)) : Prop :=
  ∀ i (hi : i < t.rowCount), t.plan.leaving = some (.basic i) →
    t.inverse.Considers (⟨i, hi⟩ : Fin t.rowCount) fun k => coord t.plan.column k

instance (t : Tableau (Extended K)) : Decidable t.KeepsColumn :=
  inferInstanceAs (Decidable (∀ i (hi : i < t.rowCount), t.plan.leaving = some (.basic i) →
    t.inverse.Considers (⟨i, hi⟩ : Fin t.rowCount) fun k => coord t.plan.column k))

/-- The inverse is the inverse of the basis, and follows the exchange of the non-basic position `j`
    for the row `i` as it should. -/
structure Exact (t : Tableau (Extended K)) (j i : Nat) : Prop where
  solvable : t.Solvable
  ready : t.Ready j
  considers : ∀ hi : i < t.rowCount,
    t.inverse.Considers (⟨i, hi⟩ : Fin t.rowCount) fun k => coord t.plan.column k

/-- The row of the leaving variable of an exchange exists, and its entry is not zero. -/
theorem pivotElement_spec {i : Nat} (hc : Numbers t.rowCount t.plan.column) {element : Extended K}
    (h : t.pivotElement i = .ok element) :
    i < t.rowCount ∧ coord t.plan.column i ≠ 0 ∧ t.plan.column.getD i 0 = element := by
  obtain ⟨_, hlen, h⟩ := Checked.bind_eq_ok.mp h
  obtain ⟨x, hx, h⟩ := Checked.bind_eq_ok.mp h
  obtain ⟨_, hz, h⟩ := Checked.bind_eq_ok.mp h
  cases h
  have hlen : t.plan.column.length = t.rowCount := Checked.require_eq_ok.mp hlen
  have hget : t.plan.column[i]? = some element := Checked.getAt_eq_ok.mp hx
  have hz : ¬(element == 0) = true := Checked.require_eq_ok.mp hz
  have hi : i < t.rowCount := by
    rw [← hlen]
    exact (List.getElem?_eq_some_iff.mp hget).1
  rw [hc.getElem? hi] at hget
  obtain rfl := Option.some.inj hget
  rw [zero_eq, fin_beq, decide_eq_true_iff] at hz
  exact ⟨hi, hz, hc.getD hi⟩

theorem leavingRow_eq_ok {α : Type} [Scalar α] {t : Tableau α} {i : Nat}
    (h : t.leavingRow = .ok i) :
    t.plan.leaving = some (.basic i) := by
  unfold leavingRow at h
  split at h
  · next k hk =>
    cases h
    exact hk
  · cases h

/-- How the costs come through an exchange: they follow it if the row of the leaving variable is at
    hand, and go stale otherwise. -/
def Repriced {α : Type} [Scalar α] (t : Tableau α) (j i : Nat) (standings : List Standing)
    (pricing : Pricing α) : Prop :=
  (∃ row changed, t.plan.row = some row ∧ row.basicIndex = i
    ∧ t.pricing.follow ⟨j, i, t.plan.column.getD i 0, row, standings⟩ = .ok (pricing, changed))
  ∨ pricing = t.pricing.invalidate

/-- What an exchange does to the costs, by cases on the row at hand. -/
theorem followExchange_cases {α : Type} [Scalar α] {t u : Tableau α} {j i : Nat} {element : α}
    (he : t.plan.column.getD i 0 = element) (h : t.followExchange j i element = .ok u) :
    ∃ pricing, Silent { t with pricing } u
      ∧ ((∃ row changed, t.plan.row = some row ∧ row.basicIndex = i ∧ t.pricing.follow
          ⟨j, i, t.plan.column.getD i 0, row, t.standings⟩ = .ok (pricing, changed))
        ∨ (∀ row, t.plan.row = some row → row.basicIndex ≠ i)
        ∧ pricing = t.pricing.invalidate) := by
  subst he
  unfold followExchange at h
  split at h
  -- A row of another position is of no use, just as no row.
  · next row hrow =>
    by_cases hi : row.basicIndex = i
    · rw [if_pos hi] at h
      obtain ⟨⟨pricing, changed⟩, hp, h⟩ := Checked.bind_eq_ok.mp h
      cases h
      refine ⟨pricing, ?_, .inl ⟨row, changed, hrow, hi, hp⟩⟩
      exact Silent.trans ⟨_, _, rfl⟩ (silent_remarkIf _ changed .basicCostChanged)
    · rw [if_neg hi] at h
      cases h
      refine ⟨_, ⟨_, _, rfl⟩, .inr ⟨fun row' hrow' => ?_, rfl⟩⟩
      obtain rfl := Option.some.inj (hrow.symm.trans hrow')
      exact hi
  · next hnone =>
    cases h
    refine ⟨_, ⟨_, _, rfl⟩, .inr ⟨fun row hrow => ?_, rfl⟩⟩
    rw [hnone] at hrow
    cases hrow

theorem followExchange_spec {α : Type} [Scalar α] {t u : Tableau α} {j i : Nat} {element : α}
    (he : t.plan.column.getD i 0 = element) (h : t.followExchange j i element = .ok u) :
    ∃ pricing, Silent { t with pricing } u ∧ t.Repriced j i t.standings pricing := by
  obtain ⟨pricing, hs, hcases⟩ := followExchange_cases he h
  exact ⟨pricing, hs, hcases.imp_right And.right⟩

/-- The basis after an exchange is the one before with a column replaced, and the change column says
    by which combination of the old ones. -/
theorem basis_swapped (ht : t.toState.WellFormed) {j i : Nat} (hr : t.Ready j) (hi : i < t.rowCount)
    {xs ys : List (Extended K)} :
    State.basis { t.toState with
        split := t.split.swapped j i, basicValues := xs, nonBasicValues := ys }
      = t.toState.basis.updateCol (⟨i, hi⟩ : Fin t.rowCount)
          (t.toState.basis *ᵥ fun k : Fin t.rowCount => coord t.plan.column k) := by
  -- The solved column expresses that of the entering variable by the basis.
  have hcol : t.toState.basis *ᵥ (fun k : Fin t.rowCount => coord t.plan.column k)
      = fun r : Fin t.rowCount => t.matrix.coeff r (t.split.nonBasicVar j) := by
    funext r
    rw [← hr.column.2 r r.isLt, Finset.sum_range]
    rfl
  have hentry (r k : Fin t.rowCount) : t.matrix.coeff r ((t.split.swapped j i).basicVar k)
      = t.toState.basis.updateCol (⟨i, hi⟩ : Fin t.rowCount)
          (t.toState.basis *ᵥ fun k : Fin t.rowCount => coord t.plan.column k) r k := by
    rw [hcol, updateCol_apply, ht.split.basicVar_swapped hi]
    by_cases hk : k = (⟨i, hi⟩ : Fin t.rowCount)
    · rw [if_pos hk, if_pos (by rw [hk])]
    · rw [if_neg hk, if_neg fun e => hk (Fin.ext e)]
      rfl
  exact Matrix.ext hentry

/-- The inverse that follows is that of the new basis, wherever the values are put. -/
theorem Exact.inverse_swapped {j i : Nat} (ht : t.Exact j i) (hi : i < t.rowCount)
    (hd : coord t.plan.column i ≠ 0) {inverse : BasisInverse (Extended K)}
    (h : t.inverse.update i t.plan.column = .ok inverse) (xs ys : List (Extended K)) :
    IsUnit (State.basis { t.toState with
        split := t.split.swapped j i, basicValues := xs, nonBasicValues := ys })
      ∧ inverse.Represents (State.basis { t.toState with
        split := t.split.swapped j i, basicValues := xs, nonBasicValues := ys })⁻¹ := by
  have hcolumn : Numbers t.rowCount t.plan.column := ht.ready.column.1
  obtain ⟨hunit, g, hg, hrep⟩ := ht.solvable.inverse.exchange ht.solvable.unit (p := ⟨i, hi⟩) hd
    (ht.considers hi)
  rw [← hcolumn.eq_embed] at hg
  obtain rfl : g = inverse := Except.ok.inj (hg.symm.trans h)
  rw [basis_swapped ht.solvable.state ht.ready hi]
  exact ⟨hunit, hrep⟩

/-- **The inverse follows an exchange.** -/
theorem exchangePlaces_spec (ht : t.Answering) {j i : Nat} (hr : t.Primed j) {x y : K}
    (hd : coord t.plan.column i ≠ 0) {names : Nat × Nat}
    (h : t.exchangePlaces j i (fin x) (fin y) = .ok (names, u)) :
    i < t.rowCount ∧ u.Answering ∧ (t.Exact j i → u.Solvable) ∧ ∃ inverse, u = { t with
      split := t.split.swapped j i
      basicValues := t.basicValues.set i (fin x)
      nonBasicValues := t.nonBasicValues.set j (fin y)
      inverse } := by
  obtain ⟨⟨names', split⟩, hswap, h⟩ := Checked.bind_eq_ok.mp h
  obtain ⟨basicValues, hbasic, h⟩ := Checked.bind_eq_ok.mp h
  obtain ⟨nonBasicValues, hnon, h⟩ := Checked.bind_eq_ok.mp h
  obtain ⟨inverse, hupdate, h⟩ := Checked.bind_eq_ok.mp h
  obtain ⟨hi, rfl⟩ := Checked.setAt_eq_ok.mp hbasic
  obtain ⟨-, rfl⟩ := Checked.setAt_eq_ok.mp hnon
  rw [ht.state.basic.length] at hi
  rw [ht.state.split.swap_eq hr.lt hi] at hswap
  cases hswap
  cases h
  have hstate : State.WellFormed { t.toState with
      split := t.split.swapped j i
      basicValues := t.basicValues.set i (fin x)
      nonBasicValues := t.nonBasicValues.set j (fin y) } :=
    ⟨ht.state.matrix, ht.state.rhs, ht.state.bounds, ht.state.split.swap hr.lt hi,
      ht.state.basic.set i x, ht.state.nonBasic.set j y⟩
  refine ⟨hi, ⟨hstate, ?_⟩, fun hexact => ?_, inverse, rfl⟩
  -- The pivot element is not zero, so the inverse can be updated.
  · obtain ⟨W, hW⟩ := ht.answers
    obtain ⟨g, hg, hrep⟩ :=
      hW.update (p := ⟨i, hi⟩) (d := fun k : Fin t.rowCount => coord t.plan.column k) hd
    rw [← hr.numbers.eq_embed] at hg
    obtain rfl : g = inverse := Except.ok.inj (hg.symm.trans hupdate)
    exact ⟨_, hrep⟩
  · obtain ⟨hunit, hrep⟩ := hexact.inverse_swapped hi hd hupdate _ _
    exact ⟨hstate, hunit, hrep⟩

/-! ## §2.  Moving without an exchange -/

/-- **A move without an exchange** puts the entering variable on the bound ahead. -/
theorem jump_spec (ht : t.Steady) {j : Nat} (hr : t.Primed j) {d : K}
    (hd : t.enteringRange t.plan.enteringFalls = .ok (fin d)) (h : t.jump j = .ok u) :
    ∃ xs ss, ∃ y : K, Silent { t with
        basicValues := xs
        nonBasicValues := t.nonBasicValues.set j (fin y)
        standings := ss
        pricing := t.pricing.invalidate } u
      ∧ u.Steady
      ∧ (t.Solvable → t.Ready j →
        u.Solvable ∧ ∀ i < t.rowCount, u.toState.residual i = t.toState.residual i)
      ∧ (if t.plan.enteringFalls then t.bounds.lowerOf (t.split.nonBasicVar j)
        else t.bounds.upperOf (t.split.nonBasicVar j)) = fin y
      ∧ ∀ k < t.rowCount, coord xs k
        = coord t.basicValues k - coord t.plan.column k * (y - coord t.nonBasicValues j) := by
  have hv := ht.state.split.nonBasicVar_lt hr.lt
  -- the way to the bound ahead is a number, so the bound is one
  obtain ⟨y, hy⟩ : ∃ y : K, (if t.plan.enteringFalls
      then t.bounds.lowerOf (t.split.nonBasicVar j)
      else t.bounds.upperOf (t.split.nonBasicVar j)) = fin y := by
    obtain htop | ⟨-, k, hk, hy⟩ := enteringRange_cases ht.state hd
    · cases htop
    · obtain rfl : k = j := Option.some.inj (hk.symm.trans hr.entering)
      exact hy
  obtain ⟨v, hv', h⟩ := Checked.bind_eq_ok.mp h
  obtain ⟨x, hx, h⟩ := Checked.bind_eq_ok.mp h
  obtain ⟨l, hl, h⟩ := Checked.bind_eq_ok.mp h
  obtain ⟨b, hb, h⟩ := Checked.bind_eq_ok.mp h
  obtain ⟨w, hw, h⟩ := Checked.bind_eq_ok.mp h
  obtain ⟨pairs, -, h⟩ := Checked.bind_eq_ok.mp h
  rw [ht.state.split.nonBasicAt_eq hr.lt] at hv'
  cases hv'
  rw [ht.state.bounds.lower_eq hv] at hl
  rw [ht.state.bounds.upper_eq hv] at hb
  rw [Checked.getAt_eq_ok, ht.state.nonBasic.getElem? hr.lt] at hx
  cases hl
  cases hb
  cases hx
  rw [hy, fin_sub] at hw
  obtain ⟨hn, hcoord⟩ := numbers_shift (y - coord t.nonBasicValues j) ht.state.basic hr.numbers
  have hstate : State.WellFormed { t.toState with
      basicValues := shift (fin (y - coord t.nonBasicValues j)) t.basicValues t.plan.column
      nonBasicValues := t.nonBasicValues.set j (fin y) } :=
    ht.state.revalue hn (ht.state.nonBasic.set j y)
  have hclass := Silent.classifyAll (t := { t with
      basicValues := shift (fin (y - coord t.nonBasicValues j)) t.basicValues t.plan.column
      nonBasicValues := t.nonBasicValues.set j (fin y) }) (silent_remark _ _) hstate hw
  have hsil : Silent { t with
      basicValues := shift (fin (y - coord t.nonBasicValues j)) t.basicValues t.plan.column
      nonBasicValues := t.nonBasicValues.set j (fin y)
      standings := freshStandings { t.toState with
        basicValues := shift (fin (y - coord t.nonBasicValues j)) t.basicValues t.plan.column
        nonBasicValues := t.nonBasicValues.set j (fin y) } t.settings.boundTolerance
      pricing := t.pricing.invalidate } u := by
    obtain ⟨_, _, rfl⟩ := hclass
    cases h
    exact Silent.trans ⟨_, _, rfl⟩ ((silent_tellValues _ pairs).trans (silent_count _ .fakePivots))
  refine ⟨_, _, y, hsil,
    hsil.steady ⟨⟨ht.state.revalue hn (ht.state.nonBasic.set j y), ht.answers⟩, rfl, ht.hasBasis⟩,
    fun hsolv hready =>
    ⟨hsil.solvable ⟨ht.state.revalue hn (ht.state.nonBasic.set j y), hsolv.unit, hsolv.inverse⟩,
      fun i hi => ?_⟩, hy, hcoord⟩
  obtain ⟨_, _, rfl⟩ := hsil
  exact State.residual_shifted ht.state hstate rfl rfl rfl hr.lt hready.column hcoord rfl hi

/-! ## §3.  Exchanging two variables -/

section Exchange

variable [IsStrictOrderedRing K]

/-- **The end of a pivot** drops the selections and may start the inverse over. -/
theorem Steady.finish (ht : t.Steady) (h : t.finish = .ok u) :
    ∃ inverse, Silent { t with plan := .none, inverse } u ∧ u.Steady
      ∧ (t.Solvable → u.Solvable) := by
  obtain ⟨inverse, hs, hu, hsolv⟩ := Steady.refactorIfDue (t := t.clearPlan)
    ⟨⟨ht.state, ht.answers⟩, ht.standings, ht.hasBasis⟩ h
  exact ⟨inverse, hs, hu, fun ht => hsolv ⟨ht.state, ht.unit, ht.inverse⟩⟩

/-- The variables at the non-basic position `j` and in row `i` have exchanged their places.  The
    leaving one is at `y`, which is off by `e` from where the entering one moved it. -/
structure Exchanged (t u : Tableau (Extended K)) (j i : Nat) (y e : K) : Prop where
  row : i < t.rowCount
  pivot : coord t.plan.column i ≠ 0
  changes : ∃ xs ss inverse pricing, t.Repriced j i ss pricing ∧ Silent { t with
    split := t.split.swapped j i
    basicValues := xs
    nonBasicValues := t.nonBasicValues.set j (fin y)
    standings := ss
    inverse
    pricing
    plan := .none } u
  sound : u.Sound
  residual : ∀ k < t.rowCount, u.toState.residual k
    = t.toState.residual k + t.matrix.coeff k (t.split.basicVar i) * e

/-- The same of a steady tableau.  The residuals are accounted for if the exchange is exact. -/
structure Swapped (t u : Tableau (Extended K)) (j i : Nat) (y e : K) : Prop where
  row : i < t.rowCount
  pivot : coord t.plan.column i ≠ 0
  changes : ∃ xs ss inverse pricing, t.Repriced j i ss pricing ∧ Silent { t with
    split := t.split.swapped j i
    basicValues := xs
    nonBasicValues := t.nonBasicValues.set j (fin y)
    standings := ss
    inverse
    pricing
    plan := .none } u
  steady : u.Steady
  solvable : t.Exact j i → u.Solvable ∧ ∀ k < t.rowCount, u.toState.residual k
    = t.toState.residual k + t.matrix.coeff k (t.split.basicVar i) * e

omit [IsStrictOrderedRing K] in
theorem Swapped.exchanged {j i : Nat} {y e : K} (h : Swapped t u j i y e) (hexact : t.Exact j i) :
    Exchanged t u j i y e :=
  ⟨h.row, h.pivot, h.changes, h.steady.sound (h.solvable hexact).1, (h.solvable hexact).2⟩

/-- What is left to do of an exchange once the values and the standings are in place. -/
theorem swapped_of_follow (ht : t.Steady) {j i : Nat} (hr : t.Primed j) (hi : i < t.rowCount)
    (hd : coord t.plan.column i ≠ 0) {δ y : K} {xs : List (Extended K)} {ss : List Standing}
    {inverse : BasisInverse (Extended K)} {w v v' : Tableau (Extended K)}
    (hw : Silent { t with
      split := t.split.swapped j i
      basicValues := xs
      nonBasicValues := t.nonBasicValues.set j (fin y)
      standings := ss
      inverse } w)
    (hsteady : w.Steady) (hsolv : t.Exact j i → w.Solvable)
    (hx : ∀ k < t.rowCount, coord xs k = if k = i then coord t.nonBasicValues j + δ
      else coord t.basicValues k - coord t.plan.column k * δ)
    {element : Extended K} (he : t.plan.column.getD i 0 = element)
    (hv : w.followExchange j i element = .ok v) (hv' : Silent v v') (hu : v'.finish = .ok u) :
    Swapped t u j i y (y - (coord t.basicValues i - coord t.plan.column i * δ))
      ∧ u.basicValues = xs := by
  have hplan : w.plan = t.plan := by
    obtain ⟨_, _, rfl⟩ := hw
    rfl
  -- Costs and journal change, and a refresh at most.
  obtain ⟨pricing, hs, hp⟩ := followExchange_spec (by rw [hplan]; exact he) hv
  have hpriced : v'.Steady := hv'.steady
    (hs.steady ⟨⟨hsteady.state, hsteady.answers⟩, hsteady.standings, hsteady.hasBasis⟩)
  have hpricedSolv (h : t.Exact j i) : v'.Solvable := by
    have hsolv := hsolv h
    exact hv'.solvable (hs.solvable ⟨hsolv.state, hsolv.unit, hsolv.inverse⟩)
  obtain ⟨inverse', hs', husteady, husolv⟩ := hpriced.finish hu
  have hall := hs.trans hv'
  obtain ⟨_, _, rfl⟩ := hw
  obtain ⟨_, _, rfl⟩ := hall
  obtain ⟨_, _, rfl⟩ := hs'
  refine ⟨⟨hi, hd, ⟨xs, ss, inverse', pricing, hp, ⟨_, _, rfl⟩⟩, husteady,
    fun hexact => ⟨husolv (hpricedSolv hexact), fun k hk => ?_⟩⟩, rfl⟩
  exact State.residual_exchanged ht.state husteady.state rfl rfl hr.lt hi rfl
    hexact.ready.column δ hx
    rfl hk

/-- **Where the leaving variable ends up**: on one of its bounds, which is within the tolerance of
    where the move takes it. -/
theorem Aimed.lands {j i : Nat} (hp : t.Aimed j) (ht : t.Steady) {τ : K}
    (hτ : t.settings.boundTolerance = fin τ) (hi : i < t.rowCount)
    (hl : t.plan.leaving = some (.basic i)) :
    ∃ δ y : K, t.change = fin δ
      ∧ landing (t.toState.standing (fin τ) i) t.plan.leavingRises
          (t.bounds.lowerOf (t.split.basicVar i)) (t.bounds.upperOf (t.split.basicVar i)) = fin y
      ∧ |y - (coord t.basicValues i - coord t.plan.column i * δ)| ≤ |τ| := by
  have hlt := ht.state.split.basicVar_lt hi
  have hD : t.plan.column.getD i 0 = fin (coord t.plan.column i) := hp.numbers.getD hi
  -- the distance is the ratio of the row, so the leaving variable is at its bound after the move
  obtain ⟨leaving, hleaving, hstops⟩ := hp.stops
  obtain rfl : .basic i = leaving := Option.some.inj (hl.symm.trans hleaving)
  obtain ⟨hratio, d, hdist⟩ := hstops
  rw [hD, hdist] at hratio
  obtain ⟨-, hc, hr, -⟩ := ratioAt_spec ht hτ hratio
  obtain ⟨-, y, hy, hnear⟩ := landing_near (ht.state.bounds.lowerOf_lt hlt)
    (ht.state.bounds.lt_upperOf hlt) hc hr.symm
  rw [moved_rises hc] at hnear
  refine ⟨_, y, change_eq hdist, ?_, hnear⟩
  rw [hp.direction i hl, hD]
  exact hy

/-- **An exchange** puts the leaving variable on one of its bounds, which is within the tolerance of
    where the move took it. -/
theorem performExchange_spec (ht : t.Steady) {τ : K} (hτ : t.settings.boundTolerance = fin τ)
    {j i : Nat} (hp : t.Aimed j) (hl : t.plan.leaving = some (.basic i))
    {v : Tableau (Extended K)} (h : t.performExchange j i = .ok v) (hu : v.finish = .ok u) :
    ∃ δ y : K, Swapped t u j i y (y - (coord t.basicValues i - coord t.plan.column i * δ))
      ∧ |y - (coord t.basicValues i - coord t.plan.column i * δ)| ≤ |τ| ∧ t.change = fin δ
      ∧ landing (t.toState.standing (fin τ) i) t.plan.leavingRises
          (t.bounds.lowerOf (t.split.basicVar i)) (t.bounds.upperOf (t.split.basicVar i)) = fin y
      ∧ ∀ k < t.rowCount, coord u.basicValues k = if k = i then coord t.nonBasicValues j + δ
        else coord t.basicValues k - coord t.plan.column k * δ := by
  obtain ⟨element, helement, h⟩ := Checked.bind_eq_ok.mp h
  obtain ⟨leaving, hleaving, h⟩ := Checked.bind_eq_ok.mp h
  obtain ⟨standing, hstanding, h⟩ := Checked.bind_eq_ok.mp h
  obtain ⟨l, hlow, h⟩ := Checked.bind_eq_ok.mp h
  obtain ⟨b, hupp, h⟩ := Checked.bind_eq_ok.mp h
  obtain ⟨x, hx, h⟩ := Checked.bind_eq_ok.mp h
  obtain ⟨⟨⟨q, p⟩, w⟩, hplaces, h⟩ := Checked.bind_eq_ok.mp h
  obtain ⟨w', hclass, h⟩ := Checked.bind_eq_ok.mp h
  obtain ⟨w₂, hfollow, h⟩ := Checked.bind_eq_ok.mp h
  obtain ⟨pairs, -, hend⟩ := Checked.bind_eq_ok.mp h
  obtain ⟨hi, hc, hD⟩ := pivotElement_spec hp.numbers helement
  obtain ⟨-, rfl⟩ := ht.state.split.lt_of_basicAt hleaving
  have hlt := ht.state.split.basicVar_lt hi
  rw [ht.state.bounds.lower_eq hlt] at hlow
  rw [ht.state.bounds.upper_eq hlt] at hupp
  rw [Checked.getAt_eq_ok, ht.standings, List.getElem?_map, List.getElem?_range hi, hτ] at hstanding
  rw [Checked.getAt_eq_ok, ht.state.nonBasic.getElem? hp.lt] at hx
  cases hlow
  cases hupp
  cases hstanding
  cases hx
  -- the basic values are moved first, then the two variables exchange their places
  obtain ⟨δ, y, hδ, hland, hnear⟩ := hp.lands ht hτ hi hl
  rw [hδ, hland, fin_add] at hplaces
  obtain ⟨hn, hcoord⟩ := numbers_shift δ ht.state.basic hp.numbers
  obtain ⟨-, hanswering, hsolv, inverse, hw⟩ := exchangePlaces_spec
    (t := { t with basicValues := shift (fin δ) t.basicValues t.plan.column })
    ⟨ht.state.revalue hn ht.state.nonBasic, ht.answers⟩ ⟨hp.entering, hp.lt, hp.numbers⟩ hc hplaces
  have hbasis : w.hasBasis = true := by
    rw [hw]
    exact ht.hasBasis
  have hsteady : w'.Steady := Answering.classifyAll (t := w.remark _)
    ((silent_remark _ _).answering hanswering) hbasis hclass
  have hsolv' (h : t.Exact j i) : w'.Solvable := by
    have hsolv :=
      hsolv ⟨⟨ht.state.revalue hn ht.state.nonBasic, h.solvable.unit, h.solvable.inverse⟩,
        ⟨hp.entering, hp.lt, h.ready.column⟩, h.considers⟩
    exact (Solvable.classifyAll (t := w.remark _) ((silent_remark _ _).solvable hsolv) hbasis
      hclass).toSolvable
  have hw' := classifyAll_spec (t := w.remark _) hanswering.state hclass
  rw [hw] at hw'
  have hsil : Silent { t with
      split := t.split.swapped j i
      basicValues := (shift (fin δ) t.basicValues t.plan.column).set i
        (fin (coord t.nonBasicValues j + δ))
      nonBasicValues := t.nonBasicValues.set j (fin y)
      standings := w'.standings
      inverse } w' := by
    rw [hw']
    exact ⟨_, _, rfl⟩
  have hvalues (k : Nat) (hk : k < t.rowCount) :
      coord ((shift (fin δ) t.basicValues t.plan.column).set i
          (fin (coord t.nonBasicValues j + δ))) k
        = if k = i then coord t.nonBasicValues j + δ
          else coord t.basicValues k - coord t.plan.column k * δ := by
    rw [coord_set (by rw [hn.length]; exact hi), hcoord k hk]
  have htold : Silent w₂ v := by
    cases hend
    have htold := ((silent_tellValues w₂ pairs).trans (silent_tellValue _ (t.split.basicVar i)
      (fin y))).trans (silent_count _ .pivots)
    rw [hδ, hland]
    split
    · exact htold.trans (silent_count _ .degeneratePivots)
    · exact htold
  obtain ⟨hswapped, hbasic⟩ :=
    swapped_of_follow ht hp.toPrimed hi hc hsil hsteady hsolv' hvalues hD hfollow htold hu
  refine ⟨δ, y, hswapped, hnear, hδ, hland, ?_⟩
  rw [hbasic]
  exact hvalues

/-- How a pivot of the variable at the non-basic position `j` ended. -/
inductive Pivoted (t u : Tableau (Extended K)) (τ : K) (j : Nat) : Prop
  /-- There was no bound to move to. -/
  | ignored {inverse : BasisInverse (Extended K)} (sound : u.Sound)
      (changes : Silent { t with plan := .none, inverse } u)
  /-- The entering variable moved onto a bound. -/
  | jumped {xs : List (Extended K)} {ss : List Standing}
      {inverse : BasisInverse (Extended K)} {y : K} (sound : u.Sound)
      (changes : Silent { t with
        basicValues := xs
        nonBasicValues := t.nonBasicValues.set j (fin y)
        standings := ss
        inverse
        pricing := t.pricing.invalidate
        plan := .none } u)
      (residual : ∀ k < t.rowCount, u.toState.residual k = t.toState.residual k)
      (onBound : fin y = t.bounds.lowerOf (t.split.nonBasicVar j)
        ∨ fin y = t.bounds.upperOf (t.split.nonBasicVar j))
  /-- It was exchanged for the leaving variable, which landed on a bound. -/
  | exchanged {i : Nat} {y e : K} (leaving : t.plan.leaving = some (.basic i))
      (exchanged : Exchanged t u j i y e) (near : |e| ≤ |τ|)
      (onBound : fin y = t.bounds.lowerOf (t.split.basicVar i)
        ∨ fin y = t.bounds.upperOf (t.split.basicVar i))

/-- The same of a steady tableau, with the values of the basic variables afterwards. -/
inductive Turned (t u : Tableau (Extended K)) (τ : K) (j : Nat) : Prop
  | ignored {inverse : BasisInverse (Extended K)} (steady : u.Steady)
      (solvable : t.Solvable → u.Solvable) (changes : Silent { t with plan := .none, inverse } u)
      (unlimited : ¬Scalar.isFinite t.plan.distance = true)
  | jumped {xs : List (Extended K)} {ss : List Standing}
      {inverse : BasisInverse (Extended K)} {y : K} (steady : u.Steady)
      (solvable : t.Solvable → t.Ready j →
        u.Solvable ∧ ∀ k < t.rowCount, u.toState.residual k = t.toState.residual k)
      (changes : Silent { t with
        basicValues := xs
        nonBasicValues := t.nonBasicValues.set j (fin y)
        standings := ss
        inverse
        pricing := t.pricing.invalidate
        plan := .none } u)
      (ahead : (if t.plan.enteringFalls then t.bounds.lowerOf (t.split.nonBasicVar j)
        else t.bounds.upperOf (t.split.nonBasicVar j)) = fin y)
      (values : ∀ k < t.rowCount, coord xs k
        = coord t.basicValues k - coord t.plan.column k * (y - coord t.nonBasicValues j))
      (leaving : t.plan.leaving = some .entering)
  | exchanged {i : Nat} {δ y : K} (leaving : t.plan.leaving = some (.basic i))
      (swapped : Swapped t u j i y (y - (coord t.basicValues i - coord t.plan.column i * δ)))
      (near : |y - (coord t.basicValues i - coord t.plan.column i * δ)| ≤ |τ|)
      (change : t.change = fin δ)
      (lands : landing (t.toState.standing (fin τ) i) t.plan.leavingRises
        (t.bounds.lowerOf (t.split.basicVar i)) (t.bounds.upperOf (t.split.basicVar i)) = fin y)
      (values : ∀ k < t.rowCount, coord u.basicValues k = if k = i then coord t.nonBasicValues j + δ
        else coord t.basicValues k - coord t.plan.column k * δ)

omit [IsStrictOrderedRing K] in
/-- A pivot leaves the system and its bounds alone. -/
theorem Turned.frame {τ : K} {j : Nat} (h : Turned t u τ j) :
    u.Steady ∧ u.settings = t.settings ∧ u.matrix = t.matrix ∧ u.bounds = t.bounds
      ∧ u.merges = t.merges := by
  cases h with
  | ignored hs _ hc =>
    obtain ⟨_, _, rfl⟩ := hc
    exact ⟨hs, rfl, rfl, rfl, rfl⟩
  | jumped hs _ hc =>
    obtain ⟨_, _, rfl⟩ := hc
    exact ⟨hs, rfl, rfl, rfl, rfl⟩
  | exchanged _ hx =>
    have hs := hx.steady
    obtain ⟨_, _, _, _, -, _, _, rfl⟩ := hx.changes
    exact ⟨hs, rfl, rfl, rfl, rfl⟩

omit [IsStrictOrderedRing K] in
/-- No selections are left after a pivot. -/
theorem Turned.plan {τ : K} {j : Nat} (h : Turned t u τ j) : u.plan = .none := by
  cases h with
  | ignored _ _ hc | jumped _ _ hc =>
    obtain ⟨_, _, rfl⟩ := hc
    rfl
  | exchanged _ hx =>
    obtain ⟨_, _, _, _, -, _, _, rfl⟩ := hx.changes
    rfl

/-- **The outcomes of a pivot**, whatever the inverse takes into account. -/
theorem performPivot_turns (ht : t.Steady) {τ : K}
    (hτ : t.settings.boundTolerance = fin τ) {j : Nat} (hp : t.Aimed j)
    (h : t.performPivot = .ok u) : Turned t u τ j := by
  obtain ⟨_, -, h⟩ := Checked.bind_eq_ok.mp h
  obtain ⟨j', hj', h⟩ := Checked.bind_eq_ok.mp h
  obtain rfl : j = j' := Option.some.inj (hp.entering.symm.trans (enteringIndex_eq_ok.mp hj'))
  obtain ⟨leaving, hl, hstops⟩ := hp.stops
  rw [hl] at h
  cases leaving with
  | basic i =>
    obtain ⟨v, hv, h⟩ := Checked.bind_eq_ok.mp h
    obtain ⟨δ, y, hs, hnear, hδ, hland, hvalues⟩ := performExchange_spec ht hτ hp hl hv h
    exact .exchanged hl hs hnear hδ hland hvalues
  | entering =>
    obtain ⟨v, hv, h⟩ := Checked.bind_eq_ok.mp h
    unfold performFake at hv
    -- The entering variable runs up to its other bound, if there is one.
    by_cases hfin : Scalar.isFinite t.plan.distance = true
    · rw [if_pos hfin] at hv
      obtain ⟨d, hd⟩ := isFinite_iff.mp hfin
      have hrange : t.enteringRange t.plan.enteringFalls = .ok (fin d) := by
        rw [← hd]
        exact hstops
      obtain ⟨xs, ss, y, hs, hsteady, hsolv, hahead, hvalues⟩ := jump_spec ht hp.toPrimed hrange hv
      obtain ⟨inverse, hs', hu, husolv⟩ := hsteady.finish h
      obtain ⟨_, _, rfl⟩ := hs
      obtain ⟨_, _, rfl⟩ := hs'
      exact .jumped hu (fun ht hr => ⟨husolv (hsolv ht hr).1, (hsolv ht hr).2⟩) ⟨_, _, rfl⟩ hahead
        hvalues hl
    · rw [if_neg hfin] at hv
      cases hv
      have hremark := silent_remark t .unboundedMove
      obtain ⟨inverse, hs, hu, husolv⟩ := (hremark.steady ht).finish h
      obtain ⟨_, _, rfl⟩ := hs
      exact .ignored hu (fun ht => husolv (hremark.solvable ht)) ⟨_, _, rfl⟩ hfin

/-- **The outcomes of a pivot** whose inverse takes the whole change column into account. -/
theorem performPivot_spec (ht : t.Sound) {τ : K} (hτ : t.settings.boundTolerance = fin τ) {j : Nat}
    (hp : t.Planned j) (hk : t.KeepsColumn) (h : t.performPivot = .ok u) : Pivoted t u τ j := by
  cases performPivot_turns ht.steady hτ hp.aimed h with
  | ignored hs hsolv hc => exact .ignored (hs.sound (hsolv ht.toSolvable)) hc
  | jumped hs hsolv hc hahead =>
    obtain ⟨husolv, hresidual⟩ := hsolv ht.toSolvable hp.toReady
    exact .jumped (hs.sound husolv) hc hresidual (onBound_of_ahead hahead)
  | exchanged hl hs hnear _ hland =>
    exact .exchanged hl (hs.exchanged ⟨ht.toSolvable, hp.toReady, fun hi => hk _ hi hl⟩) hnear
      (onBound_of_landing hland)

/-! ## §4.  Exchanging without moving -/

omit [IsStrictOrderedRing K] in
/-- The values and the variables of the other rows are what they were, so only the standing of the
    row of the exchange has to be recorded. -/
theorem standings_swapped (ht : t.Sound) {j i : Nat} (hi : i < t.rowCount) (x : K) :
    t.standings.set i (State.standing { t.toState with
        split := t.split.swapped j i, basicValues := t.basicValues.set i (fin x) }
        t.settings.boundTolerance i)
      = (List.range t.rowCount).map (State.standing { t.toState with
        split := t.split.swapped j i, basicValues := t.basicValues.set i (fin x) }
        t.settings.boundTolerance) := by
  rw [ht.standings]
  refine set_map_range _ _ fun k hk hne => ?_
  have hvar : (t.split.swapped j i).basicVar k = t.split.basicVar k := by
    rw [ht.state.split.basicVar_swapped hi, if_neg hne]
  have hval : coord (t.basicValues.set i (fin x)) k = coord t.basicValues k := by
    rw [coord_set (by rw [ht.state.basic.length]; exact hi), if_neg hne]
  show Standing.classify _ _ _ _ = Standing.classify _ _ _ _
  rw [← hvar, ← hval]

/-- **An exchange without a move** keeps the values of all variables. -/
theorem performDegenerate_spec (ht : t.Sound) {j : Nat} (hr : t.Ready j) (hk : t.KeepsColumn)
    (h : t.performDegenerate = .ok u) :
    ∃ i, t.plan.leaving = some (.basic i) ∧ Exchanged t u j i (coord t.basicValues i) 0 := by
  obtain ⟨_, -, h⟩ := Checked.bind_eq_ok.mp h
  obtain ⟨j', hj', h⟩ := Checked.bind_eq_ok.mp h
  obtain rfl : j = j' := Option.some.inj (hr.entering.symm.trans (enteringIndex_eq_ok.mp hj'))
  obtain ⟨i, hi', h⟩ := Checked.bind_eq_ok.mp h
  obtain ⟨standing, -, h⟩ := Checked.bind_eq_ok.mp h
  obtain ⟨_, -, h⟩ := Checked.bind_eq_ok.mp h
  obtain ⟨element, helement, h⟩ := Checked.bind_eq_ok.mp h
  obtain ⟨enteringValue, hx, h⟩ := Checked.bind_eq_ok.mp h
  obtain ⟨leavingValue, hy, h⟩ := Checked.bind_eq_ok.mp h
  obtain ⟨⟨⟨q, p⟩, w⟩, hplaces, h⟩ := Checked.bind_eq_ok.mp h
  obtain ⟨w', hclass, h⟩ := Checked.bind_eq_ok.mp h
  obtain ⟨w₂, hfollow, hend⟩ := Checked.bind_eq_ok.mp h
  have hl := leavingRow_eq_ok hi'
  obtain ⟨hi, hc, hD⟩ := pivotElement_spec hr.column.1 helement
  rw [Checked.getAt_eq_ok, ht.state.nonBasic.getElem? hr.lt] at hx
  rw [Checked.getAt_eq_ok, ht.state.basic.getElem? hi] at hy
  cases hx
  cases hy
  have hexact : t.Exact j i := ⟨ht.toSolvable, hr, fun hi => hk i hi hl⟩
  obtain ⟨-, -, hsolv, inverse, hw⟩ :=
    exchangePlaces_spec ht.toSolvable.answering hr.primed hc hplaces
  have hsolv := hsolv hexact
  obtain ⟨-, hw'⟩ := classifyAt_spec (t := w.remark _) hsolv.state hclass
  rw [hw] at hw' hsolv
  have hsound : w'.Sound := by
    rw [hw']
    exact ⟨⟨⟨hsolv.state.matrix, hsolv.state.rhs, hsolv.state.bounds, hsolv.state.split,
      hsolv.state.basic, hsolv.state.nonBasic⟩, hsolv.unit, hsolv.inverse⟩,
      standings_swapped ht hi (coord t.nonBasicValues j), ht.hasBasis⟩
  have hsil : Silent { t with
      split := t.split.swapped j i
      basicValues := t.basicValues.set i (fin (coord t.nonBasicValues j))
      nonBasicValues := t.nonBasicValues.set j (fin (coord t.basicValues i))
      standings := w'.standings
      inverse } w' := by
    rw [hw']
    exact ⟨_, _, rfl⟩
  have hvalues (k : Nat) (hk : k < t.rowCount) :
      coord (t.basicValues.set i (fin (coord t.nonBasicValues j))) k
        = if k = i then coord t.nonBasicValues j + 0
          else coord t.basicValues k - coord t.plan.column k * 0 := by
    rw [coord_set (by rw [ht.state.basic.length]; exact hi), mul_zero, sub_zero, add_zero]
  refine ⟨i, hl, ?_⟩
  -- so this is an exchange by a step of zero
  have hex := (swapped_of_follow ht.steady hr.primed hi hc hsil hsound.steady
    (fun _ => hsound.toSolvable) hvalues hD hfollow
    ((silent_count _ .pivots).trans (silent_count _ .degeneratePivots)) hend).1.exchanged hexact
  have hzero : coord t.basicValues i - (coord t.basicValues i - coord t.plan.column i * 0) = 0 := by
    ring
  rwa [hzero] at hex

end Exchange

end BoundedSimplex.Tableau
