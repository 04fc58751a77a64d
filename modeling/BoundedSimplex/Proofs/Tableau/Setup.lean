/-
  BoundedSimplex.Proofs.Tableau.Setup — a tableau that was set up and started is sound.

  Before there is a basis, coefficients, bounds and rows are given in any order.  All that these
  operations have to keep is that the numbers are finite and fit together.  The start puts the
  variables that are not basic on their bounds and solves for the others.

  Main results:
    * `Configured.prepared` — what setting up keeps;
    * `start_spec`, `startFrom_spec` — what a start that was accepted leads to.
-/
import BoundedSimplex.Proofs.Tableau.Tightening
import BoundedSimplex.Tableau.Operation

namespace BoundedSimplex

open Extended

variable {K : Type} [Field K] [LinearOrder K]

/-! ## §1.  Where a variable starts -/

namespace Bounds

/-- The value that a variable starts at when it is not basic. -/
def startOf (b : Bounds (Extended K)) (v : Nat) : K :=
  if Scalar.isFinite (b.lowerOf v) then (b.lowerOf v).val
  else if Scalar.isFinite (b.upperOf v) then (b.upperOf v).val else 0

namespace WellFormed

variable {n : Nat} {b : Bounds (Extended K)}

/-- A variable starts at its starting value. -/
theorem startValue_eq (h : b.WellFormed n) {v : Nat} (hv : v < n) :
    b.startValue v = .ok (fin (b.startOf v)) := by
  unfold startValue startOf
  rw [h.lower_eq hv, h.upper_eq hv]
  show Except.ok _ = _
  congr 1
  by_cases hl : Scalar.isFinite (b.lowerOf v) = true
  · rw [if_pos hl, if_pos hl, fin_val hl]
  · rw [if_neg hl, if_neg hl]
    by_cases hu : Scalar.isFinite (b.upperOf v) = true
    · rw [if_pos hu, if_pos hu, fin_val hu]
    · rw [if_neg hu, if_neg hu]
      rfl

/-- It is within the bounds unless they contradict each other. -/
theorem within_startOf (h : b.WellFormed n) {v : Nat} (hv : v < n)
    (hvalid : ¬b.upperOf v < b.lowerOf v) : Within (b.lowerOf v) (b.upperOf v) (b.startOf v) := by
  have hl := h.lowerOf_lt hv
  have hu := h.lt_upperOf hv
  unfold startOf
  rcases lt_infinity_iff.mp hl with hbot | ⟨a, ha⟩
  · rw [hbot]
    show Within bot (b.upperOf v)
      (if Scalar.isFinite (b.upperOf v) = true then (b.upperOf v).val else 0)
    rcases neg_infinity_lt_iff.mp hu with htop | ⟨c, hc⟩
    · rw [htop]
      exact ⟨rfl, rfl⟩
    · rw [hc]
      exact ⟨rfl, (fin_le_fin c c).mpr (le_refl c)⟩
  · rw [ha] at hl hvalid ⊢
    exact within_of_eq hl hu (.inl rfl) hvalid

/-- The values of the variables that are not basic. -/
theorem mapM_startValue (h : b.WellFormed n) {m : Nat} {split : BasisSplit}
    (hs : split.WellFormed m n) : split.nonBasic.mapM b.startValue
      = .ok ((List.range (n - m)).map fun j => fin (b.startOf (split.nonBasicVar j))) := by
  rw [hs.nonBasic_eq, List.mapM_map]
  exact Checked.mapM_eq_ok fun j hj => h.startValue_eq (hs.nonBasicVar_lt (List.mem_range.mp hj))

end WellFormed

end Bounds

/-! ## §2.  Setting up -/

/-- The operations that set a tableau up, with proper numbers. -/
def Operation.SetsUp : Operation (Extended K) → Prop
  | .setSize _ _ => True
  | .setCoefficients xs => ∀ x ∈ xs, Scalar.isFinite x = true
  | .setCoefficient _ _ x => Scalar.isFinite x = true
  | .setRightHandSide xs => ∀ x ∈ xs, Scalar.isFinite x = true
  | .setRightHandSideAt _ x => Scalar.isFinite x = true
  | .setLower _ x => x < Scalar.infinity
  | .setUpper _ x => -Scalar.infinity < x
  | .markBasic _ => True
  | .assignRow _ _ => True
  | .usePricing _ => True
  | _ => False

instance : DecidablePred (Operation.SetsUp (K := K)) := fun op => by
  cases op with
  | setSize | markBasic | assignRow | usePricing => exact instDecidableTrue
  | setCoefficients xs => exact inferInstanceAs (Decidable (∀ x ∈ xs, Scalar.isFinite x = true))
  | setRightHandSide xs => exact inferInstanceAs (Decidable (∀ x ∈ xs, Scalar.isFinite x = true))
  | setCoefficient _ _ x => exact inferInstanceAs (Decidable (Scalar.isFinite x = true))
  | setRightHandSideAt _ x => exact inferInstanceAs (Decidable (Scalar.isFinite x = true))
  | setLower _ x => exact inferInstanceAs (Decidable (x < Scalar.infinity))
  | setUpper _ x => exact inferInstanceAs (Decidable (-Scalar.infinity < x))
  | _ => exact instDecidableFalse

namespace Tableau

variable {t u : Tableau (Extended K)}

/-- A tableau that was made and set up. -/
inductive Configured : Tableau (Extended K) → Prop
  | created (settings : Settings (Extended K)) : Configured (create settings)
  | createdExplicit (settings : Settings (Extended K)) : Configured (createExplicit settings)
  | performed {t u : Tableau (Extended K)} {op : Operation (Extended K)}
      {reply : Reply (Extended K)} (before : Configured t) (setsUp : op.SetsUp)
      (done : t.perform op = .ok (reply, u)) :
      Configured u

/-- The numbers given so far are finite and fit together, and nothing was merged or selected. -/
structure Prepared (t : Tableau (Extended K)) : Prop where
  matrix : t.matrix.WellFormed
  rhs : Numbers t.rowCount t.rightHandSide
  bounds : t.bounds.WellFormed t.varCount
  places : t.split.positions.length = t.varCount
  merges : t.merges = .none
  plan : t.plan = .none

theorem Silent.prepared (h : Silent t u) (ht : t.Prepared) : u.Prepared := by
  obtain ⟨_, _, rfl⟩ := h
  exact ⟨ht.matrix, ht.rhs, ht.bounds, ht.places, ht.merges, ht.plan⟩

theorem of_replyDone {α : Type} [Scalar α] {r : Checked (Tableau α)} {reply : Reply α}
    {u : Tableau α} (h : replyDone r = .ok (reply, u)) : r = .ok u := by
  obtain ⟨v, hv, h⟩ := Checked.bind_eq_ok.mp h
  cases h
  exact hv

/-- An operation that may fail replies with its success or with the failure. -/
theorem of_replyAttempt {α β : Type} [Scalar α] {success : β → Reply α} {r : Attempt α β}
    {reply : Reply α} {u : Tableau α} (h : replyAttempt success r = .ok (reply, u)) :
    ∃ x, r = .ok (x, u) ∧ ((∃ b, x = .ok b ∧ reply = success b)
      ∨ ∃ cause, x = .error cause ∧ reply = .failed cause) := by
  obtain ⟨⟨x, v⟩, hr, h⟩ := Checked.bind_eq_ok.mp h
  cases x with
  | ok b =>
    cases h
    exact ⟨_, hr, .inl ⟨b, rfl, rfl⟩⟩
  | error cause =>
    cases h
    exact ⟨_, hr, .inr ⟨cause, rfl, rfl⟩⟩

namespace Prepared

theorem withInverse (settings : Settings (Extended K)) (f : BasisInverse (Extended K)) :
    (Tableau.withInverse settings f).Prepared :=
  ⟨(SystemMatrix.Represents.zero 0 0).wellFormed, .zeros 0, .free 0, rfl, rfl, rfl⟩

theorem setSize {m n : Nat} (h : t.setSize m n = .ok u) : u.Prepared := by
  obtain ⟨_, -, h⟩ := Checked.bind_eq_ok.mp h
  obtain ⟨_, -, h⟩ := Checked.bind_eq_ok.mp h
  cases h
  refine Silent.prepared ((silent_remark _ _).trans (silent_tellSize _)) ?_
  exact ⟨(SystemMatrix.Represents.zero m n).wellFormed, .zeros m, .free n, by simp [State.blank,
    BasisSplit.blank, State.varCount, SystemMatrix.zero], rfl, rfl⟩

/-- Another matrix of the same dimensions. -/
theorem withMatrix (ht : t.Prepared) {matrix : SystemMatrix (Extended K)} {A : Nat → Nat → K}
    (h : matrix.Represents t.rowCount t.varCount A) : Prepared { t with matrix } := by
  refine ⟨h.wellFormed, ?_, ?_, ?_, ht.merges, ht.plan⟩
  · show Numbers matrix.rowCount t.rightHandSide
    rw [h.rowCount]
    exact ht.rhs
  · show t.bounds.WellFormed matrix.columnCount
    rw [h.columnCount]
    exact ht.bounds
  · show t.split.positions.length = matrix.columnCount
    rw [h.columnCount]
    exact ht.places

theorem setCoefficients (ht : t.Prepared) {xs : List (Extended K)}
    (hx : ∀ x ∈ xs, Scalar.isFinite x = true) (h : t.setCoefficients xs = .ok u) : u.Prepared := by
  obtain ⟨matrix, hm, h⟩ := Checked.bind_eq_ok.mp h
  cases h
  obtain ⟨A, hA⟩ := SystemMatrix.Represents.of_ofRowMajor hx hm
  exact ht.withMatrix hA

theorem setCoefficient (ht : t.Prepared) {i j : Nat} {x : Extended K}
    (hx : Scalar.isFinite x = true) (h : t.setCoefficient i j x = .ok u) : u.Prepared := by
  obtain ⟨matrix, hm, h⟩ := Checked.bind_eq_ok.mp h
  cases h
  obtain ⟨a, rfl⟩ := isFinite_iff.mp hx
  obtain ⟨-, -, hA⟩ := ht.matrix.of_set hm
  exact ht.withMatrix hA

theorem setRightHandSide (ht : t.Prepared) {xs : List (Extended K)}
    (hx : ∀ x ∈ xs, Scalar.isFinite x = true) (h : t.setRightHandSide xs = .ok u) : u.Prepared := by
  obtain ⟨_, hlen, h⟩ := Checked.bind_eq_ok.mp h
  cases h
  exact ⟨ht.matrix, ⟨Checked.require_eq_ok.mp hlen, hx⟩, ht.bounds, ht.places, ht.merges, ht.plan⟩

theorem setRightHandSideAt (ht : t.Prepared) {i : Nat} {x : Extended K}
    (hx : Scalar.isFinite x = true) (h : t.setRightHandSideAt i x = .ok u) : u.Prepared := by
  obtain ⟨xs, hset, h⟩ := Checked.bind_eq_ok.mp h
  cases h
  obtain ⟨a, rfl⟩ := isFinite_iff.mp hx
  obtain ⟨-, rfl⟩ := Checked.setAt_eq_ok.mp hset
  exact ⟨ht.matrix, ht.rhs.set i a, ht.bounds, ht.places, ht.merges, ht.plan⟩

theorem setLower (ht : t.Prepared) {v : Nat} {x : Extended K} (hx : x < Scalar.infinity)
    (h : t.setLower v x = .ok u) : u.Prepared := by
  obtain ⟨bounds, hb, hs⟩ := setLower_spec h
  obtain ⟨-, hbw, -⟩ := ht.bounds.setLower hx hb
  exact hs.prepared ⟨ht.matrix, ht.rhs, hbw, ht.places, ht.merges, ht.plan⟩

theorem setUpper (ht : t.Prepared) {v : Nat} {x : Extended K} (hx : -Scalar.infinity < x)
    (h : t.setUpper v x = .ok u) : u.Prepared := by
  obtain ⟨bounds, hb, hs⟩ := setUpper_spec h
  obtain ⟨-, hbw, -⟩ := ht.bounds.setUpper hx hb
  exact hs.prepared ⟨ht.matrix, ht.rhs, hbw, ht.places, ht.merges, ht.plan⟩

/-- Another split of the same variables. -/
theorem withSplit (ht : t.Prepared) {split : BasisSplit}
    (h : split.positions.length = t.split.positions.length) : Prepared { t with split } :=
  ⟨ht.matrix, ht.rhs, ht.bounds, h.trans ht.places, ht.merges, ht.plan⟩

theorem markBasic (ht : t.Prepared) {v : Nat} (h : t.markBasic v = .ok u) : u.Prepared := by
  obtain ⟨_, -, h⟩ := Checked.bind_eq_ok.mp h
  obtain ⟨split, hs, h⟩ := Checked.bind_eq_ok.mp h
  obtain ⟨_, -, hs⟩ := Checked.bind_eq_ok.mp hs
  cases hs
  cases h
  exact ht.withSplit rfl

theorem assignRow (ht : t.Prepared) {v i : Nat} (h : t.assignRow v i = .ok u) : u.Prepared := by
  obtain ⟨_, -, h⟩ := Checked.bind_eq_ok.mp h
  obtain ⟨split, hs, h⟩ := Checked.bind_eq_ok.mp h
  obtain ⟨-, rfl⟩ := BasisSplit.assignRow_spec hs
  cases h
  exact ht.withSplit (by rw [List.length_set])

/-- **Setting up keeps the numbers in order.** -/
theorem perform (ht : t.Prepared) {op : Operation (Extended K)} (hop : op.SetsUp)
    {reply : Reply (Extended K)} (h : t.perform op = .ok (reply, u)) : u.Prepared := by
  cases op with
  | setSize m n => exact setSize (of_replyDone h)
  | setCoefficients xs => exact ht.setCoefficients hop (of_replyDone h)
  | setCoefficient i j x => exact ht.setCoefficient hop (of_replyDone h)
  | setRightHandSide xs => exact ht.setRightHandSide hop (of_replyDone h)
  | setRightHandSideAt i x => exact ht.setRightHandSideAt hop (of_replyDone h)
  | setLower v x => exact ht.setLower hop (of_replyDone h)
  | setUpper v x => exact ht.setUpper hop (of_replyDone h)
  | markBasic v => exact ht.markBasic (of_replyDone h)
  | assignRow v i => exact ht.assignRow (of_replyDone h)
  | usePricing rule =>
    cases of_replyDone h
    exact ⟨ht.matrix, ht.rhs, ht.bounds, ht.places, ht.merges, ht.plan⟩
  | _ => exact hop.elim

end Prepared

/-- A run of operations that set up keeps a tableau configured. -/
theorem Configured.run {ops : List (Operation (Extended K))} (h : t.Configured)
    (hops : ∀ op ∈ ops, op.SetsUp) (hrun : t.run ops = .ok u) : u.Configured := by
  induction ops generalizing t with
  | nil =>
    cases hrun
    exact h
  | cons op ops ih =>
    obtain ⟨⟨reply, w⟩, hw, hrun⟩ := Checked.bind_eq_ok.mp hrun
    exact ih (h.performed (hops op List.mem_cons_self) hw)
      (fun op hop => hops op (List.mem_cons_of_mem _ hop)) hrun

/-- What is configured is prepared. -/
theorem Configured.prepared (h : t.Configured) : t.Prepared := by
  induction h with
  | created settings => exact .withInverse _ _
  | createdExplicit settings => exact .withInverse _ _
  | performed _ setsUp done ih => exact ih.perform setsUp done

/-! ## §3.  The start -/

/-- What a start leads to. -/
structure Started (t u : Tableau (Extended K)) : Prop where
  sound : u.Sound
  settings : u.settings = t.settings
  matrix : u.matrix = t.matrix
  rhs : u.rightHandSide = t.rightHandSide
  bounds : u.bounds = t.bounds
  merges : u.merges = .none
  plan : u.plan = .none
  settled : u.settled = true
  residual : ∀ i < u.rowCount, u.toState.residual i = 0
  values : ∀ j < u.nonBasicCount,
    coord u.nonBasicValues j = u.bounds.startOf (u.split.nonBasicVar j)
  priced : ∃ pricing : Pricing (Extended K), pricing.rule = t.pricing.rule
    ∧ pricing.compute u.pricingView = .ok u.pricing

section Start

/-- The state of a start before the basic variables have values. -/
def launched (s : State (Extended K)) (split : BasisSplit) : State (Extended K) :=
  { s with
    split
    nonBasicValues :=
      (List.range s.nonBasicCount).map fun j => fin (s.bounds.startOf (split.nonBasicVar j))
    basicValues := Scalar.zeros s.rowCount
    standings := List.replicate s.rowCount .between }

variable [IsStrictOrderedRing K]

/-- The inverse, the values and the prices of a start, one after the other. -/
theorem started_of_refactor (ht : t.Prepared) {split : BasisSplit}
    (hsplit : split.WellFormed t.rowCount t.varCount) {w v : Tableau (Extended K)}
    (hrefactor : Tableau.refactor { t with toState := launched t.toState split } = .ok (.ok (), w))
    (hvalues : Tableau.computeValues { w with hasBasis := true, plan := .none } = .ok v)
    (hprices : v.computePrices = .ok u) : Started t u := by
  have hlaunched : (launched t.toState split).WellFormed :=
    ⟨ht.matrix, ht.rhs, ht.bounds, hsplit, .zeros _, .map_range _ _⟩
  obtain ⟨_, -, hprices⟩ := Checked.bind_eq_ok.mp hprices
  obtain ⟨pricing, hpricing, hprices⟩ := Checked.bind_eq_ok.mp hprices
  obtain rfl : { v with pricing } = u := Except.ok.inj hprices
  obtain ⟨inverse, hsil, hsolv⟩ := solvable_of_refactor (by exact hlaunched) hrefactor
  -- the tableau after the start of the inverse, apart from what was told and counted
  obtain ⟨hstate, hset, hrule⟩ : w.toState = launched t.toState split
      ∧ w.settings = t.settings ∧ w.pricing.rule = t.pricing.rule := by
    obtain ⟨_, _, rfl⟩ := hsil
    exact ⟨rfl, rfl, rfl⟩
  clear hsil hrefactor
  obtain ⟨zs, hsil, hv, hres⟩ := Solvable.computeValues
    (t := { w with hasBasis := true, plan := .none }) ⟨hsolv.state, hsolv.unit,
      hsolv.inverse⟩ hvalues
  obtain ⟨ss, hvstate, hvset, hvrule, hvplan, hvbasis, hvst⟩ : ∃ ss,
      v.toState = { w.toState with basicValues := zs, settled := true, standings := ss }
      ∧ v.settings = w.settings ∧ v.pricing.rule = w.pricing.rule ∧ v.plan = .none
      ∧ v.hasBasis = true ∧ v.standings = freshStandings v.toState v.settings.boundTolerance := by
    obtain ⟨_, _, rfl⟩ := hsil
    exact ⟨_, rfl, rfl, rfl, rfl, rfl, rfl⟩
  clear hsil hvalues
  rw [hstate] at hvstate
  have hmatrix : v.matrix = t.matrix := (congrArg State.matrix hvstate :)
  have hbounds : v.bounds = t.bounds := (congrArg State.bounds hvstate :)
  have hrow : v.rowCount = w.rowCount := by
    rw [State.rowCount, State.rowCount, hmatrix, hstate]
    rfl
  have hcount : v.nonBasicCount = t.nonBasicCount := by
    rw [State.nonBasicCount, State.nonBasicCount, State.varCount, State.varCount, State.rowCount,
      State.rowCount, hmatrix]
  refine ⟨⟨⟨hv.state, hv.unit, hv.inverse⟩, hvst, hvbasis⟩, hvset.trans hset, hmatrix,
    (congrArg State.rightHandSide hvstate :), hbounds,
    Eq.trans (congrArg State.merges hvstate :) ht.merges, hvplan,
    (congrArg State.settled hvstate :), fun i hi => hres i (hrow ▸ hi), fun j hj => ?_, _,
    hvrule.trans hrule, hpricing⟩
  have hnon : v.nonBasicValues = (launched t.toState split).nonBasicValues :=
    (congrArg State.nonBasicValues hvstate :)
  have hvsplit : v.split = split := (congrArg State.split hvstate :)
  show coord v.nonBasicValues j = v.bounds.startOf (v.split.nonBasicVar j)
  rw [hnon, hbounds, hvsplit]
  exact coord_map_range (hcount ▸ hj) fun j => t.bounds.startOf (split.nonBasicVar j)

/-- **A start that was accepted.** -/
theorem start_spec (ht : t.Prepared) (h : t.start = .ok (.ok (), u)) : Started t u := by
  unfold Tableau.start at h
  by_cases hm : t.split.basicSet.size = t.rowCount
  swap
  · rw [if_pos hm] at h
    cases h
  rw [if_neg (not_not.mpr hm)] at h
  obtain ⟨split, hlist, h⟩ := Checked.bind_eq_ok.mp h
  obtain ⟨_, hcons, h⟩ := Checked.bind_eq_ok.mp h
  obtain ⟨ys, hys, h⟩ := Checked.bind_eq_ok.mp h
  obtain ⟨⟨r, w⟩, hrefactor, h⟩ := Checked.bind_eq_ok.mp h
  have hsplit : split.WellFormed t.rowCount t.varCount :=
    BasisSplit.wellFormed_of_listNonBasic ht.places hm hlist (Checked.require_eq_ok.mp hcons)
  -- All non-basic variables have their starting values.
  rw [ht.bounds.mapM_startValue hsplit] at hys
  cases hys
  cases r with
  | error cause => cases h
  | ok _ =>
    obtain ⟨v, hvalues, h⟩ := Checked.bind_eq_ok.mp h
    obtain ⟨v', hprices, h⟩ := Checked.bind_eq_ok.mp h
    obtain ⟨_, -, h⟩ := Checked.bind_eq_ok.mp h
    cases h
    exact started_of_refactor ht hsplit hrefactor hvalues hprices

/-- **A start from a list of basic variables** that was accepted. -/
theorem startFrom_spec (ht : t.Prepared) {vs : List Nat} (h : t.startFrom vs = .ok (.ok (), u)) :
    Started t u := by
  unfold startFrom at h
  split at h
  · cases h
  by_cases hsize : vs.length ≠ t.rowCount ∨ countDistinct vs ≠ t.rowCount
  · rw [if_pos hsize] at h
    cases h
  rw [if_neg hsize] at h
  obtain ⟨w, hw, h⟩ := Checked.bind_eq_ok.mp h
  -- giving the variables their rows touches the split only
  obtain ⟨split, rfl, hlen⟩ : ∃ split, w = { t with split, hasBasis := false }
      ∧ split.positions.length = t.varCount := by
    refine Checked.foldlM_inv (P := fun w => ∃ split, w = { t with split, hasBasis := false }
      ∧ split.positions.length = t.varCount) (fun p _ a b ha hb => ?_)
      ⟨BasisSplit.blank t.rowCount t.varCount, rfl, by simp [BasisSplit.blank]⟩ hw
    obtain ⟨split, rfl, hlen⟩ := ha
    obtain ⟨c, hc, hb⟩ := Checked.bind_eq_ok.mp hb
    obtain ⟨_, -, hc⟩ := Checked.bind_eq_ok.mp hc
    obtain ⟨split', hs, hc⟩ := Checked.bind_eq_ok.mp hc
    obtain ⟨_, -, hs⟩ := Checked.bind_eq_ok.mp hs
    cases hs
    cases hc
    obtain ⟨_, -, hb⟩ := Checked.bind_eq_ok.mp hb
    obtain ⟨split', hs, hb⟩ := Checked.bind_eq_ok.mp hb
    obtain ⟨-, rfl⟩ := BasisSplit.assignRow_spec hs
    cases hb
    exact ⟨_, rfl, by rw [List.length_set]; exact hlen⟩
  have hs := start_spec (t := { t with split, hasBasis := false })
    ⟨ht.matrix, ht.rhs, ht.bounds, hlen, ht.merges, ht.plan⟩ h
  exact ⟨hs.sound, hs.settings, hs.matrix, hs.rhs, hs.bounds, hs.merges, hs.plan, hs.settled,
    hs.residual, hs.values, hs.priced⟩

end Start

end Tableau

end BoundedSimplex
