/-
  BoundedSimplex.Proofs.Folding — merged variables and the system they were merged in.

  A merge moves the column of its source over to its target, and from then on the source is read
  through the target.  Where the column of a variable is and where the variable is read are two
  things: the columns move to the target that is named, while reading follows the links to the end.

  They agree as long as nothing is merged into a variable that was itself merged away.  Then the
  values that are read satisfy the equations that held before the first merge, and a variable that
  is left has the bounds of all that are read through it.  In general the values where the columns
  are satisfy these equations, and the values that are read miss them by the difference.

  Main results:
    * `Folded.merge` — what a merge does to the invariant;
    * `values_of_folding` — how the values that are read relate to the original system.
-/
import BoundedSimplex.Proofs.Merges
import BoundedSimplex.Proofs.Session
import BoundedSimplex.Proofs.Tableau.Optimality
import Mathlib.Algebra.Field.Rat
import Mathlib.Algebra.Order.Ring.Rat

namespace BoundedSimplex

open Extended Tableau

variable {K : Type} [Field K] [LinearOrder K]

/-! ## §1.  Where a column is -/

/-- Where the column of a variable is after merges, of which the last one comes first. -/
def holder : List (Nat × Nat) → Nat → Nat
  | [], v => v
  | (source, target) :: earlier, v =>
    if holder earlier v = source then target else holder earlier v

/-- Nothing was merged into a variable that had been merged away. -/
def Direct : List (Nat × Nat) → Prop
  | [] => True
  | (_, target) :: earlier => target ∉ earlier.map Prod.fst ∧ Direct earlier

/-- Where a column is held after one more fold: what the source held moves to the target. -/
theorem holder_cons (source target : Nat) (earlier : List (Nat × Nat)) (v : Nat) :
    holder ((source, target) :: earlier) v
      = if holder earlier v = source then target else holder earlier v :=
  rfl

/-- Columns are only ever held by columns that exist. -/
theorem holder_lt {n : Nat} {ms : List (Nat × Nat)} (h : ∀ p ∈ ms, p.2 < n) {v : Nat} (hv : v < n) :
    holder ms v < n := by
  induction ms with
  | nil => exact hv
  | cons p ms ih =>
    rw [holder_cons]
    split
    · exact h p List.mem_cons_self
    · exact ih fun q hq => h q (List.mem_cons_of_mem _ hq)

/-- The entries of a row, at the places where the columns are. -/
def gathered (A : Nat → Nat → K) (n : Nat) (place : Nat → Nat) (i w : Nat) : K :=
  ∑ v ∈ Finset.range n, if place v = w then A i v else 0

omit [LinearOrder K] in
/-- A row of the gathered columns is a row of the original ones. -/
theorem sum_gathered {A : Nat → Nat → K} {n : Nat} {place : Nat → Nat}
    (hp : ∀ v < n, place v < n) (i : Nat) (x : Nat → K) :
    ∑ w ∈ Finset.range n, gathered A n place i w * x w
      = ∑ v ∈ Finset.range n, A i v * x (place v) := by
  unfold gathered
  simp only [Finset.sum_mul]
  rw [Finset.sum_comm]
  refine Finset.sum_congr rfl fun v hv => ?_
  have hterm (w : Nat) : (if place v = w then A i v else 0) * x w
      = if place v = w then A i v * x w else 0 := by
    rw [ite_mul, zero_mul]
  rw [Finset.sum_congr rfl fun w _ => hterm w, Finset.sum_ite_eq,
    if_pos (Finset.mem_range.mpr (hp v (Finset.mem_range.mp hv)))]

omit [LinearOrder K] in
/-- Folding a column that was gathered gathers it at the target. -/
theorem gathered_fold {A : Nat → Nat → K} {n source target : Nat} (hne : source ≠ target)
    {place place' : Nat → Nat}
    (hplace : ∀ v, place' v = if place v = source then target else place v) (i w : Nat) :
    gathered A n place' i w
      = if w = source then 0
        else if w = target then gathered A n place i target + gathered A n place i source
        else gathered A n place i w := by
  unfold gathered
  -- The source is emptied, the target gathers both, and all other places stay as they are.
  by_cases hs : w = source
  · rw [if_pos hs]
    refine Finset.sum_eq_zero fun v _ => if_neg ?_
    rw [hplace, hs]
    split
    · exact hne.symm
    · assumption
  · rw [if_neg hs]
    by_cases ht : w = target
    · rw [if_pos ht, ← Finset.sum_add_distrib]
      refine Finset.sum_congr rfl fun v _ => ?_
      rw [hplace, ht]
      by_cases hv : place v = source
      · rw [if_pos hv, if_pos rfl, if_pos hv, if_neg (by rw [hv]; exact hne), zero_add]
      · rw [if_neg hv, if_neg hv, add_zero]
    · rw [if_neg ht]
      refine Finset.sum_congr rfl fun v _ => ?_
      rw [hplace]
      by_cases hv : place v = source
      · rw [if_pos hv, if_neg (Ne.symm ht), if_neg (by rw [hv]; exact Ne.symm hs)]
      · rw [if_neg hv]

/-! ## §2.  Runs with merges -/

/-- The tableaux that are reached by merges, pivots and moves from a consistent one without merges,
    with the merges so far, the last one first.  Bounds are compared exactly, and no sum of two
    columns has an entry that is negligible but not zero. -/
inductive Folding (t₀ : Tableau (Extended K)) : List (Nat × Nat) → Tableau (Extended K) → Prop
  | initial {l : Ledger K} {saved : List (State (Extended K) × Ledger K)}
      (reached : Reachable 0 ⟨t₀, l, saved⟩) (unmerged : t₀.merges = .none)
      (consistent : ∀ i < t₀.rowCount, t₀.toState.residual i = 0) : Folding t₀ [] t₀
  /-- A merge that is accepted. -/
  | merged {ms : List (Nat × Nat)} {t u : Tableau (Extended K)} {source target : Nat}
      (before : Folding t₀ ms t)
      (exact : ∀ i < t.rowCount, t.matrix.coeff i target + t.matrix.coeff i source = 0
        ∨ ¬(fin |t.matrix.coeff i target + t.matrix.coeff i source| : Extended K)
            < Scalar.negligible)
      (done : t.merge source target = .ok (.ok (), u)) : Folding t₀ ((source, target) :: ms) u
  /-- Selections and prices. -/
  | prepared {ms : List (Nat × Nat)} {t u : Tableau (Extended K)} {op : Operation (Extended K)}
      {reply : Reply (Extended K)} (before : Folding t₀ ms t) (prepares : op.Prepares)
      (done : t.perform op = .ok (reply, u)) : Folding t₀ ms u
  /-- A pivot, after a ratio test. -/
  | pivoted {ms : List (Nat × Nat)} {t w u : Tableau (Extended K)} (before : Folding t₀ ms t)
      (selected : Selected t w) (keeps : w.KeepsColumn) (done : w.performPivot = .ok u) :
      Folding t₀ ms u
  /-- A non-basic variable moves and the basic ones follow. -/
  | moved {ms : List (Nat × Nat)} {t u : Tableau (Extended K)} {v : Nat} {x : K}
      (before : Folding t₀ ms t) (done : t.moveNonBasic v (fin x) true = .ok u) : Folding t₀ ms u

/-! ## §3.  The invariant -/

/-- A variable that is left has the bounds of all variables that are read through it. -/
def Intersected (b₀ b : Bounds (Extended K)) (n : Nat) (g : Merges) : Prop :=
  ∀ w < n, g.Stands w → ∀ y : K,
    (b.lowerOf w ≤ fin y ↔ ∀ v < n, g.resolve v = w → b₀.lowerOf v ≤ fin y)
      ∧ ((fin y : Extended K) ≤ b.upperOf w
        ↔ ∀ v < n, g.resolve v = w → (fin y : Extended K) ≤ b₀.upperOf v)

/-- What merges, pivots and moves keep of the tableau before the first merge. -/
structure Folded (t₀ : Tableau (Extended K)) (ms : List (Nat × Nat)) (t : Tableau (Extended K)) :
    Prop where
  sound : t.Sound
  exact : t.settings.boundTolerance = fin 0
  rowCount : t.rowCount = t₀.rowCount
  varCount : t.varCount = t₀.varCount
  rhs : t.rightHandSide = t₀.rightHandSide
  residual : ∀ i < t.rowCount, t.toState.residual i = 0
  grounded : t.merges.Grounded
  stands : ∀ v, t.merges.Stands v ↔ v ∉ ms.map Prod.fst
  targets : ∀ p ∈ ms, p.2 < t.varCount
  resolves : ∀ v < t.varCount, t.merges.resolve v < t.varCount
  matrix : ∀ i < t.rowCount, ∀ w < t.varCount,
    t.matrix.coeff i w = gathered t₀.matrix.coeff t.varCount (holder ms) i w
  direct : Direct ms → (∀ v, t.merges.resolve v = holder ms v)
    ∧ Intersected t₀.bounds t.bounds t.varCount t.merges

namespace Folded

variable {t₀ t u w : Tableau (Extended K)} {ms : List (Nat × Nat)}

/-- A change that leaves the system, the bounds and the merges alone. -/
theorem keep (h : Folded t₀ ms t) (hs : u.Sound) (hset : u.settings = t.settings)
    (hm : u.matrix = t.matrix) (hrhs : u.rightHandSide = t.rightHandSide) (hb : u.bounds = t.bounds)
    (hg : u.merges = t.merges) (hres : ∀ i < t.rowCount, u.toState.residual i = 0) :
    Folded t₀ ms u := by
  have hrow : u.rowCount = t.rowCount := congrArg SystemMatrix.rowCount hm
  have hvar : u.varCount = t.varCount := congrArg SystemMatrix.columnCount hm
  refine ⟨hs, by rw [hset]; exact h.exact, hrow.trans h.rowCount, hvar.trans h.varCount,
    hrhs.trans h.rhs, by rw [hrow]; exact hres, ?_, ?_, ?_, ?_, ?_, ?_⟩
  · rw [hg]
    exact h.grounded
  · rw [hg]
    exact h.stands
  · rw [hvar]
    exact h.targets
  · rw [hvar, hg]
    exact h.resolves
  · rw [hrow, hvar, hm]
    exact h.matrix
  · rw [hvar, hg, hb]
    exact h.direct

/-- The bounds after a merge into a variable that is left. -/
theorem intersected {b₀ b b' : Bounds (Extended K)} {n source target : Nat} {g g' : Merges}
    (h : Intersected b₀ b n g) (hg : g.Grounded) (hrecord : g.record source target = .ok g')
    (hs : source < n) (ht : target < n) (hstands : g.Stands target)
    (hb : Intersects b b' source target) : Intersected b₀ b' n g' := by
  obtain ⟨-, hresolve⟩ := Merges.resolve_record hg hrecord
  obtain ⟨-, hsource⟩ := Merges.of_record hrecord
  have htarget : g.resolve target = target := hg.resolve_of_stands hstands
  intro w hw hw' y
  have hstood : w ≠ source ∧ g.Stands w := by
    have := Merges.target?_record w hrecord
    rw [show g'.target? w = none from hw'] at this
    split at this
    · cases this
    · next hne => exact ⟨hne, this.symm⟩
  -- what is read through a variable now
  have hread (P : Nat → Prop) : (∀ v < n, g'.resolve v = w → P v)
      ↔ (∀ v < n, g.resolve v = w → P v)
        ∧ (w = target → ∀ v < n, g.resolve v = source → P v) := by
    constructor
    · intro hall
      refine ⟨fun v hv hvw => hall v hv ?_, fun hwt v hv hvs => hall v hv ?_⟩
      · rw [hresolve, hvw, if_neg hstood.1]
      · rw [hresolve, if_pos hvs, htarget, hwt]
    · rintro ⟨hold, hnew⟩ v hv hvw
      rw [hresolve] at hvw
      split at hvw
      · next hvs => exact hnew (hvw.symm.trans htarget) v hv hvs
      · exact hold v hv hvw
  rw [hread, hread]
  by_cases hwt : w = target
  · subst hwt
    rw [hb.lowerTarget, hb.upperTarget, (h w hw hstands y).1, (h w hw hstands y).2,
      (h source hs hsource y).1, (h source hs hsource y).2]
    exact ⟨⟨fun hl => ⟨hl.1, fun _ => hl.2⟩, fun hl => ⟨hl.1, hl.2 rfl⟩⟩,
      ⟨fun hu => ⟨hu.1, fun _ => hu.2⟩, fun hu => ⟨hu.1, hu.2 rfl⟩⟩⟩
  · rw [hb.lower w hstood.1 hwt, hb.upper w hstood.1 hwt, (h w hw hstood.2 y).1,
      (h w hw hstood.2 y).2]
    exact ⟨⟨fun hl => ⟨hl, fun e => absurd e hwt⟩, fun hl => hl.1⟩,
      ⟨fun hu => ⟨hu, fun e => absurd e hwt⟩, fun hu => hu.1⟩⟩

/-- **A merge.** -/
theorem merge [IsStrictOrderedRing K] (h : Folded t₀ ms t) {source target : Nat}
    (hexact : ∀ i < t.rowCount, t.matrix.coeff i target + t.matrix.coeff i source = 0
      ∨ ¬(fin |t.matrix.coeff i target + t.matrix.coeff i source| : Extended K) < Scalar.negligible)
    (hdone : t.merge source target = .ok (.ok (), u)) : Folded t₀ ((source, target) :: ms) u := by
  have hm := merge_spec h.sound.steady hdone
  obtain ⟨hgrounded, hresolve⟩ := Merges.resolve_record h.grounded hm.merges
  obtain ⟨-, hsource⟩ := Merges.of_record hm.merges
  refine ⟨hm.sound, by rw [hm.settings]; exact h.exact, hm.rowCount.trans h.rowCount,
    hm.varCount.trans h.varCount, hm.rhs.trans h.rhs, by rw [hm.rowCount]; exact hm.residual,
    hgrounded, fun v => ?_, ?_, ?_, ?_, ?_⟩
  · -- the source joins those that were merged away
    show u.merges.target? v = none ↔ _
    rw [Merges.target?_record v hm.merges, List.map_cons, List.mem_cons]
    by_cases hv : v = source
    · simp [hv]
    · rw [if_neg hv, or_iff_right hv]
      exact h.stands v
  · rw [hm.varCount]
    intro p hp
    rcases List.mem_cons.mp hp with rfl | hp
    · exact hm.target_lt
    · exact h.targets p hp
  · rw [hm.varCount]
    intro v hv
    rw [hresolve]
    split
    · exact h.resolves _ hm.target_lt
    · exact h.resolves v hv
  · -- the column of the target gathers what the source had gathered
    rw [hm.rowCount, hm.varCount]
    intro i hi w hw
    rw [hm.matrix i hi w hw, gathered_fold hm.distinct (holder_cons source target ms),
      SystemMatrix.folded, ← h.matrix i hi source hm.source_lt, ← h.matrix i hi target hm.target_lt,
      ← h.matrix i hi w hw]
    by_cases hs : w = source
    · rw [if_pos hs, if_pos hs]
    · rw [if_neg hs, if_neg hs]
      by_cases ht : w = target
      · rw [if_pos ht, if_pos ht]
        split
        · next hzero => rw [hzero, add_zero]
        · exact SystemMatrix.settled_eq (hexact i hi)
      · rw [if_neg ht, if_neg ht]
  · -- a direct merge reads the source through the target itself
    rintro ⟨htarget, hdirect⟩
    obtain ⟨hread, hbounds⟩ := h.direct hdirect
    have hstands : t.merges.Stands target := (h.stands target).mpr htarget
    rw [hm.varCount]
    refine ⟨fun v => ?_, intersected hbounds h.grounded hm.merges hm.source_lt hm.target_lt hstands
      hm.bounds⟩
    rw [hresolve, h.grounded.resolve_of_stands hstands, hread]
    rfl

end Folded

section Runs

variable [IsStrictOrderedRing K] {t₀ t : Tableau (Extended K)} {ms : List (Nat × Nat)}

/-- **Every run** keeps the invariant. -/
theorem Folding.folded (h : Folding t₀ ms t) : Folded t₀ ms t := by
  induction h with
  | initial hreached hmerges hres =>
    have hv := hreached.valid
    have hsound := hv.sound
    refine ⟨hsound, hv.tolerance, rfl, rfl, rfl, hres, ?_, fun v => ?_, by simp, ?_, ?_, ?_⟩
    · rw [hmerges]
      exact Merges.grounded_none
    · rw [hmerges]
      exact ⟨fun _ => List.not_mem_nil, fun _ => rfl⟩
    · rw [hmerges]
      exact fun v hv => hv
    · intro i _ w hw
      unfold gathered holder
      rw [Finset.sum_ite_eq', if_pos (Finset.mem_range.mpr hw)]
    · rw [hmerges]
      refine fun _ => ⟨fun _ => rfl, fun w hw _ y => ?_⟩
      exact ⟨⟨fun hl v _ hvw => by rw [show v = w from hvw]; exact hl, fun hall => hall w hw rfl⟩,
        ⟨fun hu v _ hvw => by rw [show v = w from hvw]; exact hu, fun hall => hall w hw rfl⟩⟩
  | merged _ hexact hdone ih => exact ih.merge hexact hdone
  | prepared _ hop hdone ih =>
    obtain ⟨plan, pricing, multipliers, hsil⟩ := prepares_spec hop hdone
    have hsound := ih.sound.replan hsil
    obtain ⟨_, _, rfl⟩ := hsil
    exact ih.keep hsound rfl rfl rfl rfl rfl ih.residual
  | pivoted _ hsel hk hdone ih =>
    obtain ⟨j, plan, -, hw, -, hp⟩ := selected_spec ih.sound.steady hsel
    have hp := hp ih.sound.toSolvable
    have hsound := hw.sound ih.sound
    obtain ⟨_, _, rfl⟩ := hw
    cases performPivot_spec hsound ih.exact hp hk hdone with
    | ignored hs hc =>
      obtain ⟨_, _, rfl⟩ := hc
      exact ih.keep hs rfl rfl rfl rfl rfl ih.residual
    | jumped hs hc hr _ =>
      obtain ⟨_, _, rfl⟩ := hc
      exact ih.keep hs rfl rfl rfl rfl rfl fun i hi => (hr i hi).trans (ih.residual i hi)
    | @exchanged i y e _ hx hnear _ =>
      -- with a tolerance of zero the leaving variable lands on its bound
      have he : e = 0 := abs_nonpos_iff.mp (by simpa using hnear)
      obtain ⟨-, -, ⟨_, _, _, _, -, _, _, rfl⟩, hs, hr⟩ := hx
      refine ih.keep hs rfl rfl rfl rfl rfl fun k hk => ?_
      rw [hr k hk, he, mul_zero, add_zero]
      exact ih.residual k hk
  | moved _ hdone ih =>
    obtain ⟨-, -, xs, ss, ⟨_, _, rfl⟩, hs, hr⟩ := ih.sound.moveNonBasic_follow hdone
    exact ih.keep hs rfl rfl rfl rfl rfl fun i hi => (hr i hi).trans (ih.residual i hi)

omit [IsStrictOrderedRing K] in
/-- The values at the places where the columns are satisfy the original equations. -/
theorem Folded.solves_holder (h : Folded t₀ ms t) :
    t₀.toState.Solves fun v => t.toState.stored (holder ms v) := by
  intro i hi
  show ∑ v ∈ Finset.range t₀.varCount, _ = _
  rw [← h.rowCount] at hi
  have hsolves := State.solves_stored h.residual i hi
  rw [← h.varCount, ← sum_gathered (fun v hv => holder_lt h.targets hv) i, ← h.rhs, ← hsolves]
  exact Finset.sum_congr rfl fun w hw => by rw [h.matrix i hi w (Finset.mem_range.mp hw)]

/-- **Merged variables and the original system.**  Every variable has a value, which is that of the
    variable it is read through.  The values satisfy the equations that held before the first merge
    exactly if it makes no difference to any row that variables are read elsewhere than their
    columns are.  If nothing was merged into a variable that had been merged away, that is so, and
    every variable that is left has the bounds of all that are read through it. -/
theorem values_of_folding (h : Folding t₀ ms t) : ∃ x : Nat → K,
    (∀ v < t.varCount, t.value v = .ok (fin (x v)) ∧ t.merges.resolve v < t.varCount
      ∧ t.value (t.merges.resolve v) = t.value v)
      ∧ (t₀.toState.Solves x ↔ ∀ i < t₀.rowCount, ∑ v ∈ Finset.range t₀.varCount,
          t₀.matrix.coeff i v * (x v - t.toState.stored (holder ms v)) = 0)
      ∧ (Direct ms → t₀.toState.Solves x
        ∧ ∀ w < t.varCount, t.merges.resolve w = w → ∀ y : K,
          (t.bounds.lowerOf w ≤ fin y
              ↔ ∀ v < t.varCount, t.merges.resolve v = w → t₀.bounds.lowerOf v ≤ fin y)
            ∧ ((fin y : Extended K) ≤ t.bounds.upperOf w
              ↔ ∀ v < t.varCount, t.merges.resolve v = w →
                (fin y : Extended K) ≤ t₀.bounds.upperOf v)) := by
  have hf := h.folded
  have hvalue (v : Nat) (hv : v < t.varCount) :
      t.toState.value v = .ok (fin (t.toState.stored (t.merges.resolve v))) := by
    unfold State.value State.requireVariable
    rw [Checked.require, if_pos hv]
    exact hf.sound.state.storedValue_eq (hf.resolves v hv)
  refine ⟨fun v => t.toState.stored (t.merges.resolve v),
    fun v hv => ⟨hvalue v hv, hf.resolves v hv, ?_⟩, ?_, fun hdirect => ?_⟩
  · rw [hvalue _ (hf.resolves v hv), hvalue v hv, hf.grounded.resolve_resolve]
  -- The sums of the merged matrix over the holders are the right-hand side.
  · have hholder := hf.solves_holder
    refine forall₂_congr fun i hi => ?_
    have hsum := hholder i hi
    simp only [mul_sub]
    rw [Finset.sum_sub_distrib, sub_eq_zero]
    exact ⟨fun hx => hx.trans hsum.symm, fun hx => hx.trans hsum⟩
  · obtain ⟨hread, hbounds⟩ := hf.direct hdirect
    refine ⟨?_, fun w hw hstands => hbounds w hw ?_⟩
    · simp only [hread]
      exact hf.solves_holder
    · rw [← hstands]
      exact hf.grounded w

end Runs

/-- In `x₀ + x₁ + x₂ + x₃ = 10` the values stay a solution when `x₀` is merged into `x₁`.  Merging
    `x₂` into `x₀` afterwards leaves its column with `x₀` while it is read through `x₁`, and when
    that moves to 1 the values are 1, 1, 1 and 8. -/
theorem values_around_indirect_merge : ∃ t₀ a b : Tableau (Extended ℚ),
    Folding t₀ [(0, 1)] a ∧ Folding t₀ [(2, 0), (0, 1)] b
      ∧ (∃ x : Nat → ℚ, (∀ v < a.varCount, a.value v = .ok (fin (x v))) ∧ t₀.toState.Solves x)
      ∧ ∃ x : Nat → ℚ, (∀ v < b.varCount, b.value v = .ok (fin (x v))) ∧ ¬t₀.toState.Solves x := by
  have hrun : (do
      let t ← (create (α := Extended ℚ) { boundTolerance := 0 }).run [.setSize 1 4,
        .setCoefficients [fin 1, fin 1, fin 1, fin 1], .setRightHandSide [fin 10],
        .setLower 0 (fin 0), .setLower 1 (fin 0), .setLower 2 (fin 0), .setLower 3 (fin 0)]
      let (r, s) ← t.startFrom [3]
      let (p, a) ← s.merge 0 1
      let (q, c) ← a.merge 2 0
      let b ← c.moveNonBasic 1 (fin 1) true
      Checked.require (r = Except.ok () ∧ p = Except.ok () ∧ q = Except.ok ()
        ∧ t.settings.boundTolerance = fin 0 ∧ s.merges = Merges.none) .inconsistent
      Checked.require ((∀ i < s.rowCount, s.matrix.coeff i 1 + s.matrix.coeff i 0 = 0
          ∨ ¬(fin |s.matrix.coeff i 1 + s.matrix.coeff i 0| : Extended ℚ) < Scalar.negligible)
        ∧ (∀ i < a.rowCount, a.matrix.coeff i 0 + a.matrix.coeff i 2 = 0
          ∨ ¬(fin |a.matrix.coeff i 0 + a.matrix.coeff i 2| : Extended ℚ)
              < Scalar.negligible)) .inconsistent
      Checked.require (s.rowCount = 1 ∧ s.varCount = 4 ∧ (∀ v < s.varCount, s.matrix.coeff 0 v = 1)
        ∧ coord s.rightHandSide 0 = 10) .inconsistent
      Checked.require (∀ v < b.varCount,
        b.value v = Except.ok (fin (if v = 3 then 8 else 1))) .inconsistent)
      = .ok () := by decide +kernel
  obtain ⟨t, ht, hrun⟩ := Checked.bind_eq_ok.mp hrun
  obtain ⟨⟨r, s⟩, hs, hrun⟩ := Checked.bind_eq_ok.mp hrun
  obtain ⟨⟨p, a⟩, ha, hrun⟩ := Checked.bind_eq_ok.mp hrun
  obtain ⟨⟨q, c⟩, hc, hrun⟩ := Checked.bind_eq_ok.mp hrun
  obtain ⟨b, hb, hrun⟩ := Checked.bind_eq_ok.mp hrun
  obtain ⟨_, hstart, hrun⟩ := Checked.bind_eq_ok.mp hrun
  obtain ⟨_, hsums, hrun⟩ := Checked.bind_eq_ok.mp hrun
  obtain ⟨_, hsystem, hend⟩ := Checked.bind_eq_ok.mp hrun
  obtain ⟨rfl, rfl, rfl, hτ, hmerges⟩ := Checked.require_eq_ok.mp hstart
  obtain ⟨hsum, hsum'⟩ := Checked.require_eq_ok.mp hsums
  obtain ⟨hrow, hvar, hcoeff, hrhs⟩ := Checked.require_eq_ok.mp hsystem
  have hvalues := Checked.require_eq_ok.mp hend
  -- The start is a reached state without merges, so it is a folding of nothing.
  have hconf : t.Configured := (Configured.created _).run (by decide +kernel) ht
  have hreached : Reachable 0 ⟨s, .clear, []⟩ := .startedFrom hconf hτ hs
  have hvalid := hreached.valid
  have hinitial : Folding s [] s := by
    refine .initial hreached hmerges fun i hi => ?_
    have hnear : |s.toState.residual i - 0| ≤ 0 := hvalid.tallies.near i hi
    rwa [sub_zero, abs_nonpos_iff] at hnear
  have hdirect := hinitial.merged hsum ha
  have hindirect := (hdirect.merged hsum' hc).moved hb
  refine ⟨s, a, b, hdirect, hindirect, ?_, ?_⟩
  · obtain ⟨x, hx, -, hsolves⟩ := values_of_folding hdirect
    exact ⟨x, fun v hv => (hx v hv).1, (hsolves ⟨List.not_mem_nil, trivial⟩).1⟩
  -- The second run leaves 1, 1, 1 and 8, which sum up to 11.
  · refine ⟨fun v => if v = 3 then 8 else 1, hvalues, fun hsolves => ?_⟩
    have hzero := hsolves 0 (by rw [hrow]; exact one_pos)
    rw [hrhs, Finset.sum_congr rfl fun v hv => by rw [hcoeff v (Finset.mem_range.mp hv), one_mul],
      hvar] at hzero
    simp only [Finset.sum_range_succ, Finset.sum_range_zero] at hzero
    norm_num at hzero

end BoundedSimplex
