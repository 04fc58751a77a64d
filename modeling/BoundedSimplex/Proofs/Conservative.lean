/-
  BoundedSimplex.Proofs.Conservative — an equation that is added cuts nothing off.

  The new row says that the new variable is the residual of the equation, with every variable
  read through the merges.  So numbers that satisfy the old equations extend to the new variable
  in exactly one way, and interval arithmetic on the bounds of the old variables encloses the
  number that it gets.

  Main results:
    * `residualBounds_encloses` — interval arithmetic on the terms of an equation;
    * `solves_of_push` — the solutions of the system with the new row;
    * `addEquation_conservative` — an equation that was accepted is a conservative extension.
-/
import BoundedSimplex.Proofs.Overrides
import BoundedSimplex.Proofs.Tableau.Growth

namespace BoundedSimplex

open Extended

variable {K : Type} [Field K] [LinearOrder K]

/-! ## §1.  Intervals -/

namespace Extended

variable {l l' u u' : Extended K} {c x y : K}

section Sums

variable [IsStrictOrderedRing K]

/-- Lower bounds add up. -/
theorem add_le_fin (hl : l < Scalar.infinity) (hl' : l' < Scalar.infinity) (hx : l ≤ fin x)
    (hy : l' ≤ fin y) : l + l' ≤ fin (x + y) := by
  obtain rfl | ⟨a, rfl⟩ := lt_infinity_iff.mp hl
  · obtain rfl | ⟨b, rfl⟩ := lt_infinity_iff.mp hl'
    · rfl
    · rfl
  · obtain rfl | ⟨b, rfl⟩ := lt_infinity_iff.mp hl'
    · rfl
    · rw [fin_le_fin] at hx hy
      exact (fin_le_fin _ _).mpr (add_le_add hx hy)

/-- Upper bounds add up. -/
theorem fin_le_add (hu : -Scalar.infinity < u) (hu' : -Scalar.infinity < u') (hx : fin x ≤ u)
    (hy : fin y ≤ u') : fin (x + y) ≤ u + u' := by
  obtain rfl | ⟨a, rfl⟩ := neg_infinity_lt_iff.mp hu
  · obtain rfl | ⟨b, rfl⟩ := neg_infinity_lt_iff.mp hu'
    · rfl
    · rfl
  · obtain rfl | ⟨b, rfl⟩ := neg_infinity_lt_iff.mp hu'
    · rfl
    · rw [fin_le_fin] at hx hy
      exact (fin_le_fin _ _).mpr (add_le_add hx hy)

/-- A positive factor keeps a lower bound. -/
theorem mul_le_fin_of_pos (hc : 0 < c) (hl : l < Scalar.infinity) (hx : l ≤ fin x) :
    fin c * l ≤ fin (c * x) := by
  obtain rfl | ⟨a, rfl⟩ := lt_infinity_iff.mp hl
  · show signed (-c) ≤ _
    rw [signed_of_neg (neg_neg_of_pos hc)]
    rfl
  · rw [fin_le_fin] at hx
    exact (fin_le_fin _ _).mpr (mul_le_mul_of_nonneg_left hx hc.le)

/-- A positive factor keeps an upper bound. -/
theorem fin_le_mul_of_pos (hc : 0 < c) (hu : -Scalar.infinity < u) (hx : fin x ≤ u) :
    fin (c * x) ≤ fin c * u := by
  obtain rfl | ⟨a, rfl⟩ := neg_infinity_lt_iff.mp hu
  · show _ ≤ signed c
    rw [signed_of_pos hc]
    rfl
  · rw [fin_le_fin] at hx
    exact (fin_le_fin _ _).mpr (mul_le_mul_of_nonneg_left hx hc.le)

/-- A negative factor makes a lower bound of an upper one. -/
theorem mul_le_fin_of_neg (hc : c < 0) (hu : -Scalar.infinity < u) (hx : fin x ≤ u) :
    fin c * u ≤ fin (c * x) := by
  obtain rfl | ⟨a, rfl⟩ := neg_infinity_lt_iff.mp hu
  · show signed c ≤ _
    rw [signed_of_neg hc]
    rfl
  · rw [fin_le_fin] at hx
    exact (fin_le_fin _ _).mpr (mul_le_mul_of_nonpos_left hx hc.le)

/-- A negative factor makes an upper bound of a lower one. -/
theorem fin_le_mul_of_neg (hc : c < 0) (hl : l < Scalar.infinity) (hx : l ≤ fin x) :
    fin (c * x) ≤ fin c * l := by
  obtain rfl | ⟨a, rfl⟩ := lt_infinity_iff.mp hl
  · show _ ≤ signed (-c)
    rw [signed_of_pos (neg_pos_of_neg hc)]
    rfl
  · rw [fin_le_fin] at hx
    exact (fin_le_fin _ _).mpr (mul_le_mul_of_nonpos_left hx hc.le)

end Sums

/-- The number is within the bounds, which are proper. -/
structure Encloses (i : Extended K × Extended K) (x : K) : Prop where
  lower_lt : i.1 < Scalar.infinity
  lt_upper : -Scalar.infinity < i.2
  within : Within i.1 i.2 x

end Extended

namespace LinearEquation

variable {e : LinearEquation (Extended K)} {lower upper : Nat → Checked (Extended K)} {x : Nat → K}

/-- Every variable is within its bounds, as far as there are any. -/
def Enclosed (lower upper : Nat → Checked (Extended K)) (x : Nat → K) : Prop :=
  ∀ v l u, lower v = .ok l → upper v = .ok u → Encloses (l, u) (x v)

omit [LinearOrder K] in
/-- The left-hand side over other names. -/
theorem weigh_rename (e : LinearEquation (Extended K)) (f : Nat → Nat) (x : Nat → K) :
    (e.rename f).weigh x = e.weigh fun v => x (f v) := by
  unfold weigh rename
  rw [List.map_map]
  rfl

variable [IsStrictOrderedRing K]

/-- **One more term** of an interval.  A negative coefficient exchanges the bounds. -/
theorem extendInterval_encloses (hx : Enclosed lower upper x) {t : Term (Extended K)} {c z : K}
    (hc : t.coefficient = fin c) {i i' : Extended K × Extended K} (hi : Encloses i z)
    (h : extendInterval lower upper i t = .ok i') : Encloses i' (z + c * x t.var) := by
  rcases extendInterval_cases hc h with ⟨rfl, rfl⟩ | ⟨l, u, hl, hu, hsign⟩
  · rwa [zero_mul, add_zero]
  · obtain ⟨hlow, hupp, hfrom, hto⟩ := hx _ _ _ hl hu
    rcases hsign with ⟨hpos, rfl⟩ | ⟨hneg, rfl⟩
    · exact ⟨lower_add hi.1 (lower_mul_of_pos hpos hlow),
        upper_add hi.2 (upper_mul_of_pos hpos hupp),
        add_le_fin hi.1 (lower_mul_of_pos hpos hlow) hi.3.1 (mul_le_fin_of_pos hpos hlow hfrom),
        fin_le_add hi.2 (upper_mul_of_pos hpos hupp) hi.3.2 (fin_le_mul_of_pos hpos hupp hto)⟩
    · exact ⟨lower_add hi.1 (lower_mul_of_neg hneg hupp),
        upper_add hi.2 (upper_mul_of_neg hneg hlow),
        add_le_fin hi.1 (lower_mul_of_neg hneg hupp) hi.3.1 (mul_le_fin_of_neg hneg hupp hto),
        fin_le_add hi.2 (upper_mul_of_neg hneg hlow) hi.3.2 (fin_le_mul_of_neg hneg hlow hfrom)⟩

/-- All terms of a list, one after the other. -/
theorem foldlM_extendInterval_encloses (hx : Enclosed lower upper x) {ts : List (Term (Extended K))}
    (hfin : ∀ t ∈ ts, ∃ c, t.coefficient = fin c) {i i' : Extended K × Extended K} {z : K}
    (hi : Encloses i z) (h : ts.foldlM (extendInterval lower upper) i = .ok i') :
    Encloses i' (z + (ts.map fun t => t.coefficient.val * x t.var).sum) := by
  induction ts generalizing i z with
  | nil =>
    cases h
    simpa using hi
  | cons t ts ih =>
    rw [List.foldlM_cons] at h
    obtain ⟨j, hj, h⟩ := Checked.bind_eq_ok.mp h
    obtain ⟨c, hc⟩ := hfin t List.mem_cons_self
    have hall := ih (fun t' ht' => hfin t' (List.mem_cons_of_mem t ht'))
      (extendInterval_encloses hx hc hi hj) h
    rwa [List.map_cons, List.sum_cons, hc, val_fin, ← add_assoc]

/-- **The interval of the residual** encloses the residual of all numbers that are
    within their bounds. -/
theorem residualBounds_encloses (he : e.IsFinite) (hx : Enclosed lower upper x)
    {i : Extended K × Extended K} (h : e.residualBounds lower upper = .ok i) :
    Encloses i (e.weigh x - e.scalar.val) := by
  obtain ⟨b, hb⟩ := he.scalar
  have hstart : Encloses (-e.scalar, -e.scalar) (-b) := by
    rw [hb, fin_neg]
    exact ⟨rfl, rfl, (fin_le_fin _ _).mpr le_rfl, (fin_le_fin _ _).mpr le_rfl⟩
  have hend := foldlM_extendInterval_encloses hx he.terms hstart h
  rwa [hb, val_fin, sub_eq_neg_add]

end LinearEquation

/-! ## §2.  Solutions -/

/-- **The solutions with the new row** are those without it that give the new
    variable the residual. -/
theorem State.solves_of_push {s u : State (Extended K)} (hs : s.WellFormed)
    {e : LinearEquation (Extended K)} (he : e.IsFinite) (hvars : ∀ t ∈ e.terms, t.var < s.varCount)
    (hmatrix : Tableau.extendMatrix s.matrix e s.varCount = .ok u.matrix)
    (hrhs : u.rightHandSide = s.rightHandSide ++ [e.scalar]) (x : Nat → K) :
    u.Solves x ↔ s.Solves x ∧ x s.varCount = e.weigh x - e.scalar.val := by
  obtain ⟨-, hrows, hcols, hold, hzero, hone, hweigh⟩ :=
    Tableau.extendMatrix_spec hs.matrix he hvars hmatrix
  have hrows : u.rowCount = s.rowCount + 1 := hrows
  have hcols : u.varCount = s.varCount + 1 := hcols
  obtain ⟨b, hb⟩ := he.scalar
  have hleft (i : Nat) : ∑ v ∈ Finset.range u.varCount, u.matrix.coeff i v * x v
      = ∑ v ∈ Finset.range s.varCount, u.matrix.coeff i v * x v
        + u.matrix.coeff i s.varCount * x s.varCount := by
    rw [hcols, Finset.sum_range_succ]
  -- the new column is zero in the old rows
  have hkept (i : Nat) (hi : i < s.rowCount) :
      (∑ v ∈ Finset.range u.varCount, u.matrix.coeff i v * x v = coord u.rightHandSide i)
        ↔ ∑ v ∈ Finset.range s.varCount, s.matrix.coeff i v * x v = coord s.rightHandSide i := by
    rw [hleft, show u.matrix.coeff i s.varCount = 0 from hzero i hi, zero_mul, add_zero, hrhs,
      coord_append_left (hs.rhs.length.symm ▸ hi),
      Finset.sum_congr rfl fun v hv => by rw [hold i hi v (Finset.mem_range.mp hv)]]
  -- and `-1` in the new one, which holds the equation
  have hnew : (∑ v ∈ Finset.range u.varCount, u.matrix.coeff s.rowCount v * x v
      = coord u.rightHandSide s.rowCount) ↔ x s.varCount = e.weigh x - e.scalar.val := by
    have hsum : ∑ v ∈ Finset.range s.varCount, u.matrix.coeff s.rowCount v * x v = e.weigh x :=
      hweigh x
    rw [hleft, hsum, show u.matrix.coeff s.rowCount s.varCount = -1 from hone, hrhs, hb, val_fin,
      ← hs.rhs.length, coord_append_length]
    constructor
    · exact fun h => by linear_combination -h
    · exact fun h => by linear_combination -h
  unfold State.Solves
  rw [hrows]
  constructor
  · intro h
    exact ⟨fun i hi => (hkept i hi).mp (h i (Nat.lt_succ_of_lt hi)),
      hnew.mp (h _ (Nat.lt_succ_self _))⟩
  · rintro ⟨hold', hnew'⟩ i hi
    rcases Nat.lt_succ_iff_lt_or_eq.mp hi with hi | rfl
    · exact (hkept i hi).mpr (hold' i hi)
    · exact hnew.mpr hnew'

/-! ## §3.  Conservative extensions -/

/-- One more basic variable, at the end of its list; all others keep their places. -/
theorem BasisSplit.WellFormed.kept_by_pushBasic {m n : Nat} {s : BasisSplit}
    (h : s.WellFormed m n) :
    (s.pushBasic.isBasic n = true ∧ s.pushBasic.positionOf n = .ok m
        ∧ s.pushBasic.basicAt m = .ok n)
      ∧ (∀ v < n, s.pushBasic.isBasic v = s.isBasic v ∧ s.pushBasic.positionOf v = s.positionOf v)
      ∧ (∀ i < m, s.pushBasic.basicAt i = s.basicAt i)
      ∧ ∀ j, s.pushBasic.nonBasicAt j = s.nonBasicAt j := by
  obtain ⟨hp, hvar, hlast, -⟩ := h.pushBasic
  have hm : m < m + 1 := Nat.lt_succ_self m
  refine ⟨⟨?_, ?_, ?_⟩, fun v hv => ⟨?_, ?_⟩, fun i hi => ?_, fun j => rfl⟩
  · rw [h.isBasic_pushBasic, beq_self_eq_true, Bool.true_or]
  · have hplace := hp.place_basicVar hm
    rw [hlast] at hplace
    rw [hp.positionOf_eq (Nat.lt_succ_self n), hplace]
  · rw [hp.basicAt_eq hm, hlast]
  · rw [h.isBasic_pushBasic, beq_eq_false_iff_ne.mpr (Nat.ne_of_lt hv), Bool.false_or]
  · rw [hp.positionOf_eq (Nat.lt_succ_of_lt hv), h.positionOf_eq hv]
    show Except.ok (((s.positions ++ [_]).getD v none).getD 0)
      = Except.ok ((s.positions.getD v none).getD 0)
    rw [List.getD_eq_getElem?_getD, List.getElem?_append_left (h.places.symm ▸ hv),
      ← List.getD_eq_getElem?_getD]
  · rw [hp.basicAt_eq (Nat.lt_succ_of_lt hi), hvar i hi, h.basicAt_eq hi]

/-- By how much numbers miss an equation whose variables are read through merges. -/
def LinearEquation.residualThrough (e : LinearEquation (Extended K)) (g : Merges)
    (x : Nat → K) : K :=
  e.weigh (fun v => x (g.resolve v)) - e.scalar.val

/-- `u` is `s` with the equation `e` and a variable for its residual, and otherwise unchanged; no
    solution within the bounds is lost.  Standings are taken up to `τ`. -/
structure State.Conserves (s u : State (Extended K)) (e : LinearEquation (Extended K))
    (τ : Extended K) :
    Prop extends Tableau.Extends s u where
  solves : ∀ x, u.Solves x ↔ s.Solves x ∧ x s.varCount = e.residualThrough s.merges x
  satisfied : s.Satisfied → u.Satisfied
  /-- The bounds of the new variable, and its standing in the new row. -/
  interval : ∃ l b, u.bounds.lower s.varCount = .ok l ∧ u.bounds.upper s.varCount = .ok b
    ∧ (∀ x, s.Admits x → Within l b (e.residualThrough s.merges x))
    ∧ u.standings[s.rowCount]? = some (.classify (fin (e.residualThrough s.merges s.stored)) l b τ)
  place : u.split.isBasic s.varCount = true ∧ u.split.positionOf s.varCount = .ok s.rowCount
    ∧ u.split.basicAt s.rowCount = .ok s.varCount
  newValue : (∀ v < s.varCount, s.storedValue v = .ok (fin (s.stored v)))
    ∧ u.storedValue s.varCount = .ok (fin (e.residualThrough s.merges s.stored))
  values : ∀ v < s.varCount, u.storedValue v = s.storedValue v
  read : ∀ v x, s.value v = .ok x → u.value v = .ok x
  bounds : ∀ v < s.varCount, u.bounds.lower v = s.bounds.lower v
    ∧ u.bounds.upper v = s.bounds.upper v
  places : ∀ v < s.varCount,
    u.split.isBasic v = s.split.isBasic v ∧ u.split.positionOf v = s.split.positionOf v
  rows : ∀ k < s.rowCount, u.split.basicAt k = s.split.basicAt k
  slots : ∀ j, u.split.nonBasicAt j = s.split.nonBasicAt j
  standings : ∀ k < s.rowCount, u.standings[k]? = s.standings[k]?
  merges : u.merges = s.merges

section Conserves

variable {s u : State (Extended K)} {e : LinearEquation (Extended K)} {τ l b x : Extended K}

/-- Numbers that satisfy the bounds are enclosed by them. -/
theorem State.enclosed_of_admits (hs : s.WellFormed) {y : Nat → K} (hy : s.Admits y) :
    LinearEquation.Enclosed s.bounds.lower s.bounds.upper y := by
  intro v l b hl hb
  have hv : v < s.varCount := by
    rw [← hs.bounds.lowers.length]
    exact (List.getElem?_eq_some_iff.mp (Checked.getAt_eq_ok.mp hl)).1
  rw [hs.bounds.lower_eq hv] at hl
  rw [hs.bounds.upper_eq hv] at hb
  cases hl
  cases hb
  exact ⟨hs.bounds.lowerOf_lt hv, hs.bounds.lt_upperOf hv, hy v hv⟩

/-- **Every old variable keeps its value.** -/
theorem Tableau.AddsRow.storedValue_eq (h : Tableau.AddsRow s u e τ l b x) (hs : s.WellFormed)
    (hext : Tableau.Extends s u) {v : Nat} (hv : v < s.varCount) :
    u.storedValue v = s.storedValue v := by
  have hu := hext.wellFormed.split
  obtain ⟨-, hbasic, -, hother⟩ := hs.split.pushBasic
  rw [← h.split] at hbasic hother
  rcases hs.split.cases hv with ⟨i, hi, rfl⟩ | ⟨j, hj, rfl⟩
  · have hx := hs.basic.getElem? hi
    have hx' : u.basicValues[i]? = some (fin (coord s.basicValues i)) := by
      rw [h.basicValues, List.getElem?_append_left (hs.basic.length.symm ▸ hi), hx]
    have hi' : i < u.rowCount := hext.rowCount ▸ Nat.lt_succ_of_lt hi
    rw [State.storedValue_basicVar hs.split hi hx, ← hbasic i hi,
      State.storedValue_basicVar hu hi' hx']
  · have hx := hs.nonBasic.getElem? hj
    have hj' : j < u.nonBasicCount := by
      unfold State.nonBasicCount
      rw [hext.rowCount, hext.varCount, Nat.add_sub_add_right]
      exact hj
    have hx' : u.nonBasicValues[j]? = some (fin (coord s.nonBasicValues j)) := by
      rw [h.nonBasicValues, hx]
    rw [State.storedValue_nonBasicVar hs.split hj hx, ← hother j,
      State.storedValue_nonBasicVar hu hj' hx']

/-- Where the old equations hold, all of them do. -/
theorem Tableau.Extends.satisfied (h : Tableau.Extends s u) (hs : s.WellFormed)
    (hsat : s.Satisfied) :
    u.Satisfied := by
  refine h.wellFormed.satisfied_iff.mpr fun i hi => ?_
  rcases Nat.lt_succ_iff_lt_or_eq.mp (h.rowCount ▸ hi) with hi | rfl
  · rw [h.residual i hi]
    exact hs.satisfied_iff.mp hsat i hi
  · exact h.newResidual

variable [IsStrictOrderedRing K]

/-- **A row that was added** makes a conservative extension. -/
theorem Tableau.AddsRow.conserves (h : Tableau.AddsRow s u (e.rename s.merges.resolve) τ l b x)
    (hs : s.WellFormed) (hlen : s.standings.length = s.rowCount) (he : e.IsFinite) :
    State.Conserves s u e τ := by
  have he' := he.rename s.merges.resolve
  obtain ⟨hx, hterms⟩ := h.value_eq hs he'
  obtain ⟨hl, hb, hext⟩ := h.extends hs he'
  have hwf := hext.wellFormed
  obtain ⟨-, hbounds, hlow, hupp⟩ := hs.bounds.push hl hb h.bounds
  obtain ⟨hplace, hplaces, hrows, hslots⟩ := hs.split.kept_by_pushBasic
  rw [← h.split] at hplace hplaces hrows hslots
  -- the new variable is in the last row
  have hm : s.rowCount < u.rowCount := hext.rowCount ▸ Nat.lt_succ_self _
  have hn : s.varCount < u.varCount := hext.varCount ▸ Nat.lt_succ_self _
  have hvar : u.split.basicVar s.rowCount = s.varCount :=
    Except.ok.inj ((hwf.split.basicAt_eq hm).symm.trans hplace.2.2)
  have hnew : u.storedValue s.varCount = .ok x := by
    have hget : u.basicValues[s.rowCount]? = some x := by
      rw [h.basicValues, ← hs.basic.length, List.getElem?_concat_length]
    rw [← hvar]
    exact State.storedValue_basicVar hwf.split hm hget
  have hvalue : x = fin (e.residualThrough s.merges s.stored) := by
    rw [hx, LinearEquation.weigh_rename]
    rfl
  have hstored (v : Nat) (hv : v < s.varCount) : u.storedValue v = s.storedValue v :=
    h.storedValue_eq hs hext hv
  refine ⟨hext, fun y => ?_, hext.satisfied hs, ⟨l, b, ?_, ?_, fun y hy => ?_, ?_⟩, hplace,
    ⟨fun v hv => hs.storedValue_eq hv, hnew.trans (congrArg _ hvalue)⟩, hstored, fun v y hy => ?_,
    fun v hv => ⟨?_, ?_⟩, hplaces, hrows, hslots, fun k hk => ?_, h.merges⟩
  · rw [State.solves_of_push hs he' hterms h.matrix h.rightHandSide, LinearEquation.weigh_rename]
    rfl
  · rw [hwf.bounds.lower_eq hn, hlow]
  · rw [hwf.bounds.upper_eq hn, hupp]
  · have hencl :=
      (LinearEquation.residualBounds_encloses he' (State.enclosed_of_admits hs hy)
        h.interval).within
    rwa [LinearEquation.weigh_rename] at hencl
  · have hcoord : coord u.basicValues s.rowCount = e.residualThrough s.merges s.stored := by
      rw [h.basicValues, hvalue, ← hs.basic.length, coord_append_length]
    rw [h.standing_eq hext,
      List.getElem?_set_self (by rw [List.length_append, hlen]; exact Nat.lt_succ_self _),
      State.standing, hvar, hlow, hupp, hcoord]
  · obtain ⟨_, hv, hy⟩ := Checked.bind_eq_ok.mp hy
    have hresolved : s.merges.resolve v < s.varCount := by
      obtain ⟨i, hi, -⟩ := Checked.bind_eq_ok.mp hy
      exact (hs.split.lt_of_positionOf hi).1
    refine Checked.bind_eq_ok.mpr
      ⟨(), Checked.require_eq_ok.mpr ((Checked.require_eq_ok.mp hv).trans hn), ?_⟩
    rw [h.merges, hstored _ hresolved, hy]
  · rw [hwf.bounds.lower_eq (hv.trans hn), hs.bounds.lower_eq hv, (hbounds v hv).1]
  · rw [hwf.bounds.upper_eq (hv.trans hn), hs.bounds.upper_eq hv, (hbounds v hv).2]
  · rw [h.standing_eq hext, List.getElem?_set_ne (Nat.ne_of_gt hk),
      List.getElem?_append_left (hlen.symm ▸ hk)]

end Conserves

namespace Tableau

variable [IsStrictOrderedRing K] {t u : Tableau (Extended K)}

/-- **An equation that is accepted is a conservative extension.**  The new variable comes after the
    others and stands for what the equation leaves over, its bounds cut off no solution, and nothing
    happens to the others.  The inverse belongs to the new basis, and the costs are stale. -/
theorem addEquation_conservative (hs : t.toState.WellFormed)
    (hst : t.allStandings t.settings.boundTolerance = .ok t.standings)
    {e : LinearEquation (Extended K)} (he : e.IsFinite) {aux : Nat}
    (h : t.addEquation e = .ok (.ok aux, u)) :
    aux = t.varCount ∧ State.Conserves t.toState u.toState e t.settings.boundTolerance
      ∧ u.pricing.stale = true ∧ u.Sound ∧ u.settings = t.settings := by
  obtain ⟨haux, -, -, hstale, ⟨l, b, x, hadds⟩, -⟩ := addEquation_state h
  rw [hs.allStandings_eq] at hst
  have hfresh := (Except.ok.inj hst).symm
  have hlen : t.standings.length = t.rowCount := by
    rw [hfresh, List.length_map, List.length_range]
  obtain ⟨hsound, -, hsettings⟩ := sound_of_addEquation hs hfresh he h
  exact ⟨haux, hadds.conserves hs hlen he, hstale, hsound, hsettings⟩

/-- In `x + y + z + w = 10` with `z` merged into `y` the equation `3 x - z + x + 0 w = 2` is
    accepted, though `y` and `w` have no upper bounds.  The new variable comes after the four
    others, has no lower bound, and is at `4 * 0 - 1 - 2`. -/
theorem grown_by_merged_equation :
    ∃ t u : Tableau (Extended ℚ), t.toState.Satisfied ∧ t.settled = true
    ∧ t.merges.isMerged 2 = true
    ∧ t.addEquation ⟨[⟨fin 3, 0⟩, ⟨fin (-1), 2⟩, ⟨fin 1, 0⟩, ⟨fin 0, 3⟩], fin 2⟩ = .ok (.ok 4, u)
    ∧ State.Conserves t.toState u.toState
      ⟨[⟨fin 3, 0⟩, ⟨fin (-1), 2⟩, ⟨fin 1, 0⟩, ⟨fin 0, 3⟩], fin 2⟩ t.settings.boundTolerance
    ∧ u.Sound ∧ u.bounds.lower 4 = .ok bot ∧ u.bounds.upper 4 = .ok (fin 13)
    ∧ u.storedValue 4 = .ok (fin (-3)) := by
  have hrun : (do
      let t ← (create (α := Extended ℚ) { boundTolerance := fin 0 }).run [.setSize 1 4,
        .setCoefficients [fin 1, fin 1, fin 1, fin 1], .setRightHandSide [fin 10],
        .setLower 0 (fin 0), .setUpper 0 (fin 4), .setLower 1 (fin 1), .setLower 2 (fin 0),
        .setLower 3 (fin 0)]
      let (r, s) ← t.startFrom [3]
      let (q, m) ← s.merge 2 1
      let ss ← m.allStandings m.settings.boundTolerance
      let (p, u) ← m.addEquation ⟨[⟨fin 3, 0⟩, ⟨fin (-1), 2⟩, ⟨fin 1, 0⟩, ⟨fin 0, 3⟩], fin 2⟩
      Checked.require (r = Except.ok () ∧ q = Except.ok () ∧ ss = m.standings ∧ p = Except.ok 4
        ∧ m.merges.isMerged 2 = true ∧ u.bounds.lower 4 = Except.ok bot
        ∧ u.bounds.upper 4 = Except.ok (fin 13) ∧ u.storedValue 4 = Except.ok (fin (-3)))
        .inconsistent) = .ok () := by decide +kernel
  obtain ⟨t, ht, hrun⟩ := Checked.bind_eq_ok.mp hrun
  obtain ⟨⟨_, s⟩, hs, hrun⟩ := Checked.bind_eq_ok.mp hrun
  obtain ⟨⟨_, m⟩, hm, hrun⟩ := Checked.bind_eq_ok.mp hrun
  obtain ⟨_, hstandings, hrun⟩ := Checked.bind_eq_ok.mp hrun
  obtain ⟨⟨_, u⟩, hu, hrun⟩ := Checked.bind_eq_ok.mp hrun
  obtain ⟨rfl, rfl, rfl, rfl, hmerged, hl, hb, hx⟩ := Checked.require_eq_ok.mp hrun
  -- the merge leaves a state that solves the system, and the equation is added to it
  have hconf : t.Configured := (Configured.created _).run (by decide +kernel) ht
  have hmerge := merge_spec (startFrom_spec hconf.prepared hs).sound.steady hm
  have hsat : m.toState.Satisfied := hmerge.sound.state.satisfied_iff.mpr fun i hi =>
    hmerge.residual i (hmerge.rowCount ▸ hi)
  have hfinite : LinearEquation.IsFinite
      (⟨[⟨fin 3, 0⟩, ⟨fin (-1), 2⟩, ⟨fin 1, 0⟩, ⟨fin 0, 3⟩], fin 2⟩ :
        LinearEquation (Extended ℚ)) := by
    refine ⟨⟨2, rfl⟩, fun e he => ?_⟩
    simp only [List.mem_cons, List.not_mem_nil, or_false] at he
    rcases he with rfl | rfl | rfl | rfl <;> exact ⟨_, rfl⟩
  obtain ⟨-, hconserves, -, hsound, -⟩ :=
    addEquation_conservative hmerge.sound.state hstandings hfinite hu
  exact ⟨m, u, hsat, hmerge.settled, hmerged, hu, hconserves, hsound, hl, hb, hx⟩

end Tableau

end BoundedSimplex
