/-
  BoundedSimplex.Proofs.Assignment — the assignment of a state and how far it is from the equations.

  The residual of a row is its left-hand side under the stored values less its right-hand side.  A
  change of values changes it by the columns of the variables that changed; solving for the basic
  variables makes it vanish.

  Main results:
    * `WellFormed.residual_eq` — the residual by rows and non-basic positions;
    * `WellFormed.remainder_eq` — what the basic variables have to make up for;
    * `residual_solved` — solving for the basic variables;
    * `residual_shifted`, `residual_exchanged` — moving one variable, exchanging two.
-/
import BoundedSimplex.Proofs.Basis.Inverse
import BoundedSimplex.Proofs.Basis.Split
import BoundedSimplex.Proofs.Bounds
import BoundedSimplex.Proofs.Linear.SystemMatrix
import BoundedSimplex.State

namespace BoundedSimplex.State

open Extended Matrix

variable {K : Type} [Field K] [LinearOrder K]

/-! ## §1.  Values, residuals and standings -/

/-- The stored value of a variable. -/
def stored (s : State (Extended K)) (v : Nat) : K :=
  if s.split.isBasic v then coord s.basicValues (s.split.place v)
  else coord s.nonBasicValues (s.split.place v)

/-- The left-hand side of a row under the stored values less its right-hand side. -/
def residual (s : State (Extended K)) (i : Nat) : K :=
  ∑ v ∈ Finset.range s.varCount, s.matrix.coeff i v * s.stored v - coord s.rightHandSide i

/-- The standing that the value of the basic variable of a row has. -/
def standing (s : State (Extended K)) (tolerance : Extended K) (i : Nat) : Standing :=
  .classify (fin (coord s.basicValues i)) (s.bounds.lowerOf (s.split.basicVar i))
    (s.bounds.upperOf (s.split.basicVar i)) tolerance

/-- The matrix of the basic columns. -/
def basis (s : State (Extended K)) : Matrix (Fin s.rowCount) (Fin s.rowCount) K :=
  .of fun i k => s.matrix.coeff i (s.split.basicVar k)

/-- Finite numbers in all places, in the shapes that belong together. -/
structure WellFormed (s : State (Extended K)) : Prop where
  matrix : s.matrix.WellFormed
  rhs : Numbers s.rowCount s.rightHandSide
  bounds : s.bounds.WellFormed s.varCount
  split : s.split.WellFormed s.rowCount s.varCount
  basic : Numbers s.rowCount s.basicValues
  nonBasic : Numbers s.nonBasicCount s.nonBasicValues

namespace WellFormed

variable {s : State (Extended K)}

/-- Other finite values for the same system and the same split. -/
theorem revalue (h : s.WellFormed) {xs ys : List (Extended K)} {standings : List Standing}
    {settled : Bool} {merges : Merges} (hx : Numbers s.rowCount xs)
    (hy : Numbers s.nonBasicCount ys) :
    State.WellFormed
      { s with basicValues := xs, nonBasicValues := ys, standings, settled, merges } :=
  ⟨h.matrix, h.rhs, h.bounds, h.split, hx, hy⟩

/-- The values are stored by position, those of the basic variables by row. -/
theorem stored_basicVar (h : s.WellFormed) {i : Nat} (hi : i < s.rowCount) :
    s.stored (s.split.basicVar i) = coord s.basicValues i := by
  rw [stored, if_pos (h.split.isBasic_basicVar hi), h.split.place_basicVar hi]

theorem stored_nonBasicVar (h : s.WellFormed) {j : Nat} (hj : j < s.nonBasicCount) :
    s.stored (s.split.nonBasicVar j) = coord s.nonBasicValues j := by
  rw [stored, if_neg (by rw [h.split.isBasic_nonBasicVar hj]; exact Bool.false_ne_true),
    h.split.place_nonBasicVar hj]

/-- Every variable has a stored value, which is finite. -/
theorem storedValue_eq (h : s.WellFormed) {v : Nat} (hv : v < s.varCount) :
    s.storedValue v = .ok (fin (s.stored v)) := by
  unfold storedValue stored
  rw [h.split.positionOf_eq hv]
  show (if s.split.isBasic v then _ else _) = _
  cases hb : s.split.isBasic v with
  | true =>
    obtain ⟨hi, -⟩ := h.split.of_isBasic hv hb
    simp only [if_true]
    exact Checked.getAt_eq_ok.mpr (h.basic.getElem? hi)
  | false =>
    obtain ⟨hj, -⟩ := h.split.of_not_isBasic hv hb
    simp only [Bool.false_eq_true, if_false]
    exact Checked.getAt_eq_ok.mpr (h.nonBasic.getElem? hj)

/-- The residual by rows and non-basic positions. -/
theorem residual_eq (h : s.WellFormed) (i : Nat) :
    s.residual i
      = ∑ k ∈ Finset.range s.rowCount, s.matrix.coeff i (s.split.basicVar k) * coord s.basicValues k
        + ∑ j ∈ Finset.range s.nonBasicCount,
            s.matrix.coeff i (s.split.nonBasicVar j) * coord s.nonBasicValues j
        - coord s.rightHandSide i := by
  rw [residual, h.split.sum_vars]
  congr 2
  · refine Finset.sum_congr rfl fun k hk => ?_
    rw [h.stored_basicVar (Finset.mem_range.mp hk)]
  · refine Finset.sum_congr rfl fun j hj => ?_
    rw [h.stored_nonBasicVar (Finset.mem_range.mp hj)]

/-- The standing by row is that of the number which is stored there. -/
theorem standingAt_eq (h : s.WellFormed) (tolerance : Extended K) {i : Nat} (hi : i < s.rowCount) :
    s.standingAt tolerance i = .ok (s.standing tolerance i) := by
  unfold standingAt
  have hv := h.split.basicVar_lt hi
  rw [h.split.basicAt_eq hi, Checked.getAt_eq_ok.mpr (h.basic.getElem? hi)]
  show (do
    let l ← s.bounds.lower (s.split.basicVar i)
    let u ← s.bounds.upper (s.split.basicVar i)
    return Standing.classify _ l u tolerance) = _
  rw [h.bounds.lower_eq hv, h.bounds.upper_eq hv]
  rfl

/-- Every row has a standing. -/
theorem allStandings_eq (h : s.WellFormed) (tolerance : Extended K) :
    s.allStandings tolerance = .ok ((List.range s.rowCount).map (s.standing tolerance)) :=
  Checked.mapM_eq_ok fun _ hi => h.standingAt_eq tolerance (List.mem_range.mp hi)

/-! ## §2.  The basis -/

/-- The columns of the basis are those of the matrix of the basic columns. -/
theorem basisColumns_eq (h : s.WellFormed) :
    ∃ columns, s.basisColumns = .ok columns ∧ columns.length = s.rowCount ∧ Finite columns
      ∧ basisMatrix s.rowCount columns = s.basis := by
  -- the columns are chosen before the list of them is read
  have hexists (i : Nat) (hi : i < s.rowCount) := h.matrix.column_eq (h.split.basicVar_lt hi)
  choose! column hcolumn hnumbers hcoord using hexists
  refine ⟨(List.range s.rowCount).map column, ?_, by simp, fun col hc => ?_, ?_⟩
  · unfold basisColumns
    rw [h.split.basic_eq, List.mapM_map]
    exact Checked.mapM_eq_ok fun i hi => hcolumn i (List.mem_range.mp hi)
  · obtain ⟨i, hi, rfl⟩ := List.mem_map.mp hc
    exact (hnumbers i (List.mem_range.mp hi)).finite
  · ext i k
    show cell _ k i = s.matrix.coeff i (s.split.basicVar k)
    have hrow : ((List.range s.rowCount).map column)[k]? = some (column k) := by simp
    rw [cell_of_getElem? hrow]
    exact hcoord k k.isLt i

end WellFormed

/-! ## §3.  What the basic variables have to make up for -/

/-- The right-hand side less the part of the non-basic variables. -/
def remainderAt (s : State (Extended K)) (i : Nat) : K :=
  coord s.rightHandSide i - ∑ j ∈ Finset.range s.nonBasicCount,
    s.matrix.coeff i (s.split.nonBasicVar j) * coord s.nonBasicValues j

namespace WellFormed

variable {s : State (Extended K)}

/-- **One part of the left side** is taken off all rows at once; a variable at
    zero is passed over. -/
theorem subtractPart_eq (h : s.WellFormed) {v : Nat} (hv : v < s.varCount) (x : K)
    {ys : List (Extended K)} (hy : Numbers s.rowCount ys) :
    ∃ zs, s.subtractPart ys (v, fin x) = .ok zs ∧ Numbers s.rowCount zs
      ∧ ∀ i < s.rowCount, coord zs i = coord ys i - s.matrix.coeff i v * x := by
  unfold subtractPart
  dsimp only
  rw [zero_eq, fin_beq]
  by_cases hx : x = 0
  · subst hx
    exact ⟨ys, by rw [if_pos (decide_eq_true rfl)]; rfl, hy, fun i _ => by rw [mul_zero, sub_zero]⟩
  · obtain ⟨col, hcol, hrep⟩ := h.matrix.sparseColumn_eq hv
    obtain ⟨zs, hadd, hz, hc⟩ := hrep.addTo_eq hy (-x)
    refine ⟨zs, ?_, hz, fun i hi => by rw [hc i hi]; ring⟩
    rw [if_neg (by simpa using hx), hcol, fin_neg]
    exact hadd

/-- **The remainder.** -/
theorem remainder_eq (h : s.WellFormed) :
    ∃ ys, s.remainder = .ok ys ∧ Numbers s.rowCount ys
      ∧ ∀ i < s.rowCount, coord ys i = s.remainderAt i := by
  have hzip : s.split.nonBasic.zip s.nonBasicValues
      = (List.range s.nonBasicCount).map fun j =>
          (s.split.nonBasicVar j, fin (coord s.nonBasicValues j)) := by
    have hlen : s.split.nonBasic.length = s.nonBasicCount := h.split.nonBasic.length
    refine eq_map_range_of_getElem?
      (by rw [List.length_zip, hlen, h.nonBasic.length, Nat.min_self]) fun j hj => ?_
    rw [List.getElem?_zip_eq_some]
    exact ⟨(h.split.nonBasic_at hj).1, h.nonBasic.getElem? hj⟩
  -- the first `k` parts were taken out
  have hrun : ∀ k ≤ s.nonBasicCount, ∃ ys,
      ((List.range k).map fun j => (s.split.nonBasicVar j, fin (coord s.nonBasicValues j))).foldlM
        s.subtractPart s.rightHandSide = .ok ys ∧ Numbers s.rowCount ys
        ∧ ∀ i < s.rowCount, coord ys i = coord s.rightHandSide i - ∑ j ∈ Finset.range k,
            s.matrix.coeff i (s.split.nonBasicVar j) * coord s.nonBasicValues j := by
    intro k
    induction k with
    | zero => exact fun _ => ⟨_, rfl, h.rhs, fun i _ => by simp⟩
    | succ k ih =>
      intro hk
      obtain ⟨ys, hys, hn, hc⟩ := ih (by omega)
      obtain ⟨zs, hzs, hz, hcz⟩ := h.subtractPart_eq (h.split.nonBasicVar_lt (show k < _ from hk))
        (coord s.nonBasicValues k) hn
      refine ⟨zs, ?_, hz, fun i hi => ?_⟩
      · rw [List.range_succ, List.map_append, List.foldlM_append, hys]
        show (s.subtractPart ys _ >>= fun b => pure b) = _
        rw [hzs]
        rfl
      · rw [hcz i hi, hc i hi, Finset.sum_range_succ]
        ring
  unfold remainder
  rw [hzip]
  exact hrun s.nonBasicCount (le_refl _)

end WellFormed

/-! ## §4.  Changes of the values -/

section Changes

variable {s t : State (Extended K)}

/-- The equations hold once the basic variables make up for the remainder. -/
theorem residual_solved (h : s.WellFormed) {i : Nat}
    (hx : ∑ k ∈ Finset.range s.rowCount,
        s.matrix.coeff i (s.split.basicVar k) * coord s.basicValues k
      = s.remainderAt i) : s.residual i = 0 := by
  rw [h.residual_eq, hx, remainderAt]
  ring

omit [LinearOrder K] in
/-- A sum with one term replaced. -/
theorem sum_replace {m : Nat} {i : Nat} (hi : i < m) (f : Nat → K) (c : K) :
    ∑ k ∈ Finset.range m, (if k = i then c else f k)
      = ∑ k ∈ Finset.range m, f k + (c - f i) := by
  have hterm (k : Nat) : (if k = i then c else f k) = f k + if k = i then c - f i else 0 := by
    by_cases hk : k = i
    · rw [if_pos hk, if_pos hk, hk]
      ring
    · rw [if_neg hk, if_neg hk, add_zero]
  rw [Finset.sum_congr rfl fun k _ => hterm k, Finset.sum_add_distrib, Finset.sum_ite_eq',
    if_pos (Finset.mem_range.mpr hi)]

/-- The column of numbers is the one of the variable `v` in the basis. -/
def IsColumn (s : State (Extended K)) (column : List (Extended K)) (v : Nat) : Prop :=
  Numbers s.rowCount column ∧ ∀ i < s.rowCount,
    ∑ k ∈ Finset.range s.rowCount, s.matrix.coeff i (s.split.basicVar k) * coord column k
      = s.matrix.coeff i v

/-- Letting the basic variables follow a move along a column. -/
theorem sum_shifted {column : List (Extended K)} {v : Nat} (hc : s.IsColumn column v)
    (δ : K) {i : Nat} (hi : i < s.rowCount) :
    ∑ k ∈ Finset.range s.rowCount, s.matrix.coeff i (s.split.basicVar k)
        * (coord s.basicValues k - coord column k * δ)
      = ∑ k ∈ Finset.range s.rowCount, s.matrix.coeff i (s.split.basicVar k) * coord s.basicValues k
        - s.matrix.coeff i v * δ := by
  rw [← hc.2 i hi, Finset.sum_mul, ← Finset.sum_sub_distrib]
  exact Finset.sum_congr rfl fun k _ => by ring

/-- **Moving one non-basic variable** to `y` while the basic ones follow leaves
    all residuals alone. -/
theorem residual_shifted (hs : s.WellFormed) (ht : t.WellFormed) (hm : t.matrix = s.matrix)
    (hb : t.rightHandSide = s.rightHandSide) (hp : t.split = s.split) {j : Nat}
    (hj : j < s.nonBasicCount) {column : List (Extended K)}
    (hc : s.IsColumn column (s.split.nonBasicVar j)) {y : K}
    (hx : ∀ k < s.rowCount, coord t.basicValues k
      = coord s.basicValues k - coord column k * (y - coord s.nonBasicValues j))
    (hy : t.nonBasicValues = s.nonBasicValues.set j (fin y))
    {i : Nat} (hi : i < s.rowCount) : t.residual i = s.residual i := by
  have hrow : t.rowCount = s.rowCount := by rw [rowCount, rowCount, hm]
  have hcol : t.nonBasicCount = s.nonBasicCount := by
    rw [nonBasicCount, nonBasicCount, varCount, varCount, hm, hrow]
  rw [ht.residual_eq, hs.residual_eq, hrow, hcol, hm, hb, hp]
  -- each basic value lost its share of the step, and the change column says what these
  -- shares add up to
  have hbasic : ∑ k ∈ Finset.range s.rowCount,
        s.matrix.coeff i (s.split.basicVar k) * coord t.basicValues k
      = ∑ k ∈ Finset.range s.rowCount, s.matrix.coeff i (s.split.basicVar k)
          * (coord s.basicValues k - coord column k * (y - coord s.nonBasicValues j)) :=
    Finset.sum_congr rfl fun k hk => by rw [hx k (Finset.mem_range.mp hk)]
  have hother : ∑ l ∈ Finset.range s.nonBasicCount,
        s.matrix.coeff i (s.split.nonBasicVar l) * coord t.nonBasicValues l
      = ∑ l ∈ Finset.range s.nonBasicCount, (if l = j
          then s.matrix.coeff i (s.split.nonBasicVar j) * y
          else s.matrix.coeff i (s.split.nonBasicVar l) * coord s.nonBasicValues l) := by
    refine Finset.sum_congr rfl fun l _ => ?_
    rw [hy, coord_set (by rw [hs.nonBasic.length]; exact hj)]
    by_cases hlj : l = j
    · rw [if_pos hlj, if_pos hlj, hlj]
    · rw [if_neg hlj, if_neg hlj]
  rw [hbasic, sum_shifted hc _ hi, hother, sum_replace hj]
  ring

/-- **Exchanging two variables.**  The residuals change by how far the leaving variable lands from
    where the move took it. -/
theorem residual_exchanged (hs : s.WellFormed) (ht : t.WellFormed) (hm : t.matrix = s.matrix)
    (hb : t.rightHandSide = s.rightHandSide) {j p : Nat} (hj : j < s.nonBasicCount)
    (hp : p < s.rowCount) (hsplit : t.split = s.split.swapped j p)
    {column : List (Extended K)} (hc : s.IsColumn column (s.split.nonBasicVar j)) (δ : K) {y : K}
    (hx : ∀ k < s.rowCount, coord t.basicValues k = if k = p then coord s.nonBasicValues j + δ
      else coord s.basicValues k - coord column k * δ)
    (hy : t.nonBasicValues = s.nonBasicValues.set j (fin y))
    {i : Nat} (hi : i < s.rowCount) :
    t.residual i = s.residual i + s.matrix.coeff i (s.split.basicVar p)
      * (y - (coord s.basicValues p - coord column p * δ)) := by
  have hrow : t.rowCount = s.rowCount := by rw [rowCount, rowCount, hm]
  have hcol : t.nonBasicCount = s.nonBasicCount := by
    rw [nonBasicCount, nonBasicCount, varCount, varCount, hm, hrow]
  rw [ht.residual_eq, hs.residual_eq, hrow, hcol, hm, hb, hsplit]
  -- either sum has one term of another kind, at the place of the exchange
  have hbasic : ∑ k ∈ Finset.range s.rowCount,
        s.matrix.coeff i ((s.split.swapped j p).basicVar k)
          * coord t.basicValues k
      = ∑ k ∈ Finset.range s.rowCount, (if k = p
          then s.matrix.coeff i (s.split.nonBasicVar j) * (coord s.nonBasicValues j + δ)
          else s.matrix.coeff i (s.split.basicVar k)
            * (coord s.basicValues k - coord column k * δ)) := by
    refine Finset.sum_congr rfl fun k hk => ?_
    rw [hs.split.basicVar_swapped hp, hx k (Finset.mem_range.mp hk)]
    by_cases hkp : k = p
    · rw [if_pos hkp, if_pos hkp, if_pos hkp]
    · rw [if_neg hkp, if_neg hkp, if_neg hkp]
  have hother : ∑ l ∈ Finset.range s.nonBasicCount,
        s.matrix.coeff i ((s.split.swapped j p).nonBasicVar l)
          * coord t.nonBasicValues l
      = ∑ l ∈ Finset.range s.nonBasicCount, (if l = j
          then s.matrix.coeff i (s.split.basicVar p) * y
          else s.matrix.coeff i (s.split.nonBasicVar l) * coord s.nonBasicValues l) := by
    refine Finset.sum_congr rfl fun l _ => ?_
    rw [hs.split.nonBasicVar_swapped hj, hy, coord_set (by rw [hs.nonBasic.length]; exact hj)]
    by_cases hlj : l = j
    · rw [if_pos hlj, if_pos hlj, if_pos hlj]
    · rw [if_neg hlj, if_neg hlj, if_neg hlj]
  rw [hbasic, hother, sum_replace hp, sum_replace hj, sum_shifted hc δ hi]
  ring

end Changes

end BoundedSimplex.State
