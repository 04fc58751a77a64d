/-
  BoundedSimplex.Proofs.Consistent — what the check of a state says where arithmetic is exact.

  The check compares the two sides of every equation within a tolerance, and the recorded standings
  with those of the values.  Passed without tolerance, it says that the equations hold; and where
  they hold, it is passed with any tolerance.

  Main results:
    * `WellFormed.residual_of_isConsistent` — what a state that passes satisfies;
    * `WellFormed.isConsistent_of_residual` — a state that satisfies its equations passes.
-/
import BoundedSimplex.Proofs.Linear.PlainMatrix
import BoundedSimplex.Proofs.Shape
import BoundedSimplex.Proofs.Tableau.Values

namespace BoundedSimplex

open Extended Tableau

/-- A test is passed if all entries pass it. -/
theorem Checked.allM_eq_ok_true {β : Type} {f : β → Checked Bool} {xs : List β} :
    xs.allM f = .ok true ↔ ∀ x ∈ xs, f x = .ok true := by
  induction xs with
  | nil => exact ⟨fun _ x hx => absurd hx List.not_mem_nil, fun _ => rfl⟩
  | cons a xs ih =>
    unfold List.allM
    constructor
    · intro h x hx
      obtain ⟨b, hb, h⟩ := Checked.bind_eq_ok.mp h
      cases b with
      | false => cases h
      | true =>
        rcases List.mem_cons.mp hx with rfl | hx
        · exact hb
        · exact ih.mp h x hx
    · intro h
      refine Checked.bind_eq_ok.mpr ⟨true, h a List.mem_cons_self, ?_⟩
      exact ih.mpr fun x hx => h x (List.mem_cons_of_mem a hx)

namespace State

variable {K : Type} [Field K] [LinearOrder K] {s : State (Extended K)}

/-- The left-hand sides under the stored values. -/
theorem WellFormed.multiply_stored (h : s.WellFormed) :
    s.matrix.multiply ((List.range s.varCount).map fun v => fin (s.stored v))
      = .ok ((List.range s.rowCount).map fun i =>
          fin (∑ v ∈ Finset.range s.varCount, s.matrix.coeff i v * s.stored v)) := by
  let M : PlainMatrix (Extended K) :=
    ⟨s.matrix.rowCount, s.matrix.columnCount, fun i v => fin (s.matrix.coeff i v)⟩
  have hstores : s.matrix.Stores M.rows M.cols M.entry := SystemMatrix.represents_iff.mp h.matrix
  refine (hstores.multiply_eq (fun _ _ _ _ => rfl) (Numbers.map_range _ _)).trans (congrArg _ ?_)
  refine List.map_congr_left fun i _ => congrArg fin (Finset.sum_congr rfl fun v hv => ?_)
  exact congrArg _ (coord_map_range (Finset.mem_range.mp hv) s.stored)

/-- The values of all variables can be read. -/
theorem WellFormed.storedValues_eq (h : s.WellFormed) :
    s.storedValues = .ok ((List.range s.varCount).map fun v => fin (s.stored v)) :=
  Checked.mapM_eq_ok fun _ hv => h.storedValue_eq (List.mem_range.mp hv)

variable [IsStrictOrderedRing K]

/-- Without tolerance the two sides of an equation have to be equal. -/
theorem eq_of_holdsWithin {x y : K} (h : holdsWithin (fin 0) (fin x, fin y) = true) : x = y := by
  have hle := of_decide_eq_true h
  rw [fin_sub, magnitude_fin, magnitude_fin, one_eq, fin_add, fin_mul, fin_le_fin, zero_mul] at hle
  exact sub_eq_zero.mp (abs_nonpos_iff.mp hle)

/-- A number is within any tolerance of itself. -/
theorem holdsWithin_self {τ : K} (hτ : 0 ≤ τ) (x : K) :
    holdsWithin (fin τ) (fin x, fin x) = true := by
  refine decide_eq_true ?_
  rw [fin_sub, magnitude_fin, magnitude_fin, one_eq, fin_add, fin_mul, fin_le_fin,
    sub_self, abs_zero]
  positivity

/-- **A state that is consistent** satisfies its equations, and the standings are
    those of the values. -/
theorem WellFormed.residual_of_isConsistent (h : s.WellFormed)
    (hlen : s.standings.length = s.rowCount) {β : Extended K}
    (hc : s.isConsistent β (fin 0) = .ok true) :
    (∀ i < s.rowCount, s.residual i = 0) ∧ s.standings = freshStandings s β := by
  unfold isConsistent at hc
  split at hc
  · cases hc
  obtain ⟨xs, hxs, hc⟩ := Checked.bind_eq_ok.mp hc
  obtain ⟨products, hproducts, hc⟩ := Checked.bind_eq_ok.mp hc
  obtain ⟨standingsMatch, hmatch, hc⟩ := Checked.bind_eq_ok.mp hc
  have hc := Except.ok.inj hc
  rw [Bool.and_eq_true] at hc
  obtain ⟨hall, rfl⟩ := hc
  obtain rfl := Except.ok.inj (h.storedValues_eq.symm.trans hxs)
  obtain rfl := Except.ok.inj (h.multiply_stored.symm.trans hproducts)
  constructor
  -- with tolerance zero, both sides of a row are equal
  · intro i hi
    refine sub_eq_zero.mpr (eq_of_holdsWithin (List.all_eq_true.mp hall _ ?_))
    refine List.mem_of_getElem? (List.getElem?_zip_eq_some.mpr ⟨?_, h.rhs.getElem? hi⟩)
    rw [List.getElem?_map, List.getElem?_range hi]
    rfl
  · refine List.ext_getElem? fun i => ?_
    by_cases hi : i < s.rowCount
    · have hmatches := Checked.allM_eq_ok_true.mp hmatch i (List.mem_range.mpr hi)
      obtain ⟨recorded, hrecorded, hmatches⟩ := Checked.bind_eq_ok.mp hmatches
      obtain ⟨actual, hactual, hmatches⟩ := Checked.bind_eq_ok.mp hmatches
      obtain rfl := Except.ok.inj ((h.standingAt_eq β hi).symm.trans hactual)
      rw [Checked.getAt_eq_ok.mp hrecorded, List.getElem?_map, List.getElem?_range hi]
      exact congrArg some (eq_of_beq (Except.ok.inj hmatches))
    · rw [List.getElem?_eq_none (by omega), List.getElem?_eq_none (by simpa using hi)]

/-- **A state that satisfies its equations** is consistent, within any tolerance. -/
theorem WellFormed.isConsistent_of_residual (h : s.WellFormed) (hmarked : s.split.Marked)
    {β : Extended K} (hres : ∀ i < s.rowCount, s.residual i = 0)
    (hstandings : s.standings = freshStandings s β) {τ : K} (hτ : 0 ≤ τ) :
    s.isConsistent β (fin τ) = .ok true := by
  have hmatch : (List.range s.rowCount).allM (s.standingMatches β) = .ok true := by
    refine Checked.allM_eq_ok_true.mpr fun i hi => ?_
    have hi := List.mem_range.mp hi
    have hrecorded : Checked.getAt s.standings i = .ok (s.standing β i) := by
      rw [Checked.getAt_eq_ok, hstandings, List.getElem?_map, List.getElem?_range hi]
      rfl
    refine Checked.bind_eq_ok.mpr ⟨_, hrecorded,
      Checked.bind_eq_ok.mpr ⟨_, h.standingAt_eq β hi, ?_⟩⟩
    exact congrArg _ (beq_self_eq_true _)
  -- where all residuals are zero, the products are the right-hand side
  have hproducts : ((List.range s.rowCount).map fun i =>
      fin (∑ v ∈ Finset.range s.varCount, s.matrix.coeff i v * s.stored v)) = s.rightHandSide := by
    refine (Numbers.map_range _ _).ext h.rhs fun i hi => ?_
    rw [coord_map_range hi]
    exact sub_eq_zero.mp (hres i hi)
  have hall : (s.rightHandSide.zip s.rightHandSide).all (holdsWithin (fin τ)) = true := by
    refine List.all_eq_true.mpr fun ⟨x, y⟩ hsides => ?_
    obtain ⟨i, hi⟩ := List.mem_iff_getElem?.mp hsides
    obtain ⟨hx, hy⟩ := List.getElem?_zip_eq_some.mp hi
    obtain rfl : x = y := Option.some.inj (hx.symm.trans hy)
    obtain ⟨a, rfl⟩ := isFinite_iff.mp (h.rhs.finite x (List.mem_of_getElem? hx))
    exact holdsWithin_self hτ a
  unfold isConsistent
  rw [h.split.isConsistent hmarked]
  refine Checked.bind_eq_ok.mpr ⟨_, h.storedValues_eq, Checked.bind_eq_ok.mpr ⟨_, h.multiply_stored,
    Checked.bind_eq_ok.mpr ⟨true, hmatch, ?_⟩⟩⟩
  rw [hproducts, hall]
  rfl

end State

end BoundedSimplex
