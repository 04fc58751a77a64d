/-
  BoundedSimplex.Proofs.Basis.Exchange — exchanges after one another, in any split.

  An exchange asks for a variable in either place and for nothing else.  So the same exchange once
  more always puts both lists back, and exchanges of different places lead to the same two lists in
  either order.  Marks and positions are written anew by every exchange: they come back if they were
  right before, and the order does not matter if no variable takes part in both exchanges.

  Main results:
    * `swap_again`, `swap_beside` — a second exchange of the same places, and of other ones;
    * `swapped_again_iff` — when the second exchange undoes the first one;
    * `swapped_beside_comm` — when the order of two exchanges does not matter.
-/
import BoundedSimplex.Proofs.Shape

namespace BoundedSimplex.BasisSplit

variable {s t t' : BasisSplit} {i j i' j' : Nat} {names names' : Nat × Nat}

/-! ## §1.  What an exchange leaves behind -/

/-- Each of the two variables stands where the other one stood. -/
theorem traded_of_swap (h : s.swap j i = .ok (names, t)) :
    t.nonBasic[j]? = some names.2 ∧ t.basic[i]? = some (some names.1) := by
  obtain ⟨hent, hleave, -, rfl⟩ := swap_eq_ok_iff.mp h
  have hj := (List.getElem?_eq_some_iff.mp hent).1
  have hi := (List.getElem?_eq_some_iff.mp hleave).1
  constructor
  · show (s.nonBasic.set j (s.basicVar i))[j]? = _
    rw [List.getElem?_set_self hj, basicVar_of_getElem? hleave]
  · show (s.basic.set i (some (s.nonBasicVar j)))[i]? = _
    rw [List.getElem?_set_self hi, nonBasicVar_of_getElem? hent]

/-- All other places keep their variables. -/
theorem kept_of_swap (h : s.swap j i = .ok (names, t)) (hj : j ≠ j') (hi : i ≠ i') :
    t.nonBasic[j']? = s.nonBasic[j']? ∧ t.basic[i']? = s.basic[i']? := by
  obtain ⟨-, -, -, rfl⟩ := swap_eq_ok_iff.mp h
  exact ⟨List.getElem?_set_ne hj, List.getElem?_set_ne hi⟩

/-- The entering variable is marked, the leaving one is not, the others are as before. -/
theorem isBasic_of_swap (h : s.swap j i = .ok (names, t)) (v : Nat) :
    t.isBasic v = if v = names.1 then true else if v = names.2 then false else s.isBasic v := by
  obtain ⟨hent, hleave, -, rfl⟩ := swap_eq_ok_iff.mp h
  rw [WellFormed.isBasic_swapped, nonBasicVar_of_getElem? hent, basicVar_of_getElem? hleave]

/-- Two positions are written, that of the leaving variable last. -/
theorem positions_of_swap (h : s.swap j i = .ok (names, t)) :
    t.positions = (s.positions.set names.1 (some i)).set names.2 (some j) := by
  obtain ⟨hent, hleave, -, rfl⟩ := swap_eq_ok_iff.mp h
  rw [swapped, nonBasicVar_of_getElem? hent, basicVar_of_getElem? hleave]

/-- Both variables have positions, in the old split and in the new one. -/
theorem placed_of_swap (h : s.swap j i = .ok (names, t)) :
    (names.1 < s.positions.length ∧ names.2 < s.positions.length)
      ∧ t.positions.length = s.positions.length := by
  refine ⟨(swap_eq_ok_iff.mp h).2.2.1, ?_⟩
  rw [positions_of_swap h, List.length_set, List.length_set]

/-! ## §2.  The same exchange once more -/

/-- **The same exchange once more** puts both lists back. -/
theorem swap_again (h : s.swap j i = .ok (names, t)) :
    t.swap j i = .ok (names.swap, t.swapped j i)
      ∧ (t.swapped j i).basic = s.basic ∧ (t.swapped j i).nonBasic = s.nonBasic := by
  obtain ⟨hent, hleave⟩ := traded_of_swap h
  obtain ⟨⟨hplace, hplace'⟩, hlen⟩ := placed_of_swap h
  refine ⟨swap_eq_ok_iff.mpr ⟨hent, hleave, ⟨hlen ▸ hplace', hlen ▸ hplace⟩, rfl⟩, ?_, ?_⟩
  · show t.basic.set i (some (t.nonBasicVar j)) = s.basic
    rw [nonBasicVar_of_getElem? hent]
    obtain ⟨-, hold, -, rfl⟩ := swap_eq_ok_iff.mp h
    exact set_set_of_getElem? hold _
  · show t.nonBasic.set j (t.basicVar i) = s.nonBasic
    rw [basicVar_of_getElem? hleave]
    obtain ⟨hold, -, -, rfl⟩ := swap_eq_ok_iff.mp h
    exact set_set_of_getElem? hold _

/-- The marks after both. -/
theorem isBasic_again (h : s.swap j i = .ok (names, t)) (v : Nat) :
    (t.swapped j i).isBasic v
      = if v = names.2 then true else if v = names.1 then false else s.isBasic v := by
  rw [isBasic_of_swap (swap_again h).1, isBasic_of_swap h]
  show (if v = names.2 then true else if v = names.1 then false else _) = _
  by_cases hleave : v = names.2
  · rw [if_pos hleave, if_pos hleave]
  · by_cases hent : v = names.1
    · rw [if_neg hleave, if_pos hent, if_neg hleave, if_pos hent]
    · simp only [if_neg hleave, if_neg hent]

/-- The positions after both. -/
theorem positions_again (h : s.swap j i = .ok (names, t)) (hne : names.1 ≠ names.2) :
    (t.swapped j i).positions = (s.positions.set names.1 (some j)).set names.2 (some i) := by
  rw [positions_of_swap (swap_again h).1, positions_of_swap h]
  show (((s.positions.set names.1 _).set names.2 _).set names.2 _).set names.1 _ = _
  rw [List.set_set, List.set_comm _ _ hne.symm, List.set_set]

/-- **The same exchange once more undoes the first one** iff the two variables were
    recorded where they stood. -/
theorem swapped_again_iff (h : s.swap j i = .ok (names, t)) (hne : names.1 ≠ names.2) :
    t.swapped j i = s ↔ s.fits true names.2 i = true ∧ s.fits false names.1 j = true := by
  obtain ⟨⟨hent, hleave⟩, -⟩ := placed_of_swap h
  rw [fits_iff, fits_iff]
  constructor
  · intro heq
    -- what the second exchange writes for the two variables must have been there before
    have hmark := isBasic_again h
    have hplaces := positions_again h hne
    rw [heq] at hmark hplaces
    refine ⟨⟨?_, ?_⟩, ?_, ?_⟩
    · rw [hmark, if_pos rfl]
    · rw [hplaces, List.getElem?_set_self (by rwa [List.length_set])]
    · rw [hmark, if_neg hne, if_pos rfl]
    · rw [hplaces, List.getElem?_set_ne hne.symm, List.getElem?_set_self hent]
  · rintro ⟨⟨hbasic, hrow⟩, hother, hplace⟩
    obtain ⟨-, hrows, hothers⟩ := swap_again h
    refine ext_marks ?_ hrows hothers ?_
    · intro v
      rw [isBasic_again h]
      by_cases hv : v = names.2
      · rw [if_pos hv, hv, hbasic]
      · by_cases hv' : v = names.1
        · rw [if_neg hv, if_pos hv', hv', hother]
        · rw [if_neg hv, if_neg hv']
    · rw [positions_again h hne]
      obtain ⟨hlt, heq⟩ := List.getElem?_eq_some_iff.mp hplace
      obtain ⟨hlt', heq'⟩ := List.getElem?_eq_some_iff.mp hrow
      rw [← heq, List.set_getElem_self, ← heq', List.set_getElem_self]

/-- So it does if both variables know their places. -/
theorem swapped_again_of_fits (h : s.swap j i = .ok (names, t))
    (hleave : s.fits true names.2 i = true) (hent : s.fits false names.1 j = true) :
    t.swapped j i = s := by
  have hbasic := (fits_iff.mp hleave).1
  have hother := (fits_iff.mp hent).1
  have hne : names.1 ≠ names.2 := by
    intro heq
    rw [heq, hbasic] at hother
    cases hother
  exact (swapped_again_iff h hne).mpr ⟨hleave, hent⟩

/-! ## §3.  An exchange beside another one -/

/-- **An exchange of two other places** does not get in the way. -/
theorem swap_beside (h : s.swap j i = .ok (names, t)) (h' : s.swap j' i' = .ok (names', t'))
    (hj : j ≠ j') (hi : i ≠ i') : t.swap j' i' = .ok (names', t.swapped j' i') := by
  obtain ⟨hother, hrow⟩ := kept_of_swap h hj hi
  obtain ⟨hent, hleave, hplaces, -⟩ := swap_eq_ok_iff.mp h'
  rw [← (placed_of_swap h).2] at hplaces
  exact swap_eq_ok_iff.mpr ⟨hother.trans hent, hrow.trans hleave, hplaces, rfl⟩

/-- The lists after both. -/
theorem lists_beside (h : s.swap j i = .ok (names, t)) (h' : s.swap j' i' = .ok (names', t'))
    (hj : j ≠ j') (hi : i ≠ i') :
    (t.swapped j' i').basic = (s.basic.set i (some names.1)).set i' (some names'.1)
      ∧ (t.swapped j' i').nonBasic = (s.nonBasic.set j names.2).set j' names'.2 := by
  obtain ⟨hent', hleave', -⟩ := swap_eq_ok_iff.mp (swap_beside h h' hj hi)
  obtain ⟨hent, hleave, -, rfl⟩ := swap_eq_ok_iff.mp h
  constructor
  · show (s.basic.set i (some (s.nonBasicVar j))).set i' (some ((s.swapped j i).nonBasicVar j')) = _
    rw [nonBasicVar_of_getElem? hent, nonBasicVar_of_getElem? hent']
  · show (s.nonBasic.set j (s.basicVar i)).set j' ((s.swapped j i).basicVar i') = _
    rw [basicVar_of_getElem? hleave, basicVar_of_getElem? hleave']

/-- Exchanges of different places lead to the same lists in either order. -/
theorem lists_beside_comm (h : s.swap j i = .ok (names, t)) (h' : s.swap j' i' = .ok (names', t'))
    (hj : j ≠ j') (hi : i ≠ i') : (t.swapped j' i').basic = (t'.swapped j i).basic
      ∧ (t.swapped j' i').nonBasic = (t'.swapped j i).nonBasic := by
  obtain ⟨hrows, hothers⟩ := lists_beside h h' hj hi
  obtain ⟨hrows', hothers'⟩ := lists_beside h' h hj.symm hi.symm
  rw [hrows, hrows', hothers, hothers']
  exact ⟨List.set_comm _ _ hi, List.set_comm _ _ hj⟩

/-- **The order of two exchanges does not matter** if no variable takes part in both. -/
theorem swapped_beside_comm (h : s.swap j i = .ok (names, t)) (h' : s.swap j' i' = .ok (names', t'))
    (hj : j ≠ j') (hi : i ≠ i') (hapart : List.Disjoint [names.1, names.2] [names'.1, names'.2]) :
    t.swapped j' i' = t'.swapped j i := by
  obtain ⟨⟨hee, hle⟩, hel, hll⟩ : (names'.1 ≠ names.1 ∧ names'.1 ≠ names.2)
      ∧ names'.2 ≠ names.1 ∧ names'.2 ≠ names.2 := by simpa using hapart
  have hthen := swap_beside h h' hj hi
  have hthen' := swap_beside h' h hj.symm hi.symm
  obtain ⟨hrows, hothers⟩ := lists_beside_comm h h' hj hi
  refine ext_marks ?_ hrows hothers ?_
  · intro v
    rw [isBasic_of_swap hthen, isBasic_of_swap h, isBasic_of_swap hthen', isBasic_of_swap h']
    -- at most one of the four names is `v`
    by_cases he : v = names.1
    · simp [he, hee.symm, hel.symm]
    · by_cases hl : v = names.2
      · simp [hl, hle.symm, hll.symm]
      · simp only [if_neg he, if_neg hl]
  · rw [positions_of_swap hthen, positions_of_swap h, positions_of_swap hthen',
      positions_of_swap h']
    -- the later two writes move to the front, one after the other
    calc (((s.positions.set names.1 _).set names.2 _).set names'.1 _).set names'.2 _
        = (((s.positions.set names.1 _).set names'.1 _).set names.2 _).set names'.2 _ := by
          rw [List.set_comm _ _ hle.symm]
      _ = (((s.positions.set names'.1 _).set names.1 _).set names'.2 _).set names.2 _ := by
          rw [List.set_comm _ _ hll.symm, List.set_comm _ _ hee.symm]
      _ = (((s.positions.set names'.1 _).set names'.2 _).set names.1 _).set names.2 _ := by
          rw [List.set_comm _ _ hel.symm]

end BoundedSimplex.BasisSplit
