/-
  BoundedSimplex.Proofs.Basis.Split — the split of the variables into basic and other ones.

  Every variable stands in exactly one of the two lists and knows its place there, so a sum over the
  variables is a sum over the rows and one over the non-basic positions.

  Main results:
    * `WellFormed.sum_vars` — sums over all variables;
    * `WellFormed.swap`, `WellFormed.pushBasic` — exchanging two variables and adding a basic one;
    * `wellFormed_of_isConsistent` — a split that passes its own check is in order.
-/
import BoundedSimplex.Basis.BasisSplit
import BoundedSimplex.Proofs.Listed
import Mathlib.Algebra.BigOperators.Group.Finset.Basic
import Mathlib.Data.List.Perm.Subperm

namespace BoundedSimplex.BasisSplit

/-! ## §1.  Being in order -/

/-- The split of `n` variables, `m` of which are basic, is in order. -/
structure WellFormed (m n : Nat) (s : BasisSplit) : Prop where
  le : m ≤ n
  places : s.positions.length = n
  basic : Listed m (fun i slot => ∃ v, slot = some v ∧ v < n ∧ s.positions[v]? = some (some i)
    ∧ s.isBasic v = true) s.basic
  nonBasic : Listed (n - m) (fun j v => v < n ∧ s.positions[v]? = some (some j)
    ∧ s.isBasic v = false) s.nonBasic
  coversBasic : ∀ v < n, s.isBasic v = true → ∃ i < m, s.basic[i]? = some (some v)
  coversOther : ∀ v < n, s.isBasic v = false → ∃ j < n - m, s.nonBasic[j]? = some v

/-- The variable of a row. -/
def basicVar (s : BasisSplit) (i : Nat) : Nat := (s.basic.getD i none).getD 0

/-- The variable at a non-basic position. -/
def nonBasicVar (s : BasisSplit) (j : Nat) : Nat := s.nonBasic.getD j 0

/-- The place of a variable in the list it belongs to. -/
def place (s : BasisSplit) (v : Nat) : Nat := (s.positions.getD v none).getD 0

theorem basicVar_of_getElem? {s : BasisSplit} {i v : Nat} (h : s.basic[i]? = some (some v)) :
    s.basicVar i = v := by
  rw [basicVar, List.getD_eq_getElem?_getD, h, Option.getD_some, Option.getD_some]

theorem nonBasicVar_of_getElem? {s : BasisSplit} {j v : Nat} (h : s.nonBasic[j]? = some v) :
    s.nonBasicVar j = v := by
  rw [nonBasicVar, List.getD_eq_getElem?_getD, h, Option.getD_some]

theorem place_of_getElem? {s : BasisSplit} {v i : Nat} (h : s.positions[v]? = some (some i)) :
    s.place v = i := by
  rw [place, List.getD_eq_getElem?_getD, h, Option.getD_some, Option.getD_some]

/-- A variable gets a row if it is marked and has a position; nothing else changes. -/
theorem assignRow_spec {s t : BasisSplit} {v i : Nat} (h : s.assignRow v i = .ok t) :
    (s.isBasic v = true ∧ i < s.basic.length ∧ v < s.positions.length)
      ∧ t = { s with
          basic := s.basic.set i (some v), positions := s.positions.set v (some i) } := by
  obtain ⟨_, hmark, h⟩ := Checked.bind_eq_ok.mp h
  obtain ⟨basic, hbasic, h⟩ := Checked.bind_eq_ok.mp h
  obtain ⟨positions, hplaces, h⟩ := Checked.bind_eq_ok.mp h
  obtain ⟨hi, rfl⟩ := Checked.setAt_eq_ok.mp hbasic
  obtain ⟨hv, rfl⟩ := Checked.setAt_eq_ok.mp hplaces
  cases h
  exact ⟨⟨Checked.require_eq_ok.mp hmark, hi, hv⟩, rfl⟩

namespace WellFormed

variable {m n : Nat} {s : BasisSplit}

/-- Everything about the variable of a row. -/
theorem basic_at (h : s.WellFormed m n) {i : Nat} (hi : i < m) :
    s.basic[i]? = some (some (s.basicVar i)) ∧ s.basicVar i < n
      ∧ s.positions[s.basicVar i]? = some (some i) ∧ s.isBasic (s.basicVar i) = true := by
  obtain ⟨slot, hs, v, rfl, hv, hp, hb⟩ := h.basic.each i hi
  rw [basicVar_of_getElem? hs]
  exact ⟨hs, hv, hp, hb⟩

/-- Everything about the variable at a non-basic position. -/
theorem nonBasic_at (h : s.WellFormed m n) {j : Nat} (hj : j < n - m) :
    s.nonBasic[j]? = some (s.nonBasicVar j) ∧ s.nonBasicVar j < n
      ∧ s.positions[s.nonBasicVar j]? = some (some j) ∧ s.isBasic (s.nonBasicVar j) = false := by
  obtain ⟨v, hs, hv, hp, hb⟩ := h.nonBasic.each j hj
  rw [nonBasicVar_of_getElem? hs]
  exact ⟨hs, hv, hp, hb⟩

/-- The variables of the rows exist. -/
theorem basicVar_lt (h : s.WellFormed m n) {i : Nat} (hi : i < m) : s.basicVar i < n :=
  (h.basic_at hi).2.1

/-- The variables at the non-basic positions exist. -/
theorem nonBasicVar_lt (h : s.WellFormed m n) {j : Nat} (hj : j < n - m) : s.nonBasicVar j < n :=
  (h.nonBasic_at hj).2.1

/-- The variables of the rows are marked. -/
theorem isBasic_basicVar (h : s.WellFormed m n) {i : Nat} (hi : i < m) :
    s.isBasic (s.basicVar i) = true :=
  (h.basic_at hi).2.2.2

/-- No row belongs to a variable that is not marked. -/
theorem basicVar_ne (h : s.WellFormed m n) {i : Nat} (hi : i < m) {v : Nat}
    (hv : s.isBasic v = false) :
    s.basicVar i ≠ v := by
  rintro rfl
  rw [h.isBasic_basicVar hi] at hv
  cases hv

/-- The variables at the non-basic positions are not marked. -/
theorem isBasic_nonBasicVar (h : s.WellFormed m n) {j : Nat} (hj : j < n - m) :
    s.isBasic (s.nonBasicVar j) = false :=
  (h.nonBasic_at hj).2.2.2

/-- A basic variable knows its row. -/
theorem place_basicVar (h : s.WellFormed m n) {i : Nat} (hi : i < m) :
    s.place (s.basicVar i) = i :=
  place_of_getElem? (h.basic_at hi).2.2.1

/-- A non-basic variable knows its position. -/
theorem place_nonBasicVar (h : s.WellFormed m n) {j : Nat} (hj : j < n - m) :
    s.place (s.nonBasicVar j) = j :=
  place_of_getElem? (h.nonBasic_at hj).2.2.1

/-- A marked variable has a row. -/
theorem of_isBasic (h : s.WellFormed m n) {v : Nat} (hv : v < n) (hb : s.isBasic v = true) :
    s.place v < m ∧ s.basicVar (s.place v) = v := by
  obtain ⟨i, hi, hs⟩ := h.coversBasic v hv hb
  obtain rfl := basicVar_of_getElem? hs
  rw [h.place_basicVar hi]
  exact ⟨hi, rfl⟩

/-- Any other variable has a position. -/
theorem of_not_isBasic (h : s.WellFormed m n) {v : Nat} (hv : v < n) (hb : s.isBasic v = false) :
    s.place v < n - m ∧ s.nonBasicVar (s.place v) = v := by
  obtain ⟨j, hj, hs⟩ := h.coversOther v hv hb
  obtain rfl := nonBasicVar_of_getElem? hs
  rw [h.place_nonBasicVar hj]
  exact ⟨hj, rfl⟩

/-! ## §2.  Reading -/

/-- Every row has a variable. -/
theorem basicAt_eq (h : s.WellFormed m n) {i : Nat} (hi : i < m) :
    s.basicAt i = .ok (s.basicVar i) := by
  unfold basicAt slotAt
  rw [Checked.getAt_eq_ok.mpr (h.basic_at hi).1]
  rfl

/-- Only rows have one. -/
theorem lt_of_basicAt (h : s.WellFormed m n) {i v : Nat} (hv : s.basicAt i = .ok v) :
    i < m ∧ v = s.basicVar i := by
  obtain ⟨slot, hs, ha⟩ := Checked.bind_eq_ok.mp hv
  rw [slotAt, Checked.getAt_eq_ok] at hs
  rw [Checked.assigned_eq_ok] at ha
  subst ha
  refine ⟨?_, (basicVar_of_getElem? hs).symm⟩
  rw [← h.basic.length]
  exact (List.getElem?_eq_some_iff.mp hs).1

/-- Every non-basic position has a variable. -/
theorem nonBasicAt_eq (h : s.WellFormed m n) {j : Nat} (hj : j < n - m) :
    s.nonBasicAt j = .ok (s.nonBasicVar j) :=
  Checked.getAt_eq_ok.mpr (h.nonBasic_at hj).1

theorem lt_of_nonBasicAt (h : s.WellFormed m n) {j v : Nat} (hv : s.nonBasicAt j = .ok v) :
    j < n - m ∧ v = s.nonBasicVar j := by
  rw [nonBasicAt, Checked.getAt_eq_ok] at hv
  refine ⟨?_, (nonBasicVar_of_getElem? hv).symm⟩
  rw [← h.nonBasic.length]
  exact (List.getElem?_eq_some_iff.mp hv).1

/-- Every variable has a place. -/
theorem positionOf_eq (h : s.WellFormed m n) {v : Nat} (hv : v < n) :
    s.positionOf v = .ok (s.place v) := by
  have hp : s.positions[v]? = some (some (s.place v)) := by
    cases hb : s.isBasic v with
    | true =>
      obtain ⟨hi, he⟩ := h.of_isBasic hv hb
      have := (h.basic_at hi).2.2.1
      rwa [he] at this
    | false =>
      obtain ⟨hj, he⟩ := h.of_not_isBasic hv hb
      have := (h.nonBasic_at hj).2.2.1
      rwa [he] at this
  unfold positionOf placeOf
  rw [Checked.getAt_eq_ok.mpr hp]
  rfl

/-- Only variables have one. -/
theorem lt_of_positionOf (h : s.WellFormed m n) {v i : Nat} (hv : s.positionOf v = .ok i) :
    v < n ∧ i = s.place v := by
  obtain ⟨slot, hs, ha⟩ := Checked.bind_eq_ok.mp hv
  rw [placeOf, Checked.getAt_eq_ok] at hs
  rw [Checked.assigned_eq_ok] at ha
  subst ha
  refine ⟨?_, (place_of_getElem? hs).symm⟩
  rw [← h.places]
  exact (List.getElem?_eq_some_iff.mp hs).1

theorem basic_eq (h : s.WellFormed m n) :
    s.basic = (List.range m).map fun i => some (s.basicVar i) :=
  eq_map_range_of_getElem? h.basic.length fun _ hi => (h.basic_at hi).1

theorem nonBasic_eq (h : s.WellFormed m n) :
    s.nonBasic = (List.range (n - m)).map s.nonBasicVar :=
  eq_map_range_of_getElem? h.nonBasic.length fun _ hj => (h.nonBasic_at hj).1

/-! ## §3.  Sums over all variables -/

section Sums

open Finset

/-- **A sum over the variables** is a sum over the rows and one over the non-basic positions. -/
theorem sum_vars {K : Type} [AddCommMonoid K] (h : s.WellFormed m n) (g : Nat → K) :
    ∑ v ∈ range n, g v
      = ∑ i ∈ range m, g (s.basicVar i) + ∑ j ∈ range (n - m), g (s.nonBasicVar j) := by
  -- the marked variables are those of the rows, each of them once
  have hb : ∑ v ∈ (range n).filter (fun v => s.isBasic v = true), g v
      = ∑ i ∈ range m, g (s.basicVar i) := by
    refine (sum_bij (fun i _ => s.basicVar i) (fun i hi => ?_) (fun i hi k hk e => ?_)
      (fun v hv => ?_) fun _ _ => rfl).symm
    · have hi := mem_range.mp hi
      exact mem_filter.mpr ⟨mem_range.mpr (h.basicVar_lt hi), h.isBasic_basicVar hi⟩
    · rw [← h.place_basicVar (mem_range.mp hi), e, h.place_basicVar (mem_range.mp hk)]
    · obtain ⟨hv, hvb⟩ := mem_filter.mp hv
      obtain ⟨hi, he⟩ := h.of_isBasic (mem_range.mp hv) hvb
      exact ⟨s.place v, mem_range.mpr hi, he⟩
  have hn : ∑ v ∈ (range n).filter (fun v => ¬s.isBasic v = true), g v
      = ∑ j ∈ range (n - m), g (s.nonBasicVar j) := by
    refine (sum_bij (fun j _ => s.nonBasicVar j) (fun j hj => ?_) (fun j hj k hk e => ?_)
      (fun v hv => ?_) fun _ _ => rfl).symm
    · have hj := mem_range.mp hj
      exact mem_filter.mpr ⟨mem_range.mpr (h.nonBasicVar_lt hj), by simp [h.isBasic_nonBasicVar hj]⟩
    · rw [← h.place_nonBasicVar (mem_range.mp hj), e, h.place_nonBasicVar (mem_range.mp hk)]
    · obtain ⟨hv, hvb⟩ := mem_filter.mp hv
      obtain ⟨hj, he⟩ := h.of_not_isBasic (mem_range.mp hv) (by simpa using hvb)
      exact ⟨s.place v, mem_range.mpr hj, he⟩
  rw [← hb, ← hn, sum_filter_add_sum_filter_not]

end Sums

end WellFormed

/-! ## §4.  Exchanging two variables -/

/-- The split after an exchange. -/
def swapped (s : BasisSplit) (j i : Nat) : BasisSplit :=
  { basicSet := (s.basicSet.erase (s.basicVar i)).insert (s.nonBasicVar j)
    basic := s.basic.set i (some (s.nonBasicVar j))
    nonBasic := s.nonBasic.set j (s.basicVar i)
    positions := (s.positions.set (s.nonBasicVar j) (some i)).set (s.basicVar i) (some j) }

/-- An exchange needs a variable in either place, both of which have a position, and does nothing
    else than exchange the two. -/
theorem swap_eq_ok_iff {s t : BasisSplit} {j i : Nat} {names : Nat × Nat} :
    s.swap j i = .ok (names, t) ↔ s.nonBasic[j]? = some names.1 ∧ s.basic[i]? = some (some names.2)
      ∧ (names.1 < s.positions.length ∧ names.2 < s.positions.length) ∧ s.swapped j i = t := by
  constructor
  · intro h
    obtain ⟨entering, hent, h⟩ := Checked.bind_eq_ok.mp h
    obtain ⟨leaving, hleave, h⟩ := Checked.bind_eq_ok.mp h
    obtain ⟨slot, hslot, hleave⟩ := Checked.bind_eq_ok.mp hleave
    have hent := Checked.getAt_eq_ok.mp hent
    have hslot := Checked.getAt_eq_ok.mp hslot
    rw [Checked.assigned_eq_ok] at hleave
    subst hleave
    -- the four writes
    obtain ⟨basic, hbasic, h⟩ := Checked.bind_eq_ok.mp h
    obtain ⟨nonBasic, hother, h⟩ := Checked.bind_eq_ok.mp h
    obtain ⟨halfway, hhalf, h⟩ := Checked.bind_eq_ok.mp h
    obtain ⟨positions, hplaces, h⟩ := Checked.bind_eq_ok.mp h
    obtain ⟨-, rfl⟩ := Checked.setAt_eq_ok.mp hbasic
    obtain ⟨-, rfl⟩ := Checked.setAt_eq_ok.mp hother
    obtain ⟨hentering, rfl⟩ := Checked.setAt_eq_ok.mp hhalf
    obtain ⟨hleaving, rfl⟩ := Checked.setAt_eq_ok.mp hplaces
    rw [List.length_set] at hleaving
    cases h
    refine ⟨hent, hslot, ⟨hentering, hleaving⟩, ?_⟩
    rw [swapped, nonBasicVar_of_getElem? hent, basicVar_of_getElem? hslot]
  · rintro ⟨hent, hleave, ⟨hentering, hleaving⟩, rfl⟩
    have hat : s.basicAt i = .ok names.2 :=
      Checked.bind_eq_ok.mpr ⟨_, Checked.getAt_eq_ok.mpr hleave, rfl⟩
    have hi : i < s.basic.length := (List.getElem?_eq_some_iff.mp hleave).1
    have hj : j < s.nonBasic.length := (List.getElem?_eq_some_iff.mp hent).1
    refine Checked.bind_eq_ok.mpr ⟨names.1, Checked.getAt_eq_ok.mpr hent,
      Checked.bind_eq_ok.mpr ⟨names.2, hat, ?_⟩⟩
    rw [swapped, nonBasicVar_of_getElem? hent, basicVar_of_getElem? hleave]
    refine Checked.bind_eq_ok.mpr ⟨_, Checked.setAt_eq_ok.mpr ⟨hi, rfl⟩,
      Checked.bind_eq_ok.mpr ⟨_, Checked.setAt_eq_ok.mpr ⟨hj, rfl⟩, ?_⟩⟩
    refine Checked.bind_eq_ok.mpr ⟨_, Checked.setAt_eq_ok.mpr ⟨hentering, rfl⟩,
      Checked.bind_eq_ok.mpr ⟨_, Checked.setAt_eq_ok.mpr ⟨?_, rfl⟩, rfl⟩⟩
    rwa [List.length_set]

/-- The positions after an exchange. -/
theorem getElem?_positions_swapped {s : BasisSplit} {j i : Nat}
    (hb : s.basicVar i < s.positions.length) (hn : s.nonBasicVar j < s.positions.length) (v : Nat) :
    (s.swapped j i).positions[v]? = if v = s.basicVar i then some (some j)
      else if v = s.nonBasicVar j then some (some i) else s.positions[v]? := by
  unfold swapped
  rw [List.getElem?_set, List.getElem?_set, List.length_set]
  by_cases hvi : v = s.basicVar i
  · subst hvi
    rw [if_pos rfl, if_pos hb, if_pos rfl]
  · rw [if_neg (Ne.symm hvi), if_neg hvi]
    by_cases hvj : v = s.nonBasicVar j
    · subst hvj
      rw [if_pos rfl, if_pos hn, if_pos rfl]
    · rw [if_neg (Ne.symm hvj), if_neg hvj]

namespace WellFormed

variable {m n : Nat} {s : BasisSplit}

/-- An exchange of two positions that exist succeeds. -/
theorem swap_eq (h : s.WellFormed m n) {j i : Nat} (hj : j < n - m) (hi : i < m) :
    s.swap j i = .ok ((s.nonBasicVar j, s.basicVar i), s.swapped j i) := by
  have hentering : s.nonBasicVar j < s.positions.length := h.places.symm ▸ h.nonBasicVar_lt hj
  have hleaving : s.basicVar i < s.positions.length := h.places.symm ▸ h.basicVar_lt hi
  exact swap_eq_ok_iff.mpr ⟨(h.nonBasic_at hj).1, (h.basic_at hi).1, ⟨hentering, hleaving⟩, rfl⟩

section Swap

variable {i j : Nat}

/-- The marks after an exchange. -/
theorem isBasic_swapped (v : Nat) :
    (s.swapped j i).isBasic v = if v = s.nonBasicVar j then true
      else if v = s.basicVar i then false else s.isBasic v := by
  show ((s.basicSet.erase (s.basicVar i)).insert (s.nonBasicVar j)).contains v = _
  rw [IndexSet.contains_insert, IndexSet.contains_erase]
  by_cases hvj : v = s.nonBasicVar j
  · rw [if_pos hvj, hvj, beq_self_eq_true, Bool.true_or]
  · rw [if_neg hvj, beq_eq_false_iff_ne.mpr hvj, Bool.false_or]
    by_cases hvi : v = s.basicVar i
    · rw [if_pos hvi, hvi, bne_self_eq_false, Bool.false_and]
    · rw [if_neg hvi, bne_iff_ne.mpr hvi, Bool.true_and]
      rfl

/-- The rows after an exchange. -/
theorem basicVar_swapped (h : s.WellFormed m n) (hi : i < m) (k : Nat) :
    (s.swapped j i).basicVar k = if k = i then s.nonBasicVar j else s.basicVar k := by
  have hi' : i < s.basic.length := h.basic.length.symm ▸ hi
  unfold basicVar swapped
  rw [List.getD_eq_getElem?_getD, List.getElem?_set]
  by_cases hk : k = i
  · subst hk
    simp [hi']
  · rw [if_neg (Ne.symm hk), if_neg hk, ← List.getD_eq_getElem?_getD]

/-- The non-basic positions after an exchange. -/
theorem nonBasicVar_swapped (h : s.WellFormed m n) (hj : j < n - m) (k : Nat) :
    (s.swapped j i).nonBasicVar k = if k = j then s.basicVar i else s.nonBasicVar k := by
  have hj' : j < s.nonBasic.length := h.nonBasic.length.symm ▸ hj
  unfold nonBasicVar swapped
  rw [List.getD_eq_getElem?_getD, List.getElem?_set]
  by_cases hk : k = j
  · subst hk
    simp [hj']
  · rw [if_neg (Ne.symm hk), if_neg hk, ← List.getD_eq_getElem?_getD]

/-- No variable is on both lists. -/
theorem basicVar_ne_nonBasicVar (h : s.WellFormed m n) (hj : j < n - m) (hi : i < m) :
    s.basicVar i ≠ s.nonBasicVar j :=
  h.basicVar_ne hi (h.isBasic_nonBasicVar hj)

/-- The positions after an exchange. -/
theorem positions_swapped (h : s.WellFormed m n) (hj : j < n - m) (hi : i < m) (v : Nat) :
    (s.swapped j i).positions[v]? = if v = s.basicVar i then some (some j)
      else if v = s.nonBasicVar j then some (some i) else s.positions[v]? :=
  getElem?_positions_swapped (h.places ▸ h.basicVar_lt hi) (h.places ▸ h.nonBasicVar_lt hj) v

/-- **Exchanging two variables.** -/
theorem swap (h : s.WellFormed m n) (hj : j < n - m) (hi : i < m) :
    (s.swapped j i).WellFormed m n := by
  have hne := h.basicVar_ne_nonBasicVar hj hi
  refine ⟨h.le, ?_, ⟨?_, fun k hk => ?_⟩, ⟨?_, fun k hk => ?_⟩, fun v hv hb => ?_,
    fun v hv hb => ?_⟩
  · simp [swapped, h.places]
  · simp [swapped, h.basic.length]
  · -- row `i` now holds the entering variable, the other rows what they held
    obtain ⟨hs, hlt, hp, hb⟩ := h.basic_at hk
    by_cases hki : k = i
    · subst hki
      refine ⟨_, ?_, s.nonBasicVar j, rfl, h.nonBasicVar_lt hj, ?_, ?_⟩
      · simp [swapped, h.basic.length, hk]
      · rw [h.positions_swapped hj hk, if_neg hne.symm, if_pos rfl]
      · rw [isBasic_swapped, if_pos rfl]
    · have hki' : s.basicVar k ≠ s.basicVar i := fun e => hki (by
        rw [← h.place_basicVar hk, e, h.place_basicVar hi])
      have hkj : s.basicVar k ≠ s.nonBasicVar j := h.basicVar_ne_nonBasicVar hj hk
      refine ⟨_, ?_, s.basicVar k, rfl, hlt, ?_, ?_⟩
      · show (s.basic.set i _)[k]? = _
        rw [List.getElem?_set_ne (Ne.symm hki)]
        exact hs
      · rw [h.positions_swapped hj hi, if_neg hki', if_neg hkj, hp]
      · rw [isBasic_swapped, if_neg hkj, if_neg hki', hb]
  · simp [swapped, h.nonBasic.length]
  · -- position `j` now holds the leaving variable
    obtain ⟨hs, hlt, hp, hb⟩ := h.nonBasic_at hk
    by_cases hkj : k = j
    · subst hkj
      refine ⟨s.basicVar i, ?_, h.basicVar_lt hi, ?_, ?_⟩
      · simp [swapped, h.nonBasic.length, hk]
      · rw [h.positions_swapped hk hi, if_pos rfl]
      · rw [isBasic_swapped, if_neg hne, if_pos rfl]
    · have hkj' : s.nonBasicVar k ≠ s.nonBasicVar j := fun e => hkj (by
        rw [← h.place_nonBasicVar hk, e, h.place_nonBasicVar hj])
      have hki : s.nonBasicVar k ≠ s.basicVar i := (h.basicVar_ne_nonBasicVar hk hi).symm
      refine ⟨s.nonBasicVar k, ?_, hlt, ?_, ?_⟩
      · show (s.nonBasic.set j _)[k]? = _
        rw [List.getElem?_set_ne (Ne.symm hkj)]
        exact hs
      · rw [h.positions_swapped hj hi, if_neg hki, if_neg hkj', hp]
      · rw [isBasic_swapped, if_neg hkj', if_neg hki, hb]
  · -- no basic variable is without a row
    rw [isBasic_swapped] at hb
    by_cases hvj : v = s.nonBasicVar j
    · exact ⟨i, hi, by simp [swapped, h.basic.length, hi, hvj]⟩
    · by_cases hvi : v = s.basicVar i
      · rw [if_neg hvj, if_pos hvi] at hb
        cases hb
      · rw [if_neg hvj, if_neg hvi] at hb
        obtain ⟨k, hk, hs⟩ := h.coversBasic v hv hb
        have hki : i ≠ k := fun e => hvi (by rw [e, basicVar_of_getElem? hs])
        refine ⟨k, hk, ?_⟩
        show (s.basic.set i _)[k]? = _
        rw [List.getElem?_set_ne hki, hs]
  · rw [isBasic_swapped] at hb
    by_cases hvi : v = s.basicVar i
    · exact ⟨j, hj, by simp [swapped, h.nonBasic.length, hj, hvi]⟩
    · by_cases hvj : v = s.nonBasicVar j
      · simp [hvj] at hb
      · rw [if_neg hvj, if_neg hvi] at hb
        obtain ⟨k, hk, hs⟩ := h.coversOther v hv hb
        have hkj : j ≠ k := fun e => hvj (by rw [e, nonBasicVar_of_getElem? hs])
        refine ⟨k, hk, ?_⟩
        show (s.nonBasic.set j _)[k]? = _
        rw [List.getElem?_set_ne hkj, hs]

end Swap

/-! ## §5.  One more basic variable -/

/-- Adding a basic variable marks the new one. -/
theorem isBasic_pushBasic (h : s.WellFormed m n) (v : Nat) :
    s.pushBasic.isBasic v = (v == n || s.isBasic v) := by
  show (s.basicSet.insert s.positions.length).contains v = _
  rw [IndexSet.contains_insert, h.places]
  rfl

/-- **One more variable, which is basic in one more row.** -/
theorem pushBasic (h : s.WellFormed m n) :
    s.pushBasic.WellFormed (m + 1) (n + 1)
      ∧ (∀ i < m, s.pushBasic.basicVar i = s.basicVar i) ∧ s.pushBasic.basicVar m = n
      ∧ ∀ j, s.pushBasic.nonBasicVar j = s.nonBasicVar j := by
  have hbasic (i : Nat) (hi : i < m) : s.pushBasic.basic[i]? = s.basic[i]? :=
    List.getElem?_append_left (h.basic.length ▸ hi)
  have hlast : s.pushBasic.basic[m]? = some (some n) := by
    show (s.basic ++ [some s.positions.length])[m]? = _
    rw [← h.basic.length, h.places]
    simp
  have hplace (v : Nat) (hv : v < n) : s.pushBasic.positions[v]? = s.positions[v]? :=
    List.getElem?_append_left (h.places ▸ hv)
  have hnew : s.pushBasic.positions[n]? = some (some m) := by
    show (s.positions ++ [some s.basic.length])[n]? = _
    rw [← h.places, h.basic.length]
    simp
  have hold (v : Nat) (hv : v < n) : s.pushBasic.isBasic v = s.isBasic v := by
    rw [h.isBasic_pushBasic]
    simp [show v ≠ n by omega]
  have hsub : n + 1 - (m + 1) = n - m := by omega
  refine ⟨⟨Nat.succ_le_succ h.le, ?_, ⟨?_, fun i hi => ?_⟩, ⟨?_, fun j hj => ?_⟩, fun v hv hb => ?_,
    fun v hv hb => ?_⟩, fun i hi => ?_, basicVar_of_getElem? hlast, fun j => rfl⟩
  · show (s.positions ++ [_]).length = n + 1
    rw [List.length_append, h.places, List.length_singleton]
  · show (s.basic ++ [_]).length = m + 1
    rw [List.length_append, h.basic.length, List.length_singleton]
  · -- the old rows stay, and the new one holds the new variable
    by_cases him : i < m
    · obtain ⟨hs, hlt, hp, hb⟩ := h.basic_at him
      exact ⟨_, (hbasic i him).trans hs, _, rfl, by omega, by rw [hplace _ hlt, hp],
        by rw [hold _ hlt, hb]⟩
    · have : i = m := by omega
      subst this
      exact ⟨_, hlast, n, rfl, by omega, hnew, by rw [h.isBasic_pushBasic]; simp⟩
  · rw [hsub]
    exact h.nonBasic.length
  · obtain ⟨hs, hlt, hp, hb⟩ := h.nonBasic_at (hsub ▸ hj)
    exact ⟨_, hs, by omega, by rw [hplace _ hlt, hp], by rw [hold _ hlt, hb]⟩
  · by_cases hvn : v < n
    · rw [hold v hvn] at hb
      obtain ⟨i, hi, hs⟩ := h.coversBasic v hvn hb
      exact ⟨i, by omega, by rw [hbasic i hi, hs]⟩
    · have : v = n := by omega
      subst this
      exact ⟨m, by omega, hlast⟩
  · -- the new variable is basic, so this one is an old one
    have hvn : v < n := by
      by_contra hc
      have : v = n := by omega
      rw [h.isBasic_pushBasic, this] at hb
      simp at hb
    rw [hold v hvn] at hb
    obtain ⟨j, hj, hs⟩ := h.coversOther v hvn hb
    exact ⟨j, by omega, hs⟩
  · unfold basicVar
    rw [List.getD_eq_getElem?_getD, hbasic i hi, ← List.getD_eq_getElem?_getD]

end WellFormed

/-! ## §6.  The check -/

/-- A variable fits a position if it has the mark and knows the position. -/
theorem fits_iff {s : BasisSplit} {marked : Bool} {v i : Nat} :
    s.fits marked v i = true ↔ s.isBasic v = marked ∧ s.positions[v]? = some (some i) := by
  unfold fits
  rw [Bool.and_eq_true, beq_iff_eq, beq_iff_eq]

/-- What the check looks at: how many variables are marked, and whether every entry of the two lists
    is a variable that knows its place. -/
theorem isConsistent_iff {s : BasisSplit} : s.isConsistent = true ↔ s.basicSet.size = s.basic.length
    ∧ (∀ i slot, s.basic[i]? = some slot → ∃ v, slot = some v ∧ s.fits true v i = true)
    ∧ ∀ j v, s.nonBasic[j]? = some v → s.fits false v j = true := by
  rw [isConsistent, Bool.and_eq_true, Bool.and_eq_true, beq_iff_eq, List.all_eq_true,
    List.all_eq_true, and_assoc]
  refine and_congr_right fun _ => and_congr ?_ ?_
  · constructor
    · intro hall i slot hslot
      have hany := hall (slot, i) (List.mk_mem_zipIdx_iff_getElem?.mpr hslot)
      cases slot with
      | none => cases hany
      | some v => exact ⟨v, rfl, hany⟩
    · rintro hall ⟨slot, i⟩ hmem
      obtain ⟨v, rfl, hfits⟩ := hall i slot (List.mk_mem_zipIdx_iff_getElem?.mp hmem)
      exact hfits
  · constructor
    · intro hall j v hv
      exact hall (v, j) (List.mk_mem_zipIdx_iff_getElem?.mpr hv)
    · rintro hall ⟨v, j⟩ hmem
      exact hall j v (List.mk_mem_zipIdx_iff_getElem?.mp hmem)

section Check

variable {s : BasisSplit}

/-- The variable of a row of a split that passes the check. -/
theorem row_of_isConsistent (hc : s.isConsistent = true) {i : Nat} (hi : i < s.basic.length) :
    s.basic[i]? = some (some (s.basicVar i)) ∧ s.isBasic (s.basicVar i) = true
      ∧ s.positions[s.basicVar i]? = some (some i) := by
  have hslot := List.getElem?_eq_getElem hi
  obtain ⟨v, hv, hfits⟩ := (isConsistent_iff.mp hc).2.1 i _ hslot
  rw [hv] at hslot
  rw [basicVar_of_getElem? hslot]
  exact ⟨hslot, fits_iff.mp hfits⟩

/-- No variable has two rows. -/
theorem nodup_rows_of_isConsistent (hc : s.isConsistent = true) :
    ((List.range s.basic.length).map s.basicVar).Nodup := by
  refine List.Nodup.map_on ?_ List.nodup_range
  intro i hi k hk heq
  -- two rows with one variable would both be its position
  have hplace := (row_of_isConsistent hc (List.mem_range.mp hi)).2.2
  rw [heq, (row_of_isConsistent hc (List.mem_range.mp hk)).2.2] at hplace
  exact (Option.some.inj (Option.some.inj hplace)).symm

/-- **No marked variable is left without a row**, since there are as many of the
    one as of the other. -/
theorem exists_row_of_isBasic (hc : s.isConsistent = true) {v : Nat} (hv : s.isBasic v = true) :
    ∃ i < s.basic.length, s.basic[i]? = some (some v) := by
  have hsub : (List.range s.basic.length).map s.basicVar ⊆ s.basicSet.toList := by
    intro w hw
    obtain ⟨i, hi, rfl⟩ := List.mem_map.mp hw
    have := (row_of_isConsistent hc (List.mem_range.mp hi)).2.1
    simpa [isBasic, IndexSet.contains] using this
  have hsize : s.basicSet.toList.length = s.basic.length := (isConsistent_iff.mp hc).1
  have hperm := (List.subperm_of_subset (nodup_rows_of_isConsistent hc) hsub).perm_of_length_le
    (by rw [hsize, List.length_map, List.length_range])
  have hmem : v ∈ s.basicSet.toList := by simpa [isBasic, IndexSet.contains] using hv
  obtain ⟨i, hi, rfl⟩ := List.mem_map.mp (hperm.mem_iff.mpr hmem)
  have hi := List.mem_range.mp hi
  exact ⟨i, hi, (row_of_isConsistent hc hi).1⟩

/-- **No other variable is left out** if the two lists are as long together as
    there are variables. -/
theorem exists_place_of_not_isBasic (hc : s.isConsistent = true)
    (hcount : s.basic.length + s.nonBasic.length = s.positions.length) {v : Nat}
    (hv : v < s.positions.length) (hb : s.isBasic v = false) :
    ∃ j < s.nonBasic.length, s.nonBasic[j]? = some v := by
  have hother {w : Nat} (hw : w ∈ s.nonBasic) :
      ∃ j, s.isBasic w = false ∧ s.positions[w]? = some (some j) := by
    obtain ⟨j, hj⟩ := List.mem_iff_getElem?.mp hw
    exact ⟨j, fits_iff.mp ((isConsistent_iff.mp hc).2.2 j w hj)⟩
  have hnodup : ((List.range s.basic.length).map s.basicVar ++ s.nonBasic).Nodup := by
    refine (nodup_rows_of_isConsistent hc).append ?_ ?_
    · rw [List.nodup_iff_getElem?_ne_getElem?]
      intro j k hjk hk heq
      have hk' := List.getElem?_eq_getElem hk
      have hj := (fits_iff.mp ((isConsistent_iff.mp hc).2.2 j _ (heq.trans hk'))).2
      rw [(fits_iff.mp ((isConsistent_iff.mp hc).2.2 k _ hk')).2] at hj
      have := Option.some.inj (Option.some.inj hj)
      omega
    · -- the mark tells the two lists apart
      intro w hw hw'
      obtain ⟨i, hi, rfl⟩ := List.mem_map.mp hw
      obtain ⟨j, hnot, -⟩ := hother hw'
      rw [(row_of_isConsistent hc (List.mem_range.mp hi)).2.1] at hnot
      cases hnot
  -- a list without repetitions that is as long as the list of all variables has them all
  have hsub : (List.range s.basic.length).map s.basicVar ++ s.nonBasic
      ⊆ List.range s.positions.length := by
    intro w hw
    rw [List.mem_range]
    rcases List.mem_append.mp hw with hw | hw
    · obtain ⟨i, hi, rfl⟩ := List.mem_map.mp hw
      exact (List.getElem?_eq_some_iff.mp (row_of_isConsistent hc (List.mem_range.mp hi)).2.2).1
    · obtain ⟨j, -, hplace⟩ := hother hw
      exact (List.getElem?_eq_some_iff.mp hplace).1
  have hperm := (List.subperm_of_subset hnodup hsub).perm_of_length_le (by simp; omega)
  rcases List.mem_append.mp (hperm.mem_iff.mpr (List.mem_range.mpr hv)) with hmem | hmem
  · obtain ⟨i, hi, rfl⟩ := List.mem_map.mp hmem
    rw [(row_of_isConsistent hc (List.mem_range.mp hi)).2.1] at hb
    cases hb
  · obtain ⟨j, hj⟩ := List.mem_iff_getElem?.mp hmem
    exact ⟨j, (List.getElem?_eq_some_iff.mp hj).1, hj⟩

/-- A split is in order if the entries of its lists know their places and no
    variable is left out. -/
theorem wellFormed_of_fits (hcount : s.basic.length + s.nonBasic.length = s.positions.length)
    (hrows : ∀ i slot, s.basic[i]? = some slot → ∃ v, slot = some v ∧ s.fits true v i = true)
    (hothers : ∀ j v, s.nonBasic[j]? = some v → s.fits false v j = true)
    (hbasic : ∀ v, s.isBasic v = true → ∃ i < s.basic.length, s.basic[i]? = some (some v))
    (hother : ∀ v < s.positions.length, s.isBasic v = false →
      ∃ j < s.nonBasic.length, s.nonBasic[j]? = some v) :
    s.WellFormed s.basic.length s.positions.length := by
  have hsub : s.positions.length - s.basic.length = s.nonBasic.length := by omega
  refine ⟨by omega, rfl, ⟨rfl, ?_⟩, ⟨hsub.symm, ?_⟩, ?_, ?_⟩
  · intro i hi
    have hslot := List.getElem?_eq_getElem hi
    obtain ⟨v, hv, hfits⟩ := hrows i _ hslot
    obtain ⟨hb, hplace⟩ := fits_iff.mp hfits
    exact ⟨_, hslot, v, hv, (List.getElem?_eq_some_iff.mp hplace).1, hplace, hb⟩
  · intro j hj
    have hslot := List.getElem?_eq_getElem (hsub ▸ hj)
    obtain ⟨hb, hplace⟩ := fits_iff.mp (hothers j _ hslot)
    exact ⟨_, hslot, (List.getElem?_eq_some_iff.mp hplace).1, hplace, hb⟩
  · intro v _ hb
    exact hbasic v hb
  · intro v hv hb
    rw [hsub]
    exact hother v hv hb

/-- **A split that passes its own check is in order** if its lists are as long together as there are
    variables. -/
theorem wellFormed_of_isConsistent (hc : s.isConsistent = true)
    (hcount : s.basic.length + s.nonBasic.length = s.positions.length) :
    s.WellFormed s.basic.length s.positions.length := by
  obtain ⟨-, hrows, hothers⟩ := isConsistent_iff.mp hc
  exact wellFormed_of_fits hcount hrows hothers (fun v => exists_row_of_isBasic hc)
    (fun v => exists_place_of_not_isBasic hc hcount)

end Check

/-! ## §7.  The start -/

theorem length_placeAll (positions : List (Option Nat)) (vs : List Nat) :
    (placeAll positions vs).length = positions.length :=
  length_foldl_set

/-- The check at the start, once the variables that are not basic are listed. -/
theorem wellFormed_of_listNonBasic {m n : Nat} {s t : BasisSplit} (hn : s.positions.length = n)
    (hm : s.basicSet.size = m) (ht : s.listNonBasic = .ok t) (hc : t.isConsistent = true) :
    t.WellFormed m n := by
  obtain ⟨_, hcount, ht⟩ := Checked.bind_eq_ok.mp ht
  rw [Checked.require_eq_ok] at hcount
  cases ht
  subst hn hm
  have hrows : s.basicSet.size = s.basic.length := (isConsistent_iff.mp hc).1
  have hplaces := length_placeAll s.positions
    ((List.range s.positions.length).filter fun v => !s.basicSet.contains v)
  have hwf := wellFormed_of_isConsistent hc (by dsimp only; omega)
  dsimp only at hwf
  rwa [hplaces, ← hrows] at hwf

end BoundedSimplex.BasisSplit
