/-
  BoundedSimplex.Proofs.Basis.Assigned — splits that are set up step by step.

  Variables are marked as basic and given their rows, in any order; then the others are
  listed.  What comes out depends on which variable has which row, and not on the order of the
  steps, or on their number.

  Main results:
    * `Assigned.exists_markBasic`, `Assigned.exists_assignRow` — the steps;
    * `Assigned.unique` — what was marked and given determines the split;
    * `Assigned.exists_listNonBasic` — listing the others puts the split in order.
-/
import BoundedSimplex.Proofs.Shape

namespace BoundedSimplex.BasisSplit

variable {m n : Nat} {s t : BasisSplit}

/-! ## §1.  Marking variables and giving them rows -/

/-- Of `n` variables some are marked as basic, and some were given one of `m` rows;
    nothing is listed. -/
structure Assigned (m n : Nat) (marked : Nat → Prop) (given : Nat × Nat → Prop) (s : BasisSplit) :
    Prop where
  rows : s.basic.length = m
  places : s.positions.length = n
  nonBasic : s.nonBasic = []
  marks : ∀ v, s.isBasic v = true ↔ marked v
  basic : ∀ p, given p → s.basic[p.2]? = some (some p.1)
  vacant : ∀ i < m, (∀ p, given p → p.2 ≠ i) → s.basic[i]? = some none
  positions : ∀ p, given p → s.positions[p.1]? = some (some p.2)
  unplaced : ∀ v < n, (∀ p, given p → p.1 ≠ v) → s.positions[v]? = some none

/-- A blank split has no marks and no rows. -/
theorem assigned_blank (m n : Nat) :
    (blank m n).Assigned m n (fun _ => False) fun _ => False where
  rows := List.length_replicate
  places := List.length_replicate
  nonBasic := rfl
  marks v := by simp [blank, isBasic]
  basic p hp := hp.elim
  vacant i hi _ := by simp [blank, hi]
  positions p hp := hp.elim
  unplaced v hv _ := by simp [blank, hv]

namespace Assigned

variable {marked marked' : Nat → Prop} {given given' : Nat × Nat → Prop}

/-- It matters only which variables are marked and which rows are given. -/
theorem congr (h : s.Assigned m n marked given) (hmarked : ∀ v, marked' v ↔ marked v)
    (hgiven : ∀ p, given' p ↔ given p) : s.Assigned m n marked' given' := by
  obtain rfl : marked' = marked := funext fun v => propext (hmarked v)
  obtain rfl : given' = given := funext fun p => propext (hgiven p)
  exact h

/-- **What was marked and given determines the split.** -/
theorem unique (h : s.Assigned m n marked given) (h' : t.Assigned m n marked given) : s = t := by
  have hbasic : s.basic = t.basic := by
    refine List.ext_getElem (h.rows.trans h'.rows.symm) fun i hi hi' => ?_
    refine Option.some.inj ((List.getElem?_eq_getElem hi).symm.trans (Eq.trans ?_
      (List.getElem?_eq_getElem hi')))
    -- a row was given to one variable, or it is vacant in both splits
    by_cases hrow : ∃ p, given p ∧ p.2 = i
    · obtain ⟨p, hp, rfl⟩ := hrow
      rw [h.basic p hp, h'.basic p hp]
    · have hne (p : Nat × Nat) (hp : given p) : p.2 ≠ i := fun heq => hrow ⟨p, hp, heq⟩
      rw [h.vacant i (h.rows ▸ hi) hne, h'.vacant i (h.rows ▸ hi) hne]
  have hpositions : s.positions = t.positions := by
    refine List.ext_getElem (h.places.trans h'.places.symm) fun v hv hv' => ?_
    refine Option.some.inj ((List.getElem?_eq_getElem hv).symm.trans (Eq.trans ?_
      (List.getElem?_eq_getElem hv')))
    -- and so is a place either recorded by a row, or empty in both
    by_cases hplace : ∃ p, given p ∧ p.1 = v
    · obtain ⟨p, hp, rfl⟩ := hplace
      rw [h.positions p hp, h'.positions p hp]
    · have hne (p : Nat × Nat) (hp : given p) : p.1 ≠ v := fun heq => hplace ⟨p, hp, heq⟩
      rw [h.unplaced v (h.places ▸ hv) hne, h'.unplaced v (h.places ▸ hv) hne]
  exact ext_marks (fun v => Bool.eq_iff_iff.mpr ((h.marks v).trans (h'.marks v).symm)) hbasic
    (h.nonBasic.trans h'.nonBasic.symm) hpositions

/-- **One more mark.** -/
theorem exists_markBasic (h : s.Assigned m n marked given) {v : Nat} (hv : v < n) :
    ∃ t, s.markBasic v = .ok t ∧ t.Assigned m n (fun w => w = v ∨ marked w) given := by
  refine ⟨{ s with basicSet := s.basicSet.insert v },
    Checked.bind_eq_ok.mpr ⟨(), Checked.require_eq_ok.mpr (h.places.symm ▸ hv), rfl⟩,
    h.rows, h.places, h.nonBasic, fun w => ?_, h.basic, h.vacant, h.positions, h.unplaced⟩
  show (s.basicSet.insert v).contains w = true ↔ _
  rw [IndexSet.contains_insert, Bool.or_eq_true, beq_iff_eq]
  exact or_congr_right (h.marks w)

/-- **One more row.**  The variable may have had this row before, but no other one. -/
theorem exists_assignRow (h : s.Assigned m n marked given) {p : Nat × Nat} (hp : marked p.1)
    (hv : p.1 < n) (hi : p.2 < m) (hsame : ∀ q, given q → (q.1 = p.1 ↔ q.2 = p.2)) :
    ∃ t, s.assignRow p.1 p.2 = .ok t ∧ t.Assigned m n marked fun q => q = p ∨ given q := by
  refine ⟨{ s with
      basic := s.basic.set p.2 (some p.1)
      positions := s.positions.set p.1 (some p.2) },
    Checked.bind_eq_ok.mpr ⟨(), Checked.require_eq_ok.mpr ((h.marks p.1).mpr hp),
      Checked.bind_eq_ok.mpr
      ⟨_, Checked.setAt_eq_ok.mpr ⟨h.rows.symm ▸ hi, rfl⟩, Checked.bind_eq_ok.mpr
        ⟨_, Checked.setAt_eq_ok.mpr ⟨h.places.symm ▸ hv, rfl⟩, rfl⟩⟩⟩,
    List.length_set.trans h.rows, List.length_set.trans h.places, h.nonBasic, h.marks,
    fun q hq => ?_, fun i hi hne => ?_, fun q hq => ?_, fun v hv hne => ?_⟩
  · show (s.basic.set p.2 (some p.1))[q.2]? = _
    -- the row that is given is the row of no other variable
    by_cases hrow : q.2 = p.2
    · have hvar : q.1 = p.1 := by
        rcases hq with rfl | hq
        · rfl
        · exact (hsame q hq).mpr hrow
      rw [hrow, hvar, List.getElem?_set_self (h.rows.symm ▸ hi)]
    · have hq : given q := hq.resolve_left fun heq => hrow (congrArg Prod.snd heq)
      rw [List.getElem?_set_ne (Ne.symm hrow), h.basic q hq]
  · show (s.basic.set p.2 (some p.1))[i]? = _
    rw [List.getElem?_set_ne (hne p (.inl rfl))]
    exact h.vacant i hi fun q hq => hne q (.inr hq)
  · show (s.positions.set p.1 (some p.2))[q.1]? = _
    by_cases hvar : q.1 = p.1
    · have hrow : q.2 = p.2 := by
        rcases hq with rfl | hq
        · rfl
        · exact (hsame q hq).mp hvar
      rw [hrow, hvar, List.getElem?_set_self (h.places.symm ▸ hv)]
    · have hq : given q := hq.resolve_left fun heq => hvar (congrArg Prod.fst heq)
      rw [List.getElem?_set_ne (Ne.symm hvar), h.positions q hq]
  · show (s.positions.set p.1 (some p.2))[v]? = _
    rw [List.getElem?_set_ne (hne p (.inl rfl))]
    exact h.unplaced v hv fun q hq => hne q (.inr hq)

end Assigned

/-! ## §2.  Listing the others -/

/-- One of `n` variables for each of `m` rows, all of them different. -/
structure FillsRows (m n : Nat) (vs : List Nat) : Prop where
  known : ∀ v ∈ vs, v < n
  nodup : vs.Nodup
  length : vs.length = m

namespace FillsRows

variable {vs : List Nat}

/-- The others. -/
theorem length_others (h : FillsRows m n vs) :
    ((List.range n).filter (· ∉ vs)).length + m = n := by
  have hperm : ((List.range n).filter (· ∈ vs)).Perm vs := by
    rw [List.perm_ext_iff_of_nodup (List.nodup_range.filter _) h.nodup]
    intro v
    rw [List.mem_filter, List.mem_range, decide_eq_true_iff]
    exact ⟨And.right, fun hv => ⟨h.known v hv, hv⟩⟩
  have hsum := List.length_eq_length_filter_add (l := List.range n) (· ∈ vs)
  rw [List.length_range, hperm.length_eq, h.length] at hsum
  simp only [← decide_not] at hsum
  omega

/-- A variable has one row, and a row has one variable. -/
theorem fst_eq_iff (h : FillsRows m n vs) {p q : Nat × Nat} (hp : p ∈ vs.zipIdx)
    (hq : q ∈ vs.zipIdx) :
    p.1 = q.1 ↔ p.2 = q.2 := by
  have hp := List.mem_zipIdx_iff_getElem?.mp hp
  have hq := List.mem_zipIdx_iff_getElem?.mp hq
  constructor
  · intro heq
    exact (List.getElem?_inj (List.getElem?_eq_some_iff.mp hp).1 h.nodup).mp (by rw [hp, hq, heq])
  · intro heq
    exact Option.some.inj (hp.symm.trans (heq ▸ hq))

end FillsRows

/-- The places after the others are listed. -/
theorem getElem?_placeAll_of_not_mem {vs : List Nat} {v : Nat} (hv : v ∉ vs)
    (ps : List (Option Nat)) : (placeAll ps vs)[v]? = ps[v]? :=
  getElem?_foldl_set_of_ne fun _ hq heq =>
    hv (heq ▸ List.mem_of_getElem? (List.mem_zipIdx_iff_getElem?.mp hq))

/-- A variable on the list is placed where it stands there. -/
theorem getElem?_placeAll {vs : List Nat} (hvs : vs.Nodup) {j v : Nat} (hj : vs[j]? = some v)
    {ps : List (Option Nat)} (hv : v < ps.length) : (placeAll ps vs)[v]? = some (some j) :=
  getElem?_foldl_set (q := (v, j)) (by rwa [List.zipIdx_map_fst])
    (List.mem_zipIdx_iff_getElem?.mpr hj) hv

/-- The split of `n` variables in which those of a list are basic, in its order, and the others
    follow in increasing order. -/
structure Arranged (m n : Nat) (vs : List Nat) (s : BasisSplit) : Prop where
  wellFormed : s.WellFormed m n
  marked : s.Marked
  isBasic_iff : ∀ v, s.isBasic v = true ↔ v ∈ vs
  basic : s.basic = vs.map some
  nonBasic : s.nonBasic = (List.range n).filter (· ∉ vs)

/-- **Listing the others** puts a split whose rows are all taken in order. -/
theorem Assigned.exists_listNonBasic {vs : List Nat} (hvs : FillsRows m n vs)
    (h : s.Assigned m n (· ∈ vs) (· ∈ vs.zipIdx)) :
    ∃ t, s.listNonBasic = .ok t ∧ t.basicSet = s.basicSet ∧ t.Arranged m n vs := by
  have hcount := hvs.length_others
  have hnodup : ((List.range n).filter (· ∉ vs)).Nodup := List.nodup_range.filter _
  have hmem (v : Nat) : v ∈ (List.range n).filter (· ∉ vs) ↔ v < n ∧ v ∉ vs := by
    rw [List.mem_filter, List.mem_range, decide_eq_true_iff]
  -- the variables that are not marked are those that are not on the list
  have hnon : (List.range s.positions.length).filter (fun v => !s.basicSet.contains v)
      = (List.range n).filter (· ∉ vs) := by
    rw [h.places]
    refine List.filter_congr fun v _ => Bool.eq_iff_iff.mpr ?_
    rw [Bool.not_eq_true', decide_eq_true_iff, ← h.marks v, Bool.not_eq_true]
    rfl
  have hrow {i v : Nat} (hv : vs[i]? = some v) : v < n ∧ v ∈ vs ∧ s.basic[i]? = some (some v)
      ∧ s.positions[v]? = some (some i) := by
    have hp : (v, i) ∈ vs.zipIdx := List.mem_zipIdx_iff_getElem?.mpr hv
    have hmem := List.mem_of_getElem? hv
    exact ⟨hvs.known v hmem, hmem, h.basic _ hp, h.positions _ hp⟩
  refine ⟨{ s with
      nonBasic := (List.range n).filter (· ∉ vs)
      positions := placeAll s.positions ((List.range n).filter (· ∉ vs)) }, ?_, rfl, ⟨by omega, ?_,
    ⟨h.rows, fun i hi => ?_⟩, ⟨by dsimp only; omega, fun j hj => ?_⟩, fun v hv hb => ?_,
    fun v hv hb => ?_⟩, fun v hv => ?_, h.marks, ?_, rfl⟩
  · unfold listNonBasic
    rw [hnon]
    exact Checked.bind_eq_ok.mpr ⟨(), Checked.require_eq_ok.mpr (by rw [h.rows, h.places, hcount]),
      rfl⟩
  · rw [length_placeAll, h.places]
  · -- placing the others does not touch the places of those on the list
    obtain ⟨hlt, hin, hbasic, hplace⟩ := hrow (List.getElem?_eq_getElem (hvs.length ▸ hi))
    refine ⟨_, hbasic, _, rfl, hlt, ?_, (h.marks _).mpr hin⟩
    rw [getElem?_placeAll_of_not_mem fun hother => ((hmem _).mp hother).2 hin, hplace]
  · have hj := List.getElem?_eq_getElem (show j < ((List.range n).filter (· ∉ vs)).length by omega)
    obtain ⟨hlt, hout⟩ := (hmem _).mp (List.mem_of_getElem? hj)
    refine ⟨_, hj, hlt, getElem?_placeAll hnodup hj (h.places.symm ▸ hlt), ?_⟩
    exact Bool.eq_false_iff.mpr fun hb => hout ((h.marks _).mp hb)
  · obtain ⟨i, hi⟩ := List.mem_iff_getElem?.mp ((h.marks v).mp hb)
    exact ⟨i, hvs.length ▸ (List.getElem?_eq_some_iff.mp hi).1, (hrow hi).2.2.1⟩
  · have hother : v ∈ (List.range n).filter (· ∉ vs) :=
      (hmem v).mpr ⟨hv, fun hin => Bool.eq_false_iff.mp hb ((h.marks v).mpr hin)⟩
    obtain ⟨j, hj⟩ := List.mem_iff_getElem?.mp hother
    exact ⟨j, by have := (List.getElem?_eq_some_iff.mp hj).1; omega, hj⟩
  · rw [length_placeAll, h.places]
    exact hvs.known v ((h.marks v).mp hv)
  · -- there are no other rows than those that were given
    refine List.ext_getElem? fun i => ?_
    rw [List.getElem?_map]
    cases hi : vs[i]? with
    | some v => exact (hrow hi).2.2.1
    | none =>
      rw [List.getElem?_eq_none_iff, hvs.length, ← h.rows] at hi
      exact List.getElem?_eq_none hi

end BoundedSimplex.BasisSplit
