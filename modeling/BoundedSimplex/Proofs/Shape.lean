/-
  BoundedSimplex.Proofs.Shape — the dimensions of a state.

  A state keeps one matrix in three forms, bounds with a record of the contradictory ones, and the
  values by row and by non-basic position.  For any arithmetic, the dimensions of all of them are
  those of the matrix, and no operation on one of them loses that.

  Main results:
    * `Bounds.Shaped` — the record of the contradictory variables is exact after every write, and
      `Bounds.Shaped.contradictory_eq` lists it;
    * `BasisSplit.WellFormed.isConsistent` — a split in order passes its own check;
    * `State.Shaped`, the dimensions of a whole state.
-/
import BoundedSimplex.Proofs.Basis.Split
import BoundedSimplex.Proofs.Bounds
import BoundedSimplex.Proofs.Linear.MatrixShape
import BoundedSimplex.State
import Mathlib.Data.List.Sort

namespace BoundedSimplex

variable {α : Type} [Scalar α]

/-! ## §1.  The bounds -/

namespace Bounds

/-- Two bounds for each of `n` variables, and on record are exactly those that contradict each
    other.  The latter takes an arithmetic with the infinities in their usual order, for an absent
    bound is infinite and not checked. -/
structure Shaped (n : Nat) (b : Bounds α) : Prop where
  lowers : b.lowers.length = n
  uppers : b.uppers.length = n
  exact : ¬(Scalar.infinity : α) < -Scalar.infinity → ∀ v, b.contradictory.contains v = true
    ↔ ∃ l u, b.lowers[v]? = some l ∧ b.uppers[v]? = some u ∧ l > u

/-- New bounds are free, and none contradict each other. -/
theorem shaped_free (n : Nat) : (free n : Bounds α).Shaped n where
  lowers := List.length_replicate
  uppers := List.length_replicate
  exact hinf v := by
    refine ⟨fun h => by simp [free] at h, ?_⟩
    rintro ⟨l, u, hl, hu, hlu⟩
    have hl' : l = -Scalar.infinity := List.eq_of_mem_replicate (List.mem_of_getElem? hl)
    have hu' : u = Scalar.infinity := List.eq_of_mem_replicate (List.mem_of_getElem? hu)
    rw [hl', hu'] at hlu
    exact absurd hlu hinf

variable {n v : Nat} {b c : Bounds α}

/-- A check changes the record and no bound. -/
theorem check_lists {valid : Bool} (h : b.check v = .ok (valid, c)) :
    c.lowers = b.lowers ∧ c.uppers = b.uppers := by
  obtain ⟨l, -, h⟩ := Checked.bind_eq_ok.mp h
  obtain ⟨u, -, h⟩ := Checked.bind_eq_ok.mp h
  cases h
  exact ⟨rfl, rfl⟩

theorem checkAll_lists {valid : Bool} (h : b.checkAll = .ok (valid, c)) :
    c.lowers = b.lowers ∧ c.uppers = b.uppers := by
  obtain ⟨d, hd, h⟩ := Checked.bind_eq_ok.mp h
  cases h
  refine Checked.foldlM_inv (P := fun e => e.lowers = b.lowers ∧ e.uppers = b.uppers)
    (fun w _ e f he hf => ?_) ⟨rfl, rfl⟩ hd
  obtain ⟨⟨valid, g⟩, hg, hf⟩ := Checked.bind_eq_ok.mp hf
  cases hf
  obtain ⟨hlowers, huppers⟩ := check_lists hg
  exact ⟨hlowers.trans he.1, huppers.trans he.2⟩

theorem setLower_lists {x : α} (h : b.setLower v x = .ok c) :
    c.lowers = b.lowers.set v x ∧ c.uppers = b.uppers := by
  obtain ⟨lowers, hset, h⟩ := Checked.bind_eq_ok.mp h
  obtain ⟨-, rfl⟩ := Checked.setAt_eq_ok.mp hset
  obtain ⟨⟨valid, d⟩, hd, h⟩ := Checked.bind_eq_ok.mp h
  cases h
  exact check_lists hd

theorem setUpper_lists {x : α} (h : b.setUpper v x = .ok c) :
    c.lowers = b.lowers ∧ c.uppers = b.uppers.set v x := by
  obtain ⟨uppers, hset, h⟩ := Checked.bind_eq_ok.mp h
  obtain ⟨-, rfl⟩ := Checked.setAt_eq_ok.mp hset
  obtain ⟨⟨valid, d⟩, hd, h⟩ := Checked.bind_eq_ok.mp h
  cases h
  exact check_lists hd

theorem push_lists {l u : α} (h : b.push l u = .ok c) :
    c.lowers = b.lowers ++ [l] ∧ c.uppers = b.uppers ++ [u] := by
  obtain ⟨⟨valid, d⟩, hd, h⟩ := Checked.bind_eq_ok.mp h
  cases h
  exact check_lists hd

/-- Checking a variable makes the record exact if it was so for the other ones. -/
theorem shaped_of_check {valid : Bool} (h : b.check v = .ok (valid, c)) (hl : b.lowers.length = n)
    (hu : b.uppers.length = n) (hother : ¬(Scalar.infinity : α) < -Scalar.infinity → ∀ w ≠ v,
      b.contradictory.contains w = true
        ↔ ∃ l u, b.lowers[w]? = some l ∧ b.uppers[w]? = some u ∧ l > u) :
    c.Shaped n ∧ c.lowers = b.lowers ∧ c.uppers = b.uppers := by
  obtain ⟨l, hlv, h⟩ := Checked.bind_eq_ok.mp h
  obtain ⟨u, huv, h⟩ := Checked.bind_eq_ok.mp h
  have hlv := Checked.getAt_eq_ok.mp hlv
  have huv := Checked.getAt_eq_ok.mp huv
  cases h
  refine ⟨⟨hl, hu, fun hinf w => ?_⟩, rfl, rfl⟩
  rw [WellFormed.contains_mark]
  -- The checked variable is marked anew; for the others the marks are as they were.
  by_cases hw : w = v
  · subst hw
    rw [if_pos rfl, decide_eq_true_iff]
    constructor
    · intro hlu
      exact ⟨l, u, hlv, huv, hlu⟩
    · rintro ⟨l', u', hl', hu', hlu⟩
      cases hl'.symm.trans hlv
      cases hu'.symm.trans huv
      exact hlu
  · rw [if_neg hw]
    exact hother hinf w hw

namespace Shaped

theorem check (h : b.Shaped n) {valid : Bool} (hc : b.check v = .ok (valid, c)) :
    c.Shaped n ∧ c.lowers = b.lowers ∧ c.uppers = b.uppers :=
  shaped_of_check hc h.lowers h.uppers fun hinf w _ => h.exact hinf w

/-- Checking all variables one after another. -/
theorem checkAll (h : b.Shaped n) {valid : Bool} (hc : b.checkAll = .ok (valid, c)) :
    c.Shaped n := by
  obtain ⟨d, hd, hc⟩ := Checked.bind_eq_ok.mp hc
  cases hc
  refine Checked.foldlM_inv (P := Bounds.Shaped n) (fun w _ e f he hf => ?_) h hd
  obtain ⟨⟨valid, g⟩, hg, hf⟩ := Checked.bind_eq_ok.mp hf
  cases hf
  exact (he.check hg).1

/-- Writing one lower bound leaves the record exact for the other variables, and the check mends it
    for this one. -/
theorem setLower (h : b.Shaped n) {x : α} (hc : b.setLower v x = .ok c) : c.Shaped n := by
  obtain ⟨lowers, hset, hc⟩ := Checked.bind_eq_ok.mp hc
  obtain ⟨-, rfl⟩ := Checked.setAt_eq_ok.mp hset
  obtain ⟨⟨valid, d⟩, hd, hc⟩ := Checked.bind_eq_ok.mp hc
  cases hc
  refine (shaped_of_check hd (List.length_set.trans h.lowers) h.uppers fun hinf w hw => ?_).1
  show b.contradictory.contains w = true ↔ _
  rw [h.exact hinf w, List.getElem?_set_ne (Ne.symm hw)]

/-- Setting an upper bound, which checks the variable. -/
theorem setUpper (h : b.Shaped n) {x : α} (hc : b.setUpper v x = .ok c) : c.Shaped n := by
  obtain ⟨uppers, hset, hc⟩ := Checked.bind_eq_ok.mp hc
  obtain ⟨-, rfl⟩ := Checked.setAt_eq_ok.mp hset
  obtain ⟨⟨valid, d⟩, hd, hc⟩ := Checked.bind_eq_ok.mp hc
  cases hc
  refine (shaped_of_check hd h.lowers (List.length_set.trans h.uppers) fun hinf w hw => ?_).1
  show b.contradictory.contains w = true ↔ _
  rw [h.exact hinf w, List.getElem?_set_ne (Ne.symm hw)]

/-- Bounds of a further variable. -/
theorem push (h : b.Shaped n) {l u : α} (hc : b.push l u = .ok c) : c.Shaped (n + 1) := by
  obtain ⟨⟨valid, d⟩, hd, hc⟩ := Checked.bind_eq_ok.mp hc
  cases hc
  rw [h.lowers] at hd
  refine (shaped_of_check (n := n + 1) hd ?_ ?_ fun hinf w hw => ?_).1
  · rw [List.length_append, h.lowers, List.length_singleton]
  · rw [List.length_append, h.uppers, List.length_singleton]
  · show b.contradictory.contains w = true ↔ _
    rw [h.exact hinf w]
    -- The bounds of the earlier variables are where they were, and none beyond them are marked.
    by_cases hwn : w < n
    · rw [List.getElem?_append_left (h.lowers ▸ hwn), List.getElem?_append_left (h.uppers ▸ hwn)]
    · have hnone {x : α} {xs : List α} (hxs : xs.length = n) : (xs ++ [x])[w]? = none := by
        rw [List.getElem?_eq_none_iff, List.length_append, hxs, List.length_singleton]
        omega
      have hnone' {xs : List α} (hxs : xs.length = n) : xs[w]? = none := by
        rw [List.getElem?_eq_none_iff, hxs]
        omega
      simp only [hnone h.lowers, hnone' h.lowers, reduceCtorEq, false_and, exists_const]

/-- The record lists the variables whose lower bound exceeds the upper one, in increasing order. -/
theorem contradictory_eq (h : b.Shaped n) (hinf : ¬(Scalar.infinity : α) < -Scalar.infinity) :
    b.contradictory.toList
      = (List.range n).filter fun v => decide (b.lowers.getD v 0 > b.uppers.getD v 0) := by
  -- Both lists are in increasing order, so it is enough that they have the same members.
  refine List.Perm.eq_of_pairwise (fun x y _ _ (hxy : x < y) (hyx : y < x) => by omega)
    b.contradictory.increasing (List.pairwise_lt_range.filter _) ?_
  rw [List.perm_ext_iff_of_nodup (b.contradictory.increasing.imp fun hlt => by omega)
    (List.nodup_range.filter _)]
  intro v
  have hmem : v ∈ b.contradictory.toList ↔ b.contradictory.contains v = true := by
    simp [IndexSet.contains]
  rw [hmem, List.mem_filter, List.mem_range, decide_eq_true_iff]
  constructor
  · intro hv
    obtain ⟨l, u, hl, hu, hlu⟩ := (h.exact hinf v).mp hv
    refine ⟨h.lowers ▸ (List.getElem?_eq_some_iff.mp hl).1, ?_⟩
    rwa [List.getD_eq_getElem?_getD, List.getD_eq_getElem?_getD, hl, hu]
  · rintro ⟨hv, hlu⟩
    have hl := List.getElem?_eq_getElem (h.lowers.symm ▸ hv)
    have hu := List.getElem?_eq_getElem (h.uppers.symm ▸ hv)
    rw [List.getD_eq_getElem?_getD, List.getD_eq_getElem?_getD, hl, hu] at hlu
    exact (h.exact hinf v).mpr ⟨_, _, hl, hu, hlu⟩

end Shaped

end Bounds

/-! ## §2.  The split -/

/-- Sets with the same members are equal. -/
theorem IndexSet.ext_contains {s t : IndexSet} (h : ∀ x, s.contains x = t.contains x) : s = t := by
  obtain ⟨xs, hx⟩ := s
  obtain ⟨ys, hy⟩ := t
  have hsame : xs = ys := by
    refine hx.eq_of_mem_iff hy fun a => ?_
    have ha := h a
    simp only [contains] at ha
    rw [← List.contains_iff_mem, ha, List.contains_iff_mem]
  subst hsame
  rfl

namespace BasisSplit

/-- Splits with the same lists, the same marks and the same positions are equal. -/
theorem ext_marks {s t : BasisSplit} (hmarks : ∀ v, s.isBasic v = t.isBasic v)
    (hbasic : s.basic = t.basic) (hnon : s.nonBasic = t.nonBasic)
    (hpositions : s.positions = t.positions) : s = t := by
  have hset : s.basicSet = t.basicSet := IndexSet.ext_contains hmarks
  obtain ⟨_, _, _, _⟩ := s
  obtain ⟨_, _, _, _⟩ := t
  cases hset
  cases hbasic
  cases hnon
  cases hpositions
  rfl

/-- Only variables that exist are marked as basic. -/
def Marked (s : BasisSplit) : Prop := ∀ v, s.isBasic v = true → v < s.positions.length

/-- Nothing is marked at first. -/
theorem marked_blank (m n : Nat) : (blank m n).Marked := fun v h => by
  simp [blank, isBasic] at h

theorem Marked.insert {s t : BasisSplit} (h : s.Marked) {v : Nat}
    (ht : s.markBasic v = .ok t) : t.Marked := by
  obtain ⟨_, hv, ht⟩ := Checked.bind_eq_ok.mp ht
  have hv := Checked.require_eq_ok.mp hv
  cases ht
  intro w hw
  rw [isBasic, IndexSet.contains_insert, Bool.or_eq_true, beq_iff_eq] at hw
  rcases hw with rfl | hw
  · exact hv
  · exact h w hw

theorem Marked.pushBasic {s : BasisSplit} (h : s.Marked) : s.pushBasic.Marked := by
  intro v hv
  show v < (s.positions ++ [_]).length
  rw [List.length_append, List.length_singleton]
  rw [isBasic, BasisSplit.pushBasic, IndexSet.contains_insert, Bool.or_eq_true,
    beq_iff_eq] at hv
  rcases hv with rfl | hv
  · omega
  · exact Nat.lt_succ_of_lt (h v hv)

/-- An exchange marks a variable that has a position. -/
theorem Marked.swap {s t : BasisSplit} (h : s.Marked) {j i : Nat} {names : Nat × Nat}
    (ht : s.swap j i = .ok (names, t)) : t.Marked := by
  obtain ⟨hother, -, ⟨hent, -⟩, rfl⟩ := swap_eq_ok_iff.mp ht
  intro v hv
  show v < ((s.positions.set _ _).set _ _).length
  rw [List.length_set, List.length_set]
  rw [WellFormed.isBasic_swapped, nonBasicVar_of_getElem? hother] at hv
  by_cases hv' : v = names.1
  · exact hv' ▸ hent
  · by_cases hleave : v = s.basicVar i
    · rw [if_neg hv', if_pos hleave] at hv
      cases hv
    · rw [if_neg hv', if_neg hleave] at hv
      exact h v hv

namespace WellFormed

variable {m n : Nat} {s : BasisSplit}

/-- The marked variables are those of the rows. -/
theorem isBasic_iff (h : s.WellFormed m n) (hmark : s.Marked) (v : Nat) :
    s.isBasic v = true ↔ some v ∈ s.basic := by
  constructor
  · intro hb
    obtain ⟨i, -, hi⟩ := h.coversBasic v (h.places ▸ hmark v hb) hb
    exact List.mem_of_getElem? hi
  · intro hv
    obtain ⟨i, hi⟩ := List.mem_iff_getElem?.mp hv
    obtain ⟨w, hw, -, -, hb⟩ := h.basic.of_getElem? hi
    cases hw
    exact hb

/-- There are as many marked variables as rows. -/
theorem size_basicSet (h : s.WellFormed m n) (hmark : s.Marked) : s.basicSet.size = m := by
  have hnodup : ((List.range m).map s.basicVar).Nodup := by
    refine List.Nodup.map_on (fun i hi k hk e => ?_) List.nodup_range
    rw [← h.place_basicVar (List.mem_range.mp hi), e, h.place_basicVar (List.mem_range.mp hk)]
  have hperm : s.basicSet.toList.Perm ((List.range m).map s.basicVar) := by
    rw [List.perm_ext_iff_of_nodup (s.basicSet.increasing.imp fun hlt => by omega) hnodup]
    intro v
    have hmem : v ∈ s.basicSet.toList ↔ s.isBasic v = true := by simp [isBasic, IndexSet.contains]
    rw [hmem, h.isBasic_iff hmark, h.basic_eq]
    simp
  rw [IndexSet.size, hperm.length_eq, List.length_map, List.length_range]

/-- **Every variable stands in exactly one of the two lists**, and there exactly once. -/
theorem perm_range (h : s.WellFormed m n) :
    (s.basic ++ s.nonBasic.map some).Perm ((List.range n).map some) := by
  have hbasic : s.basic.Nodup := by
    rw [h.basic_eq]
    refine List.Nodup.map_on (fun i hi k hk e => ?_) List.nodup_range
    rw [← h.place_basicVar (List.mem_range.mp hi), Option.some.inj e,
      h.place_basicVar (List.mem_range.mp hk)]
  have hother : (s.nonBasic.map some).Nodup := by
    rw [h.nonBasic_eq, List.map_map]
    refine List.Nodup.map_on (fun i hi k hk e => ?_) List.nodup_range
    rw [← h.place_nonBasicVar (List.mem_range.mp hi), Option.some.inj e,
      h.place_nonBasicVar (List.mem_range.mp hk)]
  -- the mark tells the two lists apart
  have hdisjoint : s.basic.Disjoint (s.nonBasic.map some) := by
    intro slot hb hn
    obtain ⟨v, hv, rfl⟩ := List.mem_map.mp hn
    obtain ⟨i, hi⟩ := List.mem_iff_getElem?.mp hb
    obtain ⟨j, hj⟩ := List.mem_iff_getElem?.mp hv
    obtain ⟨w, hw, -, -, hmark⟩ := h.basic.of_getElem? hi
    cases hw
    rw [(h.nonBasic.of_getElem? hj).2.2] at hmark
    cases hmark
  rw [List.perm_ext_iff_of_nodup (hbasic.append hother hdisjoint)
    (List.nodup_range.map (Option.some_injective _))]
  intro slot
  rw [List.mem_append, List.mem_map, List.mem_map]
  constructor
  · rintro (hb | ⟨v, hv, rfl⟩)
    · obtain ⟨i, hi⟩ := List.mem_iff_getElem?.mp hb
      obtain ⟨v, rfl, hv, -, -⟩ := h.basic.of_getElem? hi
      exact ⟨v, List.mem_range.mpr hv, rfl⟩
    · obtain ⟨j, hj⟩ := List.mem_iff_getElem?.mp hv
      exact ⟨v, List.mem_range.mpr (h.nonBasic.of_getElem? hj).1, rfl⟩
  · rintro ⟨v, hv, rfl⟩
    have hv := List.mem_range.mp hv
    cases hmark : s.isBasic v with
    | true =>
      obtain ⟨i, -, hi⟩ := h.coversBasic v hv hmark
      exact .inl (List.mem_of_getElem? hi)
    | false =>
      obtain ⟨j, -, hj⟩ := h.coversOther v hv hmark
      exact .inr ⟨v, List.mem_of_getElem? hj, rfl⟩

/-- **A split in order passes its own check.** -/
theorem isConsistent (h : s.WellFormed m n) (hmark : s.Marked) : s.isConsistent = true := by
  rw [BasisSplit.isConsistent, Bool.and_eq_true, Bool.and_eq_true]
  refine ⟨⟨?_, ?_⟩, ?_⟩
  · rw [h.size_basicSet hmark, h.basic.length, beq_self_eq_true]
  · rw [List.all_eq_true]
    rintro ⟨slot, i⟩ hmem
    obtain ⟨v, rfl, -, hp, hb⟩ := h.basic.of_getElem? (List.mk_mem_zipIdx_iff_getElem?.mp hmem)
    simp [fits, hp, hb]
  · rw [List.all_eq_true]
    rintro ⟨v, j⟩ hmem
    obtain ⟨-, hp, hb⟩ := h.nonBasic.of_getElem? (List.mk_mem_zipIdx_iff_getElem?.mp hmem)
    simp [fits, hp, hb]

end WellFormed

end BasisSplit

/-! ## §3.  The state -/

namespace State

/-- The dimensions of a state are those of its matrix. -/
structure Shaped (s : State α) : Prop where
  matrix : s.matrix.Shaped s.rowCount s.varCount
  rightHandSide : s.rightHandSide.length = s.rowCount
  bounds : s.bounds.Shaped s.varCount
  rows : s.split.basic.length = s.rowCount
  places : s.split.positions.length = s.varCount
  marked : s.split.Marked
  basicValues : s.basicValues.length = s.rowCount
  nonBasicValues : s.nonBasicValues.length = s.nonBasicCount
  standings : s.standings.length = s.rowCount

/-- The dimensions may be given next to the matrix. -/
theorem Shaped.of_dimensions {s : State α} {m n : Nat} (matrix : s.matrix.Shaped m n)
    (rightHandSide : s.rightHandSide.length = m) (bounds : s.bounds.Shaped n)
    (rows : s.split.basic.length = m) (places : s.split.positions.length = n)
    (marked : s.split.Marked) (basicValues : s.basicValues.length = m)
    (nonBasicValues : s.nonBasicValues.length = n - m) (standings : s.standings.length = m) :
    s.Shaped := by
  obtain rfl : s.rowCount = m := matrix.rowCount
  obtain rfl : s.varCount = n := matrix.columnCount
  exact ⟨matrix, rightHandSide, bounds, rows, places, marked, basicValues,
    nonBasicValues, standings⟩

/-- A new state has its shape. -/
theorem shaped_blank (m n : Nat) : (blank m n : State α).Shaped where
  matrix := SystemMatrix.shaped_zero m n
  rightHandSide := Scalar.length_zeros m
  bounds := Bounds.shaped_free n
  rows := List.length_replicate
  places := List.length_replicate
  marked := BasisSplit.marked_blank m n
  basicValues := Scalar.length_zeros m
  nonBasicValues := Scalar.length_zeros (n - m)
  standings := List.length_replicate

end State

end BoundedSimplex
