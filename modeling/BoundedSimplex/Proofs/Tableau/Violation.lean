/-
  BoundedSimplex.Proofs.Tableau.Violation — by how much values violate their bounds.

  Without a tolerance the violation of a value is a function of the value and its bounds, and
  piecewise linear: the standing says which piece, and its cost is the slope.  A move that
  keeps to the room of a value does not leave the piece, so the violation changes by the
  slope times the move.

  Main results:
    * `within_moved`, `excess_moved` — a move within the room, from within the
      bounds and from outside;
    * `room_of_descent` — a move that lowers the violation has a room that is a number;
    * `Steady.infeasibility_eq` — the sum that is reported is the sum of the violations.
-/
import BoundedSimplex.Proofs.Tableau.Landing
import BoundedSimplex.Proofs.Tableau.Sound

namespace BoundedSimplex

open Extended

variable {K : Type} [Field K] [LinearOrder K]

/-! ## §1.  One value -/

namespace Standing

/-- Slope of the violation as an element of the field. -/
def slope (s : Standing) : K := (s.cost : Extended K).val

theorem cost_eq (s : Standing) : (s.cost : Extended K) = fin s.slope := by
  cases s <;> rfl

theorem slope_of_within {s : Standing} (h : s.isOutOfBounds = false) : (s.slope : K) = 0 := by
  cases s with
  | belowLower | aboveUpper => cases h
  | atLower | between | atUpper => rfl

theorem slope_aboveUpper : (aboveUpper.slope : K) = 1 := rfl

theorem slope_belowLower : (belowLower.slope : K) = -1 := rfl

end Standing

/-- By how much a number violates the bound that its standing says it violates. -/
def excess (l u : Extended K) (x : K) : K :=
  match Standing.classify (fin x) l u (fin 0) with
  | .belowLower => l.val - x
  | .aboveUpper => x - u.val
  | .atLower | .between | .atUpper => 0

section Pieces

variable [IsStrictOrderedRing K] {l u : Extended K} {x : K}

/-- A number within the bounds violates none. -/
theorem excess_of_within (h : Within l u x) : excess l u x = 0 := by
  have habove : ¬(fin x : Extended K) - u > fin 0 := by
    intro hgt
    cases u with
    | fin b =>
      have hle := (fin_le_fin x b).mp h.2
      rw [fin_sub] at hgt
      have := (fin_lt_fin 0 (x - b)).mp hgt
      linarith
    | top | bot | undefined => exact Bool.false_ne_true (by first | exact hgt | exact h.2)
  have hbelow : ¬l - (fin x : Extended K) > fin 0 := by
    intro hgt
    cases l with
    | fin a =>
      have hle := (fin_le_fin a x).mp h.1
      rw [fin_sub] at hgt
      have := (fin_lt_fin 0 (a - x)).mp hgt
      linarith
    | top | bot | undefined => exact Bool.false_ne_true (by first | exact hgt | exact h.1)
  have hin : (Standing.classify (fin x) l u (fin 0)).isOutOfBounds = false := by
    unfold Standing.classify
    rw [if_neg habove, if_neg hbelow]
    split
    · rfl
    · split <;> rfl
  unfold excess
  generalize Standing.classify (fin x) l u (fin 0) = s at hin ⊢
  cases s with
  | belowLower | aboveUpper => cases hin
  | atLower | between | atUpper => rfl

/-- From the upper bound on, the violation is the distance to it. -/
theorem excess_of_upper_le {b : K} (hl : l < Scalar.infinity) (hlu : ¬(fin b : Extended K) < l)
    (h : b ≤ x) : excess l (fin b) x = x - b := by
  rcases h.eq_or_lt with rfl | hlt
  · rw [sub_self]
    exact excess_of_within ⟨(lower_le_iff hl).mpr hlu, (fin_le_fin b b).mpr le_rfl⟩
  · have habove : (fin x : Extended K) - fin b > fin 0 := by
      rw [fin_sub]
      exact (fin_lt_fin 0 (x - b)).mpr (sub_pos.mpr hlt)
    unfold excess Standing.classify
    rw [if_pos habove]
    rfl

/-- Up to the lower bound, the violation is the distance to it. -/
theorem excess_of_le_lower {a : K} (hu : -Scalar.infinity < u) (hlu : ¬u < (fin a : Extended K))
    (h : x ≤ a) : excess (fin a) u x = a - x := by
  have habove : ¬(fin x : Extended K) - u > fin 0 := by
    obtain rfl | ⟨b, rfl⟩ := neg_infinity_lt_iff.mp hu
    · exact Bool.false_ne_true
    · have hab : ¬b < a := fun hlt => hlu ((fin_lt_fin b a).mpr hlt)
      rw [fin_sub]
      intro hgt
      have := (fin_lt_fin 0 (x - b)).mp hgt
      linarith
  rcases h.eq_or_lt with rfl | hlt
  · rw [sub_self]
    exact excess_of_within ⟨(fin_le_fin x x).mpr le_rfl, (le_upper_iff hu).mpr hlu⟩
  · have hbelow : (fin a : Extended K) - fin x > fin 0 := by
      rw [fin_sub]
      exact (fin_lt_fin 0 (a - x)).mpr (sub_pos.mpr hlt)
    unfold excess Standing.classify
    rw [if_neg habove, if_pos hbelow]
    rfl

end Pieces

namespace Tableau

section Moves

variable [IsStrictOrderedRing K] {l u : Extended K} {x : K}

omit [IsStrictOrderedRing K] in
/-- The room of a value, as a limit for a way that is not negative. -/
theorem way_le_of_room {way d : K} (hway : 0 ≤ way)
    (h : (fin way : Extended K) ≤ Scalar.larger (fin d) 0) : way ≤ d ∨ way = 0 := by
  rw [larger_fin, fin_le_fin] at h
  rcases le_total 0 d with hd | hd
  · exact .inl (h.trans_eq (max_eq_left hd))
  · exact .inr (le_antisymm (h.trans_eq (max_eq_right hd)) hway)

/-- A value within its bounds stays there if it moves within the room. -/
theorem within_moved (hx : Within l u x) (hl : l < Scalar.infinity) (hu : -Scalar.infinity < u)
    {rises : Bool} {way : K} (hway : 0 ≤ way)
    (h : (fin way : Extended K)
      ≤ Scalar.larger (if rises = true then u - fin x else fin x - l) 0) :
    Within l u (moved rises x way) := by
  cases rises with
  | true =>
    rw [if_pos rfl] at h
    constructor
    · obtain rfl | ⟨a, rfl⟩ := lt_infinity_iff.mp hl
      · rfl
      · have := (fin_le_fin a x).mp hx.1
        exact (fin_le_fin a (x + way)).mpr (by linarith)
    · obtain rfl | ⟨b, rfl⟩ := neg_infinity_lt_iff.mp hu
      · rfl
      · have := (fin_le_fin x b).mp hx.2
        rw [fin_sub] at h
        refine (fin_le_fin (x + way) b).mpr ?_
        rcases way_le_of_room hway h with h | h <;> linarith
  | false =>
    rw [if_neg Bool.false_ne_true] at h
    constructor
    · obtain rfl | ⟨a, rfl⟩ := lt_infinity_iff.mp hl
      · rfl
      · have := (fin_le_fin a x).mp hx.1
        rw [fin_sub] at h
        refine (fin_le_fin a (x - way)).mpr ?_
        rcases way_le_of_room hway h with h | h <;> linarith
    · obtain rfl | ⟨b, rfl⟩ := neg_infinity_lt_iff.mp hu
      · rfl
      · have := (fin_le_fin x b).mp hx.2
        exact (fin_le_fin (x - way) b).mpr (by linarith)

/-- **The violation after a move within the room** has changed by the slope times the move. -/
theorem excess_moved (hl : l < Scalar.infinity) (hu : -Scalar.infinity < u) (hlu : ¬u < l)
    {rises : Bool} {way : K} (hway : 0 ≤ way)
    (h : (fin way : Extended K)
      ≤ Scalar.larger (room (Standing.classify (fin x) l u (fin 0)) rises (fin x) l u) 0) :
    excess l u (moved rises x way) = excess l u x
      + (Standing.classify (fin x) l u (fin 0)).slope * (moved rises x way - x) := by
  rcases classify_cases (τ := 0) (x := x) hl hu with ⟨hs, b, rfl, hb⟩ | ⟨hs, a, rfl, ha⟩
    | ⟨hs, hb, ha⟩
  · -- above the upper bound, and not below it after the move
    rw [hs] at h ⊢
    have hend : b ≤ moved rises x way := by
      cases rises with
      | true =>
        show b ≤ x + way
        linarith
      | false =>
        have h : (fin way : Extended K) ≤ Scalar.larger (fin x - fin b) 0 := h
        rw [fin_sub] at h
        show b ≤ x - way
        rcases way_le_of_room hway h with h | h <;> linarith
    rw [excess_of_upper_le hl hlu hend, excess_of_upper_le hl hlu (by linarith),
      Standing.slope_aboveUpper]
    ring
  · -- below the lower bound, and not above it after the move
    rw [hs] at h ⊢
    have hend : moved rises x way ≤ a := by
      cases rises with
      | false =>
        show x - way ≤ a
        linarith
      | true =>
        have h : (fin way : Extended K) ≤ Scalar.larger (fin a - fin x) 0 := h
        rw [fin_sub] at h
        show x + way ≤ a
        rcases way_le_of_room hway h with h | h <;> linarith
    rw [excess_of_le_lower hu hlu hend, excess_of_le_lower hu hlu (by linarith),
      Standing.slope_belowLower]
    ring
  · -- within the bounds before and after the move
    have hstart : Within l u x := within_of_standing hl hu hs
    rw [Standing.slope_of_within hs, zero_mul, add_zero, excess_of_within hstart]
    rw [room_of_within hs] at h
    exact excess_of_within (within_moved hstart hl hu hway h)

/-- **A move that lowers the violation** has a room that is a number, for it heads for the violated
    bound. -/
theorem room_of_descent (hl : l < Scalar.infinity) (hu : -Scalar.infinity < u)
    {rises : Bool} {way : K} (hway : 0 < way)
    (h : (Standing.classify (fin x) l u (fin 0)).slope * (moved rises x way - x) < 0) :
    ∃ d, room (Standing.classify (fin x) l u (fin 0)) rises (fin x) l u = fin d := by
  rcases classify_cases (τ := 0) (x := x) hl hu with ⟨hs, b, rfl, -⟩ | ⟨hs, a, rfl, -⟩ | ⟨hs, -, -⟩
  · rw [hs] at h ⊢
    cases rises with
    | true =>
      have h : (1 : K) * (x + way - x) < 0 := h
      linarith
    | false => exact ⟨x - b, fin_sub x b⟩
  · rw [hs] at h ⊢
    cases rises with
    | true => exact ⟨a - x, fin_sub a x⟩
    | false =>
      have h : (-1 : K) * (x - way - x) < 0 := h
      linarith
  · rw [Standing.slope_of_within hs, zero_mul] at h
    exact absurd h (lt_irrefl 0)

end Moves

end Tableau

/-! ## §2.  All basic variables -/

/-- The violation of a row is what its standing without a tolerance says. -/
theorem State.WellFormed.violation_eq [IsStrictOrderedRing K] {s : State (Extended K)}
    (hs : s.WellFormed) {k : Nat} (hk : k < s.rowCount) :
    s.violation (s.standing (fin 0) k) (some (s.split.basicVar k)) (fin (coord s.basicValues k))
      = .ok (fin (excess (s.bounds.lowerOf (s.split.basicVar k))
          (s.bounds.upperOf (s.split.basicVar k))
        (coord s.basicValues k))) := by
  have hv := hs.split.basicVar_lt hk
  have hlower := hs.bounds.lower_eq hv
  have hupper := hs.bounds.upper_eq hv
  unfold excess State.violation State.standing
  rcases Tableau.classify_cases (τ := 0) (x := coord s.basicValues k) (hs.bounds.lowerOf_lt hv)
    (hs.bounds.lt_upperOf hv) with ⟨hst, b, hb, -⟩ | ⟨hst, a, ha, -⟩ | ⟨hst, -, -⟩
  · rw [hst]
    show (s.bounds.upper (s.split.basicVar k) >>= fun u => Except.ok (_ - u)) = _
    rw [hupper, hb]
    exact congrArg Except.ok (fin_sub _ b)
  · rw [hst]
    show (s.bounds.lower (s.split.basicVar k) >>= fun l => Except.ok (l - _)) = _
    rw [hlower, ha]
    exact congrArg Except.ok (fin_sub a _)
  · generalize Standing.classify (fin (coord s.basicValues k))
      (s.bounds.lowerOf (s.split.basicVar k))
      (s.bounds.upperOf (s.split.basicVar k)) (fin 0) = standing at hst ⊢
    cases standing with
    | belowLower | aboveUpper => cases hst
    | atLower | between | atUpper => rfl

namespace Tableau

variable {t : Tableau (Extended K)}

/-- By how much the basic variable of a row violates its bounds. -/
def excessAt (t : Tableau (Extended K)) (k : Nat) : K :=
  excess (t.bounds.lowerOf (t.split.basicVar k)) (t.bounds.upperOf (t.split.basicVar k))
    (coord t.basicValues k)

/-- **The sum of the violations** is what is reported, without a tolerance. -/
theorem Steady.infeasibility_eq [IsStrictOrderedRing K] (ht : t.Steady)
    (hτ : t.settings.boundTolerance = fin 0) :
    t.infeasibility = .ok (fin (∑ k ∈ Finset.range t.rowCount, t.excessAt k)) := by
  have hzip : (t.standings.zip t.split.basic).zip t.basicValues
      = (List.range t.rowCount).map fun k =>
          ((t.toState.standing (fin 0) k, some (t.split.basicVar k)),
            fin (coord t.basicValues k)) := by
    refine eq_map_range_of_getElem? ?_ fun k hk => ?_
    · rw [List.length_zip, List.length_zip, ht.standings, List.length_map, List.length_range,
        ht.state.split.basic_eq, List.length_map, List.length_range, ht.state.basic.length]
      simp
    · rw [List.getElem?_zip_eq_some, List.getElem?_zip_eq_some]
      refine ⟨⟨?_, ?_⟩, ht.state.basic.getElem? hk⟩
      · rw [ht.standings, hτ, List.getElem?_map, List.getElem?_range hk]
        rfl
      · rw [ht.state.split.basic_eq, List.getElem?_map, List.getElem?_range hk]
        rfl
  unfold State.infeasibility
  rw [hzip, List.mapM_map]
  refine Checked.bind_eq_ok.mpr ⟨_, Checked.mapM_eq_ok (g := fun k => fin (t.excessAt k))
    fun k hk => ht.state.violation_eq (List.mem_range.mp hk), ?_⟩
  show Except.ok (Scalar.sum _) = _
  rw [(Numbers.map_range t.rowCount t.excessAt).sum_eq]
  congr 2
  exact Finset.sum_congr rfl fun k hk => coord_map_range (Finset.mem_range.mp hk) _

end Tableau

end BoundedSimplex
