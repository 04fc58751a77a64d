/-
  BoundedSimplex.Proofs.Tableau.Landing — where a variable that stops a move ends up.

  The room of a basic variable ends at a bound, and the move is chosen so that the room is used up.
  So the variable is at that bound after the move, unless it was beyond it before, by no more than
  the tolerance.  The five standings and the two directions all lead to the same computation.

  Main results:
    * `classify_cases` — what a standing says about the value;
    * `room_cases`, `ratio_cases` — a room and a ratio are numbers or without limit;
    * `landing_near` — the bound that a leaving variable is put on is where the move took it, up to
      the tolerance.
-/
import BoundedSimplex.Proofs.Bounds
import BoundedSimplex.Tableau.Pivot
import Mathlib.Tactic.Ring

namespace BoundedSimplex.Tableau

open Extended

variable {K : Type} [Field K] [LinearOrder K] [IsStrictOrderedRing K]

/-! ## §1.  Room -/

omit [IsStrictOrderedRing K] in
theorem larger_fin (d : K) : Scalar.larger (fin d : Extended K) 0 = fin (max d 0) := by
  unfold Scalar.larger
  rw [zero_eq]
  by_cases hd : d < 0
  · rw [if_pos ((fin_lt_fin d 0).mpr hd), max_eq_right hd.le]
  · rw [if_neg fun h => hd ((fin_lt_fin d 0).mp h), if_pos (by simp), max_eq_left (not_lt.mp hd)]

omit [IsStrictOrderedRing K] in
theorem larger_top : Scalar.larger (top : Extended K) 0 = top := rfl

omit [IsStrictOrderedRing K] in
/-- What is cut off at zero is a number that is not negative, or without limit. -/
theorem larger_cases (a : Extended K) :
    Scalar.larger a 0 = top ∨ ∃ d, 0 ≤ d ∧ Scalar.larger a 0 = fin d := by
  cases a with
  | fin x => exact .inr ⟨max x 0, le_max_right x 0, larger_fin x⟩
  | top => exact .inl rfl
  | bot | undefined => exact .inr ⟨0, le_rfl, rfl⟩

omit [IsStrictOrderedRing K] in
theorem top_div {c : K} (hc : 0 < c) : (top / fin c : Extended K) = top := by
  show (if c < 0 then bot else top) = _
  rw [if_neg (not_lt.mpr hc.le)]

omit [IsStrictOrderedRing K] in
/-- A way that is not negative is a way. -/
theorem way_of_nonneg {a : Extended K} (h : a = top ∨ ∃ d, 0 ≤ d ∧ a = fin d) :
    a = top ∨ ∃ d, a = fin d :=
  h.imp_right fun ⟨d, _, hd⟩ => ⟨d, hd⟩

/-- A ratio that is a number comes from a room that is one. -/
theorem ratio_fin {d c δ : K} (hc : c ≠ 0)
    (h : (Scalar.larger (fin d) 0 / fin |c| : Extended K) = fin δ) : 0 ≤ δ ∧ |c| * δ = max d 0 := by
  have hpos : 0 < |c| := abs_pos.mpr hc
  rw [larger_fin, fin_div _ hpos.ne'] at h
  injection h with h
  subst h
  exact ⟨div_nonneg (le_max_right d 0) hpos.le, mul_div_cancel₀ _ hpos.ne'⟩

theorem ratio_top {c δ : K} (hc : c ≠ 0)
    (h : (Scalar.larger (top : Extended K) 0 / fin |c| : Extended K) = fin δ) : False := by
  rw [larger_top, top_div (abs_pos.mpr hc)] at h
  cases h

/-- How far the bound is from the end of the move, if the value was beyond it by little. -/
theorem abs_sub_max_le {d τ : K} (h : -|τ| ≤ d) : |d - max d 0| ≤ |τ| := by
  by_cases hd : 0 ≤ d
  · rw [max_eq_left hd, sub_self, abs_zero]
    exact abs_nonneg τ
  · rw [max_eq_right (not_le.mp hd).le, sub_zero, abs_of_neg (not_le.mp hd)]
    linarith

/-! ## §2.  Standings -/

/-- **What a standing says about the value**, for proper bounds. -/
theorem classify_cases {l u : Extended K} {x τ : K} (hl : l < Scalar.infinity)
    (hu : -Scalar.infinity < u) :
    (Standing.classify (fin x) l u (fin τ) = .aboveUpper ∧ ∃ b, u = fin b ∧ τ < x - b)
      ∨ (Standing.classify (fin x) l u (fin τ) = .belowLower ∧ ∃ a, l = fin a ∧ τ < a - x)
      ∨ ((Standing.classify (fin x) l u (fin τ)).isOutOfBounds = false
        ∧ (∀ b, u = fin b → x - b ≤ τ) ∧ ∀ a, l = fin a → a - x ≤ τ) := by
  unfold Standing.classify
  split
  · next habove =>
    left
    obtain rfl | ⟨b, rfl⟩ := neg_infinity_lt_iff.mp hu
    · exact absurd habove Bool.false_ne_true
    · exact ⟨rfl, b, rfl, by simpa using habove⟩
  · next habove =>
    right
    split
    · next hbelow =>
      left
      obtain rfl | ⟨a, rfl⟩ := lt_infinity_iff.mp hl
      · exact absurd hbelow Bool.false_ne_true
      · exact ⟨rfl, a, rfl, by simpa using hbelow⟩
    · next hbelow =>
      right
      refine ⟨?_, fun b hb => ?_, fun a ha => ?_⟩
      · split
        · rfl
        · split <;> rfl
      · subst hb
        simpa using habove
      · subst ha
        simpa using hbelow

omit [IsStrictOrderedRing K] in
/-- The room of a variable within its bounds is the way to the bound ahead. -/
theorem room_of_within {s : Standing} (hs : s.isOutOfBounds = false) (rises : Bool)
    (x l u : Extended K) : room s rises x l u = if rises then u - x else x - l := by
  cases s with
  | belowLower => cases hs
  | aboveUpper => cases hs
  | atLower | between | atUpper => cases rises <;> rfl

omit [Field K] [LinearOrder K] [IsStrictOrderedRing K] in
/-- A variable within its bounds lands on the bound ahead. -/
theorem landing_of_within {s : Standing} (hs : s.isOutOfBounds = false) (rises : Bool)
    (l u : Extended K) : landing s rises l u = if rises then u else l := by
  cases s with
  | belowLower => cases hs
  | aboveUpper => cases hs
  | atLower | between | atUpper => cases rises <;> rfl

/-- A ratio is a number that is not negative, or without limit. -/
theorem ratio_cases {space : Extended K} {c : K} (hc : c ≠ 0)
    (hs : space = top ∨ ∃ d, 0 ≤ d ∧ space = fin d) :
    space / fin |c| = top ∨ ∃ δ, 0 ≤ δ ∧ space / fin |c| = fin δ := by
  have hpos : 0 < |c| := abs_pos.mpr hc
  obtain rfl | ⟨d, hd, rfl⟩ := hs
  · exact .inl (top_div hpos)
  · exact .inr ⟨d / |c|, div_nonneg hd hpos.le, fin_div _ hpos.ne'⟩

/-! ## §3.  Landing -/

/-- A value moved by its room, up or down. -/
def moved (rises : Bool) (x way : K) : K := if rises then x + way else x - way

omit [LinearOrder K] [IsStrictOrderedRing K] in
/-- The way of the entering variable. -/
theorem add_eq_moved (x d : K) (falls : Bool) :
    x + (if falls then -d else d) = moved (!falls) x d := by
  cases falls with
  | true => exact (sub_eq_add_neg x d).symm
  | false => rfl

/-- A move up to a bound ends there, unless it started above the bound by little. -/
theorem near_of_rise {x b τ c δ : K} (hc : c ≠ 0) (hb : -|τ| ≤ b - x)
    (h : (Scalar.larger (fin b - fin x) 0 / fin |c| : Extended K) = fin δ) :
    0 ≤ δ ∧ |b - moved true x (|c| * δ)| ≤ |τ| := by
  rw [fin_sub] at h
  obtain ⟨hδ, he⟩ := ratio_fin hc h
  refine ⟨hδ, ?_⟩
  show |b - (x + |c| * δ)| ≤ |τ|
  rw [he, show b - (x + max (b - x) 0) = b - x - max (b - x) 0 by ring]
  exact abs_sub_max_le hb

/-- A move down to a bound ends there, unless it started below the bound by little. -/
theorem near_of_fall {x a τ c δ : K} (hc : c ≠ 0) (ha : -|τ| ≤ x - a)
    (h : (Scalar.larger (fin x - fin a) 0 / fin |c| : Extended K) = fin δ) :
    0 ≤ δ ∧ |a - moved false x (|c| * δ)| ≤ |τ| := by
  rw [fin_sub] at h
  obtain ⟨hδ, he⟩ := ratio_fin hc h
  refine ⟨hδ, ?_⟩
  show |a - (x - |c| * δ)| ≤ |τ|
  rw [he, show a - (x - max (x - a) 0) = -(x - a - max (x - a) 0) by ring, abs_neg]
  exact abs_sub_max_le ha

/-- **The leaving variable lands where the move takes it**, up to the tolerance. -/
theorem landing_near {l u : Extended K} {x τ c δ : K} (hl : l < Scalar.infinity)
    (hu : -Scalar.infinity < u) (hc : c ≠ 0) {rises : Bool}
    (h : Scalar.larger (room (Standing.classify (fin x) l u (fin τ)) rises (fin x) l u) 0 / fin |c|
      = fin δ) :
    0 ≤ δ ∧ ∃ y, landing (Standing.classify (fin x) l u (fin τ)) rises l u = fin y
      ∧ |y - moved rises x (|c| * δ)| ≤ |τ| := by
  have hτ : -|τ| ≤ τ := neg_abs_le τ
  have hτ' : -|τ| ≤ -τ := neg_le_neg (le_abs_self τ)
  rcases classify_cases (τ := τ) (x := x) hl hu with ⟨hs, b, rfl, hb⟩ | ⟨hs, a, rfl, ha⟩
    | ⟨hs, hb, ha⟩
  · -- above the upper bound, where a rise has no limit
    rw [hs] at h ⊢
    cases rises with
    | true => exact (ratio_top hc h).elim
    | false =>
      obtain ⟨hδ, hn⟩ := near_of_fall hc (by linarith) h
      exact ⟨hδ, b, rfl, hn⟩
  · -- below the lower bound, where a fall has no limit
    rw [hs] at h ⊢
    cases rises with
    | true =>
      obtain ⟨hδ, hn⟩ := near_of_rise hc (by linarith) h
      exact ⟨hδ, a, rfl, hn⟩
    | false => exact (ratio_top hc h).elim
  · -- within the bounds, up to the tolerance
    generalize Standing.classify (fin x) l u (fin τ) = s at h hs ⊢
    rw [room_of_within hs] at h
    rw [landing_of_within hs]
    cases rises with
    | true =>
      rw [if_pos rfl] at h ⊢
      obtain rfl | ⟨b, rfl⟩ := neg_infinity_lt_iff.mp hu
      · exact (ratio_top hc h).elim
      · have hgap : x - b ≤ τ := hb b rfl
        obtain ⟨hδ, hn⟩ := near_of_rise hc (by linarith) h
        exact ⟨hδ, b, rfl, hn⟩
    | false =>
      rw [if_neg Bool.false_ne_true] at h ⊢
      obtain rfl | ⟨a, rfl⟩ := lt_infinity_iff.mp hl
      · exact (ratio_top hc h).elim
      · have hgap : a - x ≤ τ := ha a rfl
        obtain ⟨hδ, hn⟩ := near_of_fall hc (by linarith) h
        exact ⟨hδ, a, rfl, hn⟩

omit [Field K] [LinearOrder K] [IsStrictOrderedRing K] in
/-- A leaving variable is put on one of its bounds. -/
theorem onBound_of_landing {s : Standing} {rises : Bool} {l u : Extended K} {y : K}
    (h : landing s rises l u = fin y) : fin y = l ∨ fin y = u := by
  rw [← h]
  cases rises <;> cases s <;> first | exact .inl rfl | exact .inr rfl

omit [Field K] [LinearOrder K] [IsStrictOrderedRing K] in
/-- The bound ahead of a variable that jumps is one of the two. -/
theorem onBound_of_ahead {falls : Bool} {l u : Extended K} {y : K}
    (h : (if falls then l else u) = fin y) : fin y = l ∨ fin y = u := by
  cases falls with
  | true => exact .inl h.symm
  | false => exact .inr h.symm

/-- The way of a basic variable: it falls by its entry times the move of the entering one. -/
theorem moved_rises {x c δ : K} (hc : c ≠ 0) (falls : Bool) :
    moved (rises (fin c) falls) x (|c| * δ) = x - c * (if falls then -δ else δ) := by
  unfold moved rises
  -- A row rises if its entry and the direction of the entering variable have opposite signs.
  rcases lt_or_gt_of_ne hc with hneg | hpos
  · have hd : decide ((fin c : Extended K) > 0) = false := by
      rw [decide_eq_false_iff_not, zero_eq]
      exact fun h => lt_asymm hneg ((fin_lt_fin 0 c).mp h)
    rw [hd, abs_of_neg hneg]
    cases falls
    · show x + -c * δ = x - c * δ
      ring
    · show x - -c * δ = x - c * -δ
      ring
  · have hd : decide ((fin c : Extended K) > 0) = true := by
      rw [decide_eq_true_iff, zero_eq]
      exact (fin_lt_fin 0 c).mpr hpos
    rw [hd, abs_of_pos hpos]
    cases falls
    · rfl
    · show x + c * δ = x - c * -δ
      ring

end BoundedSimplex.Tableau
