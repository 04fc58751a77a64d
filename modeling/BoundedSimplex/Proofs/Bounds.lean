/-
  BoundedSimplex.Proofs.Bounds — proper bounds, and the record of those that contradict each other.

  A proper lower bound is below some number, a proper upper bound above some number, so each is
  absent or an element of the field.  The record is exact: it holds the variables whose lower bound
  exceeds the upper one, and no other ones.

  Main results:
    * `Within` — a number is within bounds; `within_of_standing` — a standing says so;
    * `WellFormed.setLower`, `WellFormed.setUpper`, `WellFormed.push` — writing bounds;
    * `WellFormed.not_contradictory` — what the empty record says.
-/
import BoundedSimplex.Bounds
import BoundedSimplex.Proofs.Checked
import BoundedSimplex.Proofs.Extended
import BoundedSimplex.Proofs.Listed
import BoundedSimplex.Standing

namespace BoundedSimplex

open Extended

variable {K : Type} [Field K] [LinearOrder K]

/-! ## §1.  Numbers within bounds -/

/-- The number satisfies both bounds. -/
def Within (l u : Extended K) (x : K) : Prop := l ≤ fin x ∧ fin x ≤ u

namespace Extended

/-- A proper lower bound is violated strictly or satisfied. -/
theorem lower_le_iff {l : Extended K} (hl : l < Scalar.infinity) {x : K} :
    l ≤ fin x ↔ ¬(fin x : Extended K) < l := by
  obtain rfl | ⟨a, rfl⟩ := lt_infinity_iff.mp hl
  · exact ⟨fun _ h => Bool.false_ne_true h, fun _ => rfl⟩
  · rw [fin_le_fin, fin_lt_fin, not_lt]

/-- A proper upper bound is violated strictly or satisfied. -/
theorem le_upper_iff {u : Extended K} (hu : -Scalar.infinity < u) {x : K} :
    (fin x : Extended K) ≤ u ↔ ¬u < fin x := by
  obtain rfl | ⟨b, rfl⟩ := neg_infinity_lt_iff.mp hu
  · exact ⟨fun _ h => Bool.false_ne_true h, fun _ => rfl⟩
  · rw [fin_le_fin, fin_lt_fin, not_lt]

/-- A number on one of two proper bounds that do not contradict each other is between them. -/
theorem within_of_eq {l u : Extended K} {x : K} (hl : l < Scalar.infinity)
    (hu : -Scalar.infinity < u) (hx : fin x = l ∨ fin x = u) (h : ¬u < l) : Within l u x := by
  rcases hx with rfl | rfl
  · exact ⟨(fin_le_fin x x).mpr le_rfl, (le_upper_iff hu).mpr h⟩
  · exact ⟨(lower_le_iff hl).mpr h, (fin_le_fin x x).mpr le_rfl⟩

/-- Not being below is transitive through a lower or an upper bound that is proper. -/
theorem not_lt_trans {a b c : Extended K} (hb : b < Scalar.infinity ∨ -Scalar.infinity < b)
    (hab : ¬a < b) (hbc : ¬b < c) : ¬a < c := by
  intro hac
  cases b with
  | fin b =>
    cases a <;> cases c <;>
      first
      | exact Bool.false_ne_true hac
      | exact hab rfl
      | exact hbc rfl
      | exact absurd ((fin_lt_fin _ _).mp hac)
          (not_lt.mpr ((not_lt.mp fun h => hbc ((fin_lt_fin _ _).mpr h)).trans
            (not_lt.mp fun h => hab ((fin_lt_fin _ _).mpr h))))
  | bot => cases c <;> first | exact hbc rfl | (cases a <;> exact Bool.false_ne_true hac)
  | top => cases a <;> first | exact hab rfl | (cases c <;> exact Bool.false_ne_true hac)
  | undefined => rcases hb with hb | hb <;> exact Bool.false_ne_true hb

/-- Two numbers are not below each other. -/
theorem not_lt_of_lt {a b : Extended K} (h : a < b) : ¬b < a := by
  intro h'
  cases a with
  | fin a =>
    cases b with
    | fin b => exact lt_asymm ((fin_lt_fin a b).mp h) ((fin_lt_fin b a).mp h')
    | top => exact Bool.false_ne_true h'
    | bot | undefined => exact Bool.false_ne_true h
  | bot => cases b <;> exact Bool.false_ne_true h'
  | top | undefined => cases b <;> exact Bool.false_ne_true h

/-- The larger one of two proper lower bounds implies the other one. -/
theorem lower_le_of_lt {l l' : Extended K} (h : l < l') {y : K} (hy : l' ≤ fin y) : l ≤ fin y := by
  cases l' with
  | fin b =>
    cases l with
    | fin a =>
      exact (fin_le_fin a y).mpr (((fin_lt_fin a b).mp h).le.trans ((fin_le_fin b y).mp hy))
    | bot => rfl
    | top => exact absurd h Bool.false_ne_true
    | undefined => exact absurd h Bool.false_ne_true
  | bot => cases l <;> exact absurd h Bool.false_ne_true
  | top => exact absurd hy Bool.false_ne_true
  | undefined => exact absurd hy Bool.false_ne_true

/-- A number within the lesser of two upper bounds is within the greater. -/
theorem le_upper_of_lt {u u' : Extended K} (h : u' < u) {y : K} (hy : (fin y : Extended K) ≤ u') :
    (fin y : Extended K) ≤ u := by
  cases u' with
  | fin b =>
    cases u with
    | fin a =>
      exact (fin_le_fin y a).mpr (((fin_le_fin y b).mp hy).trans ((fin_lt_fin b a).mp h).le)
    | top => rfl
    | bot => exact absurd h Bool.false_ne_true
    | undefined => exact absurd h Bool.false_ne_true
  | top => cases u <;> exact absurd h Bool.false_ne_true
  | bot => exact absurd hy Bool.false_ne_true
  | undefined => exact absurd hy Bool.false_ne_true

/-- Of two proper bounds one implies the other. -/
theorem lower_le_of_not_lt {l l' : Extended K} (hl : l < Scalar.infinity)
    (hl' : l' < Scalar.infinity) (h : ¬l < l') {y : K} (hy : l ≤ fin y) : l' ≤ fin y := by
  obtain rfl | ⟨b, rfl⟩ := lt_infinity_iff.mp hl'
  · rfl
  · obtain rfl | ⟨a, rfl⟩ := lt_infinity_iff.mp hl
    · exact absurd rfl h
    · rw [fin_lt_fin, not_lt] at h
      exact (fin_le_fin b y).mpr (h.trans ((fin_le_fin a y).mp hy))

/-- A number within an upper bound is within any that is not less. -/
theorem le_upper_of_not_lt {u u' : Extended K} (hu : -Scalar.infinity < u)
    (hu' : -Scalar.infinity < u') (h : ¬u' < u) {y : K} (hy : (fin y : Extended K) ≤ u) :
    (fin y : Extended K) ≤ u' := by
  obtain rfl | ⟨b, rfl⟩ := neg_infinity_lt_iff.mp hu'
  · rfl
  · obtain rfl | ⟨a, rfl⟩ := neg_infinity_lt_iff.mp hu
    · exact absurd rfl h
    · rw [fin_lt_fin, not_lt] at h
      exact (fin_le_fin y b).mpr (((fin_le_fin y a).mp hy).trans h)

end Extended

/-! ## §2.  Standings without tolerance -/

section Standing

variable {l u : Extended K} {x : K}

/-- A value that is not recorded as violating a bound is within the bounds. -/
theorem within_of_standing [IsStrictOrderedRing K] (hl : l < Scalar.infinity)
    (hu : -Scalar.infinity < u)
    (h : (Standing.classify (fin x) l u (fin 0)).isOutOfBounds = false) :
    Within l u x := by
  unfold Standing.classify at h
  split at h
  · cases h
  split at h
  · cases h
  next habove hbelow =>
    constructor
    · obtain rfl | ⟨a, rfl⟩ := lt_infinity_iff.mp hl
      · rfl
      · have : ¬(0 : K) < a - x := by simpa using hbelow
        rw [fin_le_fin]
        linarith
    · obtain rfl | ⟨b, rfl⟩ := neg_infinity_lt_iff.mp hu
      · rfl
      · have : ¬(0 : K) < x - b := by simpa using habove
        rw [fin_le_fin]
        linarith

/-- The slope of the violation of a value, and in which direction the bounds are. -/
theorem cost_classify [IsStrictOrderedRing K] (hl : l < Scalar.infinity)
    (hu : -Scalar.infinity < u) :
    ∃ c : K, (Standing.classify (fin x) l u (fin 0)).cost = (fin c : Extended K)
      ∧ (∀ y, Within l u y → c * (y - x) ≤ 0)
      ∧ ((Standing.classify (fin x) l u (fin 0)).isOutOfBounds = true →
          ∀ y, Within l u y → c * (y - x) < 0) := by
  unfold Standing.classify
  split
  · -- above the upper bound
    next habove =>
    obtain rfl | ⟨b, rfl⟩ := neg_infinity_lt_iff.mp hu
    · exact absurd habove Bool.false_ne_true
    · have hb : (0 : K) < x - b := by simpa using habove
      have hy (y : K) (h : Within l (fin b) y) : 1 * (y - x) < 0 := by
        have := (fin_le_fin y b).mp h.2
        linarith
      exact ⟨1, rfl, fun y h => (hy y h).le, fun _ => hy⟩
  split
  · -- below the lower bound
    next hbelow =>
    obtain rfl | ⟨a, rfl⟩ := lt_infinity_iff.mp hl
    · exact absurd hbelow Bool.false_ne_true
    · have ha : (0 : K) < a - x := by simpa using hbelow
      have hy (y : K) (h : Within (fin a) u y) : -1 * (y - x) < 0 := by
        have := (fin_le_fin a y).mp h.1
        linarith
      exact ⟨-1, rfl, fun y h => (hy y h).le, fun _ => hy⟩
  split
  · exact ⟨0, rfl, fun y _ => by rw [zero_mul], fun h => nomatch h⟩
  split
  · exact ⟨0, rfl, fun y _ => by rw [zero_mul], fun h => nomatch h⟩
  · exact ⟨0, rfl, fun y _ => by rw [zero_mul], fun h => nomatch h⟩

end Standing

namespace Bounds

/-! ## §3.  Being in order -/

/-- The lower bound of a variable. -/
def lowerOf (b : Bounds (Extended K)) (v : Nat) : Extended K := b.lowers.getD v 0

/-- The upper bound of a variable. -/
def upperOf (b : Bounds (Extended K)) (v : Nat) : Extended K := b.uppers.getD v 0

/-- Proper bounds for `n` variables, and an exact record of the contradictory ones. -/
structure WellFormed (n : Nat) (b : Bounds (Extended K)) : Prop where
  lowers : Listed n (fun _ x => x < (Scalar.infinity : Extended K)) b.lowers
  uppers : Listed n (fun _ x => -(Scalar.infinity : Extended K) < x) b.uppers
  exact : ∀ v < n, b.contradictory.contains v = decide (b.lowerOf v > b.upperOf v)

namespace WellFormed

variable {n : Nat} {b : Bounds (Extended K)}

/-- The lower bound of a variable, and that it can be met. -/
theorem lower_at (h : b.WellFormed n) {v : Nat} (hv : v < n) :
    b.lowers[v]? = some (b.lowerOf v) ∧ b.lowerOf v < Scalar.infinity := by
  obtain ⟨x, hx, hp⟩ := h.lowers.each v hv
  have : b.lowerOf v = x := by rw [lowerOf, List.getD_eq_getElem?_getD, hx, Option.getD_some]
  rw [this]
  exact ⟨hx, hp⟩

/-- The upper bound of a variable, and that it can be met. -/
theorem upper_at (h : b.WellFormed n) {v : Nat} (hv : v < n) :
    b.uppers[v]? = some (b.upperOf v) ∧ -Scalar.infinity < b.upperOf v := by
  obtain ⟨x, hx, hp⟩ := h.uppers.each v hv
  have : b.upperOf v = x := by rw [upperOf, List.getD_eq_getElem?_getD, hx, Option.getD_some]
  rw [this]
  exact ⟨hx, hp⟩

/-- Reading a lower bound. -/
theorem lower_eq (h : b.WellFormed n) {v : Nat} (hv : v < n) : b.lower v = .ok (b.lowerOf v) :=
  Checked.getAt_eq_ok.mpr (h.lower_at hv).1

/-- Reading an upper bound. -/
theorem upper_eq (h : b.WellFormed n) {v : Nat} (hv : v < n) : b.upper v = .ok (b.upperOf v) :=
  Checked.getAt_eq_ok.mpr (h.upper_at hv).1

/-- Some number is above every lower bound. -/
theorem lowerOf_lt (h : b.WellFormed n) {v : Nat} (hv : v < n) : b.lowerOf v < Scalar.infinity :=
  (h.lower_at hv).2

/-- Some number is below every upper bound. -/
theorem lt_upperOf (h : b.WellFormed n) {v : Nat} (hv : v < n) : -Scalar.infinity < b.upperOf v :=
  (h.upper_at hv).2

/-- An empty record says that the bounds of every variable allow for some number. -/
theorem not_contradictory (h : b.WellFormed n) (hb : b.allValid = true) {v : Nat} (hv : v < n) :
    ¬b.upperOf v < b.lowerOf v := by
  have hempty : b.contradictory.toList = [] := List.isEmpty_iff.mp hb
  have hc : b.contradictory.contains v = false := by simp [IndexSet.contains, hempty]
  rw [h.exact v hv] at hc
  simpa using hc

/-- Free variables are in order. -/
theorem free (n : Nat) : (Bounds.free n : Bounds (Extended K)).WellFormed n := by
  refine ⟨.replicate n fun _ _ => rfl, .replicate n fun _ _ => rfl, fun v hv => ?_⟩
  have hl : (Bounds.free n : Bounds (Extended K)).lowerOf v = bot := by
    simp [lowerOf, Bounds.free, List.getD, hv]
  have hu : (Bounds.free n : Bounds (Extended K)).upperOf v = top := by
    simp [upperOf, Bounds.free, List.getD, hv]
  rw [hl, hu]
  rfl

/-! ## §4.  Writing -/

/-- Whether bounds contradict each other is recorded anew for one variable. -/
theorem check_eq {α : Type} [Scalar α] {c : Bounds α} {v : Nat} {l u : α}
    (hl : c.lowers[v]? = some l) (hu : c.uppers[v]? = some u) :
    c.check v = .ok (!decide (l > u), c.mark v (decide (l > u))) := by
  unfold check lower upper
  rw [Checked.getAt_eq_ok.mpr hl, Checked.getAt_eq_ok.mpr hu]
  rfl

/-- A mark concerns its own variable. -/
theorem contains_mark {α : Type} (c : Bounds α) (v : Nat) (flag : Bool) (w : Nat) :
    (c.mark v flag).contradictory.contains w
      = if w = v then flag else c.contradictory.contains w := by
  unfold mark
  cases flag with
  | true =>
    rw [if_pos rfl, IndexSet.contains_insert]
    by_cases hw : w = v
    · rw [if_pos hw, beq_iff_eq.mpr hw, Bool.true_or]
    · rw [if_neg hw, beq_eq_false_iff_ne.mpr hw, Bool.false_or]
  | false =>
    rw [if_neg Bool.false_ne_true, IndexSet.contains_erase]
    by_cases hw : w = v
    · rw [if_pos hw, bne_eq_false_iff_eq.mpr hw, Bool.false_and]
    · rw [if_neg hw, bne_iff_ne.mpr hw, Bool.true_and]

/-- **Replacing a lower bound.** -/
theorem setLower (h : b.WellFormed n) {v : Nat} {x : Extended K} {c : Bounds (Extended K)}
    (hx : x < Scalar.infinity) (hc : b.setLower v x = .ok c) :
    v < n ∧ c.WellFormed n ∧ (∀ w, c.lowerOf w = if w = v then x else b.lowerOf w)
      ∧ ∀ w, c.upperOf w = b.upperOf w := by
  obtain ⟨lowers, hset, hc⟩ := Checked.bind_eq_ok.mp hc
  obtain ⟨hv, rfl⟩ := Checked.setAt_eq_ok.mp hset
  obtain ⟨r, hr, hc⟩ := Checked.bind_eq_ok.mp hc
  have hvn : v < n := h.lowers.length ▸ hv
  have hlow (w : Nat) : (b.lowers.set v x).getD w 0 = if w = v then x else b.lowers.getD w 0 :=
    getD_set hv x w 0
  rw [check_eq (c := { b with lowers := b.lowers.set v x }) (l := x) (by simp [hv])
    (h.upper_at hvn).1] at hr
  cases hr
  cases hc
  refine ⟨hvn, ⟨h.lowers.set v hx, h.uppers, fun w hw => ?_⟩, hlow, fun w => rfl⟩
  -- the record of contradictory bounds is renewed for `v`, and right as it was for the others
  rw [contains_mark]
  show _ = decide ((b.lowers.set v x).getD w 0 > b.upperOf w)
  rw [hlow w]
  by_cases hwv : w = v
  · rw [if_pos hwv, if_pos hwv, hwv]
  · rw [if_neg hwv, if_neg hwv]
    exact h.exact w hw

/-- **Replacing an upper bound.** -/
theorem setUpper (h : b.WellFormed n) {v : Nat} {x : Extended K} {c : Bounds (Extended K)}
    (hx : -Scalar.infinity < x) (hc : b.setUpper v x = .ok c) :
    v < n ∧ c.WellFormed n ∧ (∀ w, c.lowerOf w = b.lowerOf w)
      ∧ ∀ w, c.upperOf w = if w = v then x else b.upperOf w := by
  obtain ⟨uppers, hset, hc⟩ := Checked.bind_eq_ok.mp hc
  obtain ⟨hv, rfl⟩ := Checked.setAt_eq_ok.mp hset
  obtain ⟨r, hr, hc⟩ := Checked.bind_eq_ok.mp hc
  have hvn : v < n := h.uppers.length ▸ hv
  have hupp (w : Nat) : (b.uppers.set v x).getD w 0 = if w = v then x else b.uppers.getD w 0 :=
    getD_set hv x w 0
  rw [check_eq (c := { b with uppers := b.uppers.set v x }) (u := x) (h.lower_at hvn).1
    (by simp [hv])] at hr
  cases hr
  cases hc
  refine ⟨hvn, ⟨h.lowers, h.uppers.set v hx, fun w hw => ?_⟩, fun w => rfl, hupp⟩
  rw [contains_mark]
  show _ = decide (b.lowerOf w > (b.uppers.set v x).getD w 0)
  rw [hupp w]
  by_cases hwv : w = v
  · rw [if_pos hwv, if_pos hwv, hwv]
  · rw [if_neg hwv, if_neg hwv]
    exact h.exact w hw

/-- **One more variable.** -/
theorem push (h : b.WellFormed n) {l u : Extended K} {c : Bounds (Extended K)}
    (hl : l < Scalar.infinity) (hu : -Scalar.infinity < u) (hc : b.push l u = .ok c) :
    c.WellFormed (n + 1) ∧ (∀ v < n, c.lowerOf v = b.lowerOf v ∧ c.upperOf v = b.upperOf v)
      ∧ c.lowerOf n = l ∧ c.upperOf n = u := by
  obtain ⟨r, hr, hc⟩ := Checked.bind_eq_ok.mp hc
  have hlast (xs : List (Extended K)) (x : Extended K) (hn : xs.length = n) :
      (xs ++ [x])[n]? = some x := by rw [← hn]; simp
  rw [h.lowers.length, check_eq (l := l) (u := u) (hlast _ _ h.lowers.length)
    (hlast _ _ h.uppers.length)] at hr
  cases hr
  cases hc
  have hold (xs : List (Extended K)) (x : Extended K) (hn : xs.length = n) (v : Nat) (hv : v < n) :
      (xs ++ [x]).getD v 0 = xs.getD v 0 := by
    rw [List.getD_eq_getElem?_getD, List.getElem?_append_left (hn ▸ hv),
      ← List.getD_eq_getElem?_getD]
  have hnew (xs : List (Extended K)) (x : Extended K) (hn : xs.length = n) :
      (xs ++ [x]).getD n 0 = x := by
    rw [List.getD_eq_getElem?_getD, hlast xs x hn, Option.getD_some]
  have hlow (v : Nat) (hv : v < n) := hold b.lowers l h.lowers.length v hv
  have hupp (v : Nat) (hv : v < n) := hold b.uppers u h.uppers.length v hv
  refine ⟨⟨h.lowers.concat hl, h.uppers.concat hu, fun v hv => ?_⟩,
    fun v hv => ⟨hlow v hv, hupp v hv⟩, hnew _ _ h.lowers.length, hnew _ _ h.uppers.length⟩
  -- the record says nothing yet about the new variable
  rw [contains_mark]
  show _ = decide ((b.lowers ++ [l]).getD v 0 > (b.uppers ++ [u]).getD v 0)
  by_cases hvn : v = n
  · rw [if_pos hvn, hvn, hnew _ _ h.lowers.length, hnew _ _ h.uppers.length]
  · have hlt : v < n := by omega
    rw [if_neg hvn, hlow v hlt, hupp v hlt]
    exact h.exact v hlt

end WellFormed

end Bounds

end BoundedSimplex
