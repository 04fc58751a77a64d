/-
  BoundedSimplex.Proofs.Home — variables that are not basic keep to their bounds, on each side.

  A lower and an upper bound are treated alike: a bound has a side, a number meets it or not, and it
  is tightened towards the other side.  A variable that is not basic is at home on a side if it
  meets its bound there.  It stays at home whatever happens: a pivot moves it onto one of its bounds
  or makes it basic, a tighter bound moves it along, and a merge tightens bounds.  Bounds that
  contradict each other are excepted, for no number meets both.

  Variables that were merged away are left out.  They are read through others, and their own values
  are no longer kept up.

  Main results:
    * `Steady.tighten` — what tightening a bound on either side does;
    * `Home.tighten`, `Home.pivot`, `Home.merge` — each step keeps variables at home;
    * `met_of_home` — where no basic variable violates a bound, all variables meet theirs.
-/
import BoundedSimplex.Proofs.Merges
import BoundedSimplex.Proofs.Tableau.Merging
import BoundedSimplex.Proofs.Tableau.Selection

namespace BoundedSimplex

open Extended Tableau

variable {K : Type} [Field K] [LinearOrder K]

/-! ## §1.  Sides -/

/-- The two sides of an interval. -/
inductive Side where
  | lower
  | upper
deriving DecidableEq, Repr

namespace Side

variable {side : Side} {b : Bounds (Extended K)} {x x' : Extended K} {y : K}

/-- The bound of a variable. -/
def bound (side : Side) (b : Bounds (Extended K)) (v : Nat) : Extended K :=
  match side with
  | lower => b.lowerOf v
  | upper => b.upperOf v

/-- A number meets a bound. -/
def Met (side : Side) (x : Extended K) (y : K) : Prop :=
  match side with
  | lower => x ≤ fin y
  | upper => (fin y : Extended K) ≤ x

/-- Some number meets the bound. -/
def Proper (side : Side) (x : Extended K) : Prop :=
  match side with
  | lower => x < Scalar.infinity
  | upper => -Scalar.infinity < x

/-- The bound `x` is not looser than `x'`. -/
def Stricter (side : Side) (x x' : Extended K) : Prop :=
  match side with
  | lower => ¬x < x'
  | upper => ¬x' < x

instance (side : Side) (x : Extended K) (y : K) : Decidable (side.Met x y) :=
  match side with
  | lower => inferInstanceAs (Decidable (x ≤ fin y))
  | upper => inferInstanceAs (Decidable ((fin y : Extended K) ≤ x))

instance (side : Side) (x x' : Extended K) : Decidable (side.Stricter x x') :=
  match side with
  | lower => inferInstanceAs (Decidable ¬x < x')
  | upper => inferInstanceAs (Decidable ¬x' < x)

/-- Replaces a bound by a tighter one, which takes effect at once. -/
def tighten (side : Side) (t : Tableau (Extended K)) (v : Nat) (x : Extended K) :
    Checked (Tableau (Extended K)) :=
  match side with
  | lower => t.tightenLower v x
  | upper => t.tightenUpper v x

/-- Every number can be a bound of either side. -/
theorem proper_fin (side : Side) (y : K) : side.Proper (fin y) := by
  cases side with
  | lower => exact lt_infinity_iff.mpr (.inr ⟨y, rfl⟩)
  | upper => exact neg_infinity_lt_iff.mpr (.inr ⟨y, rfl⟩)

/-- The recorded bounds are proper ones for their sides. -/
theorem proper_bound {n : Nat} (hb : b.WellFormed n) {v : Nat} (hv : v < n) :
    side.Proper (side.bound b v) := by
  cases side with
  | lower => exact hb.lowerOf_lt hv
  | upper => exact hb.lt_upperOf hv

/-- A stricter bound implies a looser one. -/
theorem Met.of_stricter (hx : side.Proper x) (hx' : side.Proper x') (h : side.Stricter x x')
    (hy : side.Met x y) : side.Met x' y := by
  cases side with
  | lower => exact lower_le_of_not_lt hx hx' h hy
  | upper => exact le_upper_of_not_lt hx hx' h hy

/-- A value between both bounds meets each of them. -/
theorem met_of_within {v : Nat} (h : Within (b.lowerOf v) (b.upperOf v) y) :
    side.Met (side.bound b v) y := by
  cases side with
  | lower => exact h.1
  | upper => exact h.2

end Side

/-! ## §2.  Tightening -/

/-- What tightening a bound of `v` on a side does: it is in place, the other bounds are what they
    were, and `v` moved onto it if it had to.  Whoever prices notices changes of the standings. -/
structure Tightened (side : Side) (v : Nat) (x : Extended K)
    (t u : Tableau (Extended K)) : Prop where
  lt : v < t.varCount
  steady : u.Steady
  solvable : t.Solvable → u.Solvable ∧ ∀ i < t.rowCount, u.toState.residual i = t.toState.residual i
  changes : Rebounded t u u.bounds
  pricing : u.pricing = t.pricing ∧ u.standings = t.standings ∨ u.pricing = t.pricing.invalidate
  bound : ∀ s l, Side.bound s u.bounds l
    = if s = side ∧ l = v then x else Side.bound s t.bounds l
  values : ∀ j < t.nonBasicCount,
    coord u.nonBasicValues j = coord t.nonBasicValues j
        ∧ (t.split.nonBasicVar j = v → side.Met x (coord t.nonBasicValues j))
      ∨ t.split.nonBasicVar j = v ∧ fin (coord u.nonBasicValues j) = x

section Tighten

variable {side : Side} {t u w : Tableau (Extended K)} {v : Nat} {x : Extended K}

/-- A bound that was replaced and took effect is tightened. -/
theorem tightened_of_effect (hv : v < t.varCount) {bounds : Bounds (Extended K)}
    (hb : bounds.WellFormed t.varCount) {violated : Extended K → Bool} {ys : List (Extended K)}
    {ss : List Standing} {pricing : Pricing (Extended K)} (hw : Silent { t with bounds } w)
    (he : TakesEffect w u v x violated ys ss pricing)
    (hbound : ∀ s l, Side.bound s bounds l
        = if s = side ∧ l = v then x else Side.bound s t.bounds l)
    (hmet : ∀ y : K, violated (fin y) = false → side.Met x y) : Tightened side v x t u := by
  -- Notices do not matter to solvability, nor does another bound.
  have hsolv (ht : t.Solvable) : w.Solvable := hw.solvable (ht.rebound hb)
  obtain ⟨_, _, rfl⟩ := hw
  have hsteady := he.steady
  have husolv := he.solvable
  have hpricing := he.pricing
  have hvalues := he.values
  obtain ⟨xs, _, _, rfl⟩ := he.changes
  refine ⟨hv, hsteady, fun ht => husolv (hsolv ht), ⟨xs, ys, ss, pricing, _, _, rfl⟩,
    hpricing, hbound, ?_⟩
  intro j hj
  have hvalue := hvalues j hj
  -- A non-basic variable is moved only if it is the tightened one and violates the new bound.
  by_cases hmoved : t.split.nonBasicVar j = v ∧ violated (fin (coord t.nonBasicValues j)) = true
  · rw [if_pos hmoved] at hvalue
    exact .inr ⟨hmoved.1, hvalue⟩
  · rw [if_neg hmoved] at hvalue
    refine .inl ⟨Extended.fin.inj hvalue, fun hjv => hmet _ ?_⟩
    rw [Bool.eq_false_iff]
    exact fun hviolated => hmoved ⟨hjv, hviolated⟩

/-- **Tightening a bound**, on either side. -/
theorem Tableau.Steady.tighten (ht : t.Steady) (hx : side.Proper x)
    (h : side.tighten t v x = .ok u) :
    Tightened side v x t u := by
  cases side with
  | lower =>
    obtain ⟨hv, bounds, hb, w, ys, ss, pricing, hw, he⟩ := ht.tightenLower hx h
    obtain ⟨-, hbw, hlow, hupp⟩ := ht.state.bounds.setLower hx hb
    refine tightened_of_effect hv hbw hw he (fun s l => ?_) fun y hy => ?_
    · cases s with
      | lower => simpa [Side.bound] using hlow l
      | upper => simpa [Side.bound] using hupp l
    · exact (lower_le_iff hx).mpr (of_decide_eq_false hy)
  | upper =>
    obtain ⟨hv, bounds, hb, w, ys, ss, pricing, hw, he⟩ := ht.tightenUpper hx h
    obtain ⟨-, hbw, hlow, hupp⟩ := ht.state.bounds.setUpper hx hb
    refine tightened_of_effect hv hbw hw he (fun s l => ?_) fun y hy => ?_
    · cases s with
      | lower => simpa [Side.bound] using hlow l
      | upper => simpa [Side.bound] using hupp l
    · exact (le_upper_iff hx).mpr (of_decide_eq_false hy)

end Tighten

/-- The bounds of the variable that remains after a merge imply those of both. -/
theorem Tableau.Intersects.met_target {side : Side} {b b' : Bounds (Extended K)}
    {source target : Nat} (h : Intersects b b' source target) {y : K}
    (hy : side.Met (side.bound b' target) y) :
    side.Met (side.bound b target) y ∧ side.Met (side.bound b source) y := by
  cases side with
  | lower => exact (h.lowerTarget y).mp hy
  | upper => exact (h.upperTarget y).mp hy

/-- Taking the stricter bounds for the source leaves what others have to meet. -/
theorem Tableau.Intersects.met_of_ne {side : Side} {b b' : Bounds (Extended K)}
    {source target k : Nat} (h : Intersects b b' source target) (hk : k ≠ source) {y : K}
    (hy : side.Met (side.bound b' k) y) :
    side.Met (side.bound b k) y := by
  by_cases ht : k = target
  · subst ht
    exact (h.met_target hy).1
  · have hbound : side.bound b' k = side.bound b k := by
      cases side with
      | lower => exact h.lower k hk ht
      | upper => exact h.upper k hk ht
    rwa [hbound] at hy

/-! ## §3.  Being at home -/

/-- If the variable is not basic, it meets its bound on a side, unless its bounds contradict each
    other. -/
def Home (side : Side) (s : State (Extended K)) (v : Nat) : Prop :=
  ∀ j < s.nonBasicCount, s.split.nonBasicVar j = v → ¬s.bounds.upperOf v < s.bounds.lowerOf v →
    side.Met (side.bound s.bounds v) (coord s.nonBasicValues j)

section Steps

variable {side side' : Side} {t u w : Tableau (Extended K)} {v k : Nat} {x : Extended K}

/-- One value that is put on a bound of its variable. -/
theorem Home.set {s s' : State (Extended K)} (h : Home side s k) (hs : s.WellFormed)
    (hcount : s'.nonBasicCount = s.nonBasicCount) (hb : s'.bounds = s.bounds) {j v : Nat}
    (hv : v < s.varCount)
    (hvar : ∀ l < s.nonBasicCount, s'.split.nonBasicVar l
        = if l = j then v else s.split.nonBasicVar l)
    {y : K} (hy : fin y = s.bounds.lowerOf v ∨ fin y = s.bounds.upperOf v)
    (hvalues : s'.nonBasicValues = s.nonBasicValues.set j (fin y)) : Home side s' k := by
  intro l hl hlk hvalid
  rw [hcount] at hl
  rw [hvar l hl] at hlk
  rw [hb] at hvalid ⊢
  rw [hvalues, coord, List.getD_eq_getElem?_getD, List.getElem?_set]
  -- The place that was written holds a bound of its variable; the others are as before.
  by_cases hlj : j = l
  · subst hlj
    rw [if_pos rfl] at hlk
    subst hlk
    rw [if_pos rfl, if_pos (by rw [hs.nonBasic.length]; exact hl)]
    exact Side.met_of_within
      (within_of_eq (hs.bounds.lowerOf_lt hv) (hs.bounds.lt_upperOf hv) hy hvalid)
  · rw [if_neg (Ne.symm hlj)] at hlk
    rw [if_neg hlj, ← List.getD_eq_getElem?_getD]
    exact h l hl hlk hvalid

/-- A variable that was moved onto its new bound meets both of its bounds. -/
theorem Tightened.met_of_moved (h : Tightened side' v x t u) {j : Nat}
    (hmoved : fin (coord u.nonBasicValues j) = x)
    (hvalid : ¬u.bounds.upperOf v < u.bounds.lowerOf v) :
    side.Met (side.bound u.bounds v) (coord u.nonBasicValues j) := by
  have hv : v < u.varCount := by
    obtain ⟨_, _, _, _, _, _, hu⟩ := h.changes
    rw [hu]
    exact h.lt
  have hx : side'.bound u.bounds v = x := by rw [h.bound, if_pos ⟨rfl, rfl⟩]
  have hon : fin (coord u.nonBasicValues j) = u.bounds.lowerOf v
      ∨ fin (coord u.nonBasicValues j) = u.bounds.upperOf v := by
    rw [hmoved, ← hx]
    cases side' with
    | lower => exact .inl rfl
    | upper => exact .inr rfl
  exact Side.met_of_within (within_of_eq (h.steady.state.bounds.lowerOf_lt hv)
    (h.steady.state.bounds.lt_upperOf hv) hon hvalid)

/-- **A variable whose bound was tightened** is at home on that side, wherever it was before. -/
theorem Tightened.home (h : Tightened side v x t u) : Home side u.toState v := by
  have hvalues := h.values
  have hx : side.bound u.bounds v = x := by rw [h.bound, if_pos ⟨rfl, rfl⟩]
  obtain ⟨_, _, _, _, _, _, hu⟩ := h.changes
  intro j hj hjv hvalid
  rw [hu] at hj hjv
  rcases hvalues j hj with ⟨hsame, hmet⟩ | ⟨-, hmoved⟩
  · rw [hx, hsame]
    exact hmet hjv
  · exact h.met_of_moved hmoved hvalid

/-- A bound of another variable. -/
theorem Home.tighten_of_ne (h : Home side t.toState k) (hkv : k ≠ v)
    (htight : Tightened side' v x t u) : Home side u.toState k := by
  have hbound := htight.bound
  have hvalues := htight.values
  have hother (s : Side) : s.bound u.bounds k = s.bound t.bounds k := by
    rw [hbound, if_neg fun hc => hkv hc.2]
  obtain ⟨_, _, _, _, _, _, hu⟩ := htight.changes
  intro j hj hjk hvalid
  rw [hu] at hj hjk
  rw [show u.bounds.upperOf k = _ from hother .upper,
    show u.bounds.lowerOf k = _ from hother .lower] at hvalid
  rcases hvalues j hj with ⟨hsame, -⟩ | ⟨hjv, -⟩
  · rw [hsame, hother]
    exact h j hj hjk hvalid
  · exact absurd (hjk.symm.trans hjv) hkv

/-- **A new bound on the same side**, of any variable, tighter or not. -/
theorem Home.tighten_same (h : Home side t.toState k) (htight : Tightened side v x t u) :
    Home side u.toState k := by
  by_cases hkv : k = v
  · rw [hkv]
    exact htight.home
  · exact h.tighten_of_ne hkv htight

/-- **A tighter bound**, of any variable. -/
theorem Home.tighten (h : Home side t.toState k)
    (hstrict : side'.Stricter x (side'.bound t.bounds v)) (hx : side'.Proper x)
    (htight : Tightened side' v x t u) : Home side u.toState k := by
  by_cases hside : side' = side
  · subst hside
    exact h.tighten_same htight
  by_cases hkv : k = v
  · subst hkv
    have hbound := htight.bound
    have hvalues := htight.values
    obtain ⟨_, _, _, _, _, _, hu⟩ := htight.changes
    intro j hj hjk hvalid
    rw [hu] at hj hjk
    rcases hvalues j hj with ⟨hsame, -⟩ | ⟨-, hmoved⟩
    · -- the bound on the other side was tightened, so the bounds did not contradict before
      rw [hsame, hbound, if_neg fun hc => hside hc.1.symm]
      refine h j hj hjk ?_
      rw [show u.bounds.upperOf k = Side.upper.bound u.bounds k from rfl,
        show u.bounds.lowerOf k = Side.lower.bound u.bounds k from rfl, hbound, hbound] at hvalid
      cases side' with
      | lower =>
        rw [if_neg (by simp), if_pos ⟨rfl, rfl⟩] at hvalid
        exact not_lt_trans (.inl hx) hvalid hstrict
      | upper =>
        rw [if_pos ⟨rfl, rfl⟩, if_neg (by simp)] at hvalid
        exact not_lt_trans (.inr hx) hstrict hvalid
    · exact htight.met_of_moved hmoved hvalid
  · exact h.tighten_of_ne hkv htight

/-- **A pivot.**  The variable that leaves the basis lands on one of its bounds, and so does one
    that jumps across its range. -/
theorem Home.pivot [IsStrictOrderedRing K] (h : Home side t.toState k) (ht : t.Steady) {τ : K}
    (hτ : t.settings.boundTolerance = fin τ) (hsel : Selected t w)
    (hdone : w.performPivot = .ok u) :
    Home side u.toState k := by
  obtain ⟨j, plan, hp, hw, -⟩ := selected_spec ht hsel
  have hsteady := hw.steady ht
  obtain ⟨_, _, rfl⟩ := hw
  -- A pivot is ignored, jumps to the bound of the entering variable or lands the leaving one.
  cases performPivot_turns hsteady hτ hp hdone with
  | ignored _ _ hc =>
    obtain ⟨_, _, rfl⟩ := hc
    exact h
  | jumped _ _ hc hahead =>
    obtain ⟨_, _, rfl⟩ := hc
    have hb := onBound_of_ahead hahead
    refine h.set ht.state rfl rfl (ht.state.split.nonBasicVar_lt hp.lt) (fun l _ => ?_) hb rfl
    show t.split.nonBasicVar l = _
    split
    · next hlj => rw [hlj]
    · rfl
  | @exchanged i δ y _ hx _ _ hland =>
    have hrow := hx.row
    have hb := onBound_of_landing hland
    obtain ⟨xs, ss, inverse, pricing, -, _, _, rfl⟩ := hx.changes
    exact h.set ht.state rfl rfl (ht.state.split.basicVar_lt hrow)
      (fun l _ => ht.state.split.nonBasicVar_swapped hp.lt l) hb rfl

/-- One half of taking over bounds: the target is tightened to the bound of the source where that is
    strictly tighter. -/
theorem Home.half (side' : Side) (h : Home side t.toState k) (ht : t.Steady) {source target : Nat}
    (hs : source < t.varCount) {tighter : Prop} [Decidable tighter]
    (htighter : tighter → side'.Stricter (side'.bound t.bounds source)
        (side'.bound t.bounds target))
    (hdone : (if tighter then side'.tighten t target (side'.bound t.bounds source) else pure t)
        = .ok u) :
    u.Steady ∧ Home side u.toState k := by
  have hproper : side'.Proper (side'.bound t.bounds source) := Side.proper_bound ht.state.bounds hs
  split at hdone
  · next hlt =>
    have htight := ht.tighten hproper hdone
    exact ⟨htight.steady, h.tighten (htighter hlt) hproper htight⟩
  · cases hdone
    exact ⟨ht, h⟩

/-- Intersecting the bounds of two variables keeps a third one at home. -/
theorem Home.intersectBounds (h : Home side t.toState k) (ht : t.Steady) {source target : Nat}
    (hdone : t.intersectBounds source target = .ok u) : Home side u.toState k := by
  obtain ⟨l, l', x, x', w, hl, hl', hw, hx, hx', hdone⟩ := intersectBounds_halves hdone
  obtain ⟨hs, rfl⟩ := lowerBound_spec ht.state hl
  obtain ⟨-, rfl⟩ := lowerBound_spec ht.state hl'
  obtain ⟨hwsteady, hwhome⟩ := Home.half .lower h ht hs (fun hlt => not_lt_of_lt hlt) hw
  obtain ⟨hs', rfl⟩ := upperBound_spec hwsteady.state hx
  obtain ⟨-, rfl⟩ := upperBound_spec hwsteady.state hx'
  exact (Home.half .upper hwhome hwsteady hs' (fun hlt => not_lt_of_lt hlt) hdone).2

/-- **A merge** keeps all variables at home but the one that is merged away. -/
theorem Home.merge [IsStrictOrderedRing K] (h : Home side t.toState k) (ht : t.Steady)
    {source target : Nat} (hne : k ≠ source) (hdone : t.merge source target = .ok (.ok (), u)) :
    Home side u.toState k := by
  obtain ⟨hm, w, hw, hsplit, hvalues, hbounds⟩ := merge_stages ht hdone
  have hremark := silent_remark t (.merging source target)
  have hhome : Home side w.toState k :=
    Home.intersectBounds (t := t.remark (.merging source target)) h (hremark.steady ht) hw
  obtain ⟨-, -, -, bounds, ⟨_, _, _, _, _, _, hwt⟩, -⟩ :=
    intersectBounds_spec (t := t.remark (.merging source target)) (hremark.steady ht) hw
  have hcount : u.nonBasicCount = w.nonBasicCount := by
    show u.varCount - u.rowCount = _
    rw [hm.varCount, hm.rowCount, hwt]
    rfl
  obtain ⟨hl, hu⟩ := hbounds k hne
  have hbound : side.bound u.bounds k = side.bound w.bounds k := by
    cases side with
    | lower => exact hl
    | upper => exact hu
  -- The refresh after the merge rewrites basic values only, so the non-basic ones are those of `w`.
  intro j hj hjk hvalid
  rw [hcount] at hj
  rw [hsplit] at hjk
  rw [hl, hu] at hvalid
  rw [hbound, hvalues]
  exact hhome j hj hjk hvalid

/-! ## §4.  Reading the bounds off -/

/-- Where no basic variable violates a bound and no bounds contradict each other, a variable at
    home meets its bound. -/
theorem met_of_home [IsStrictOrderedRing K] (h : Home side t.toState v) (ht : t.Steady)
    (hτ : t.settings.boundTolerance = fin 0) (hvalid : t.bounds.allValid = true)
    (hin : t.toState.existsOutOfBounds = false) (hv : v < t.varCount) :
    side.Met (side.bound t.bounds v) (t.toState.stored v) := by
  -- A basic variable is at home by its status, a non-basic one by the hypothesis.
  cases hb : t.split.isBasic v with
  | true =>
    obtain ⟨hi, hvar⟩ := ht.state.split.of_isBasic hv hb
    have hstanding : (t.toState.standing (fin 0) (t.split.place v)).isOutOfBounds = false := by
      have hmem : t.toState.standing (fin 0) (t.split.place v) ∈ t.standings := by
        rw [ht.standings, hτ]
        exact List.mem_map_of_mem (List.mem_range.mpr hi)
      simpa using List.any_eq_false.mp hin _ hmem
    have hwithin := within_of_standing (ht.state.bounds.lowerOf_lt (by rw [hvar]; exact hv))
      (ht.state.bounds.lt_upperOf (by rw [hvar]; exact hv)) hstanding
    rw [← ht.state.stored_basicVar hi, hvar] at hwithin
    exact Side.met_of_within hwithin
  | false =>
    obtain ⟨hj, hvar⟩ := ht.state.split.of_not_isBasic hv hb
    have hmet := h (t.split.place v) hj hvar (ht.state.bounds.not_contradictory hvalid hv)
    rw [← hvar, ht.state.stored_nonBasicVar hj, hvar]
    exact hmet

end Steps

end BoundedSimplex
