/-
  BoundedSimplex.Proofs.Hull — interval arithmetic on an equation is exact.

  The bounds of a residual enclose every residual that values within the bounds can have.  If no
  variable occurs twice, the values of the terms are independent of each other, so the set of
  residuals is a sum of multiples of intervals, and the least element of such a sum is the sum of
  the least elements.  An end that is infinite stands for a set without a bound, which is why two
  ends never meet as infinities of opposite sign.

  Main results:
    * `IsHull.add`, `IsHull.smul_of_pos`, `IsHull.smul_of_neg` — sums and multiples
      of sets of numbers;
    * `addends_spec` — what one term adds to the ends of an interval;
    * `hull_of_foldlM` — the ends after any number of terms;
    * `residualBounds_hull` — the bounds of the residual of an equation.
-/
import BoundedSimplex.Proofs.Conservative
import Mathlib.Algebra.Order.Group.Pointwise.Bounds
import Mathlib.Algebra.Ring.Action.Pointwise.Set

namespace BoundedSimplex

open Extended
open scoped Pointwise

variable {K : Type} [Field K] [LinearOrder K]

/-! ## §1.  Signs -/

namespace Extended

variable {l u x y : Extended K} {c z : K}

/-- Infinities of opposite sign, which have no sum. -/
def Opposite (x y : Extended K) : Prop := x = top ∧ y = bot ∨ x = bot ∧ y = top

/-- Two ends below infinity are not opposite infinities. -/
theorem not_opposite_of_lower (hx : x < Scalar.infinity) (hy : y < Scalar.infinity) :
    ¬Opposite x y := by
  rintro (⟨rfl, -⟩ | ⟨-, rfl⟩)
  · cases hx
  · cases hy

/-- Neither are two ends above minus infinity. -/
theorem not_opposite_of_upper (hx : -Scalar.infinity < x) (hy : -Scalar.infinity < y) :
    ¬Opposite x y := by
  rintro (⟨-, rfl⟩ | ⟨rfl, -⟩)
  · cases hy
  · cases hx

/-- Negation goes through a sum, also one of infinities. -/
theorem neg_add_eq (x y : Extended K) : -(x + y) = -x + -y := by
  cases x <;> cases y <;> first | rfl | exact congrArg fin (neg_add _ _)

section Ordered

variable [IsStrictOrderedRing K]

/-- An infinity of the sign of `c` turns into the one of the other sign. -/
theorem neg_signed (c : K) : -signed c = signed (-c) := by
  rcases lt_trichotomy c 0 with hc | rfl | hc
  · rw [signed_of_neg hc, signed_of_pos (neg_pos_of_neg hc)]
    rfl
  · simp only [signed, neg_zero, if_true]
    rfl
  · rw [signed_of_pos hc, signed_of_neg (neg_neg_of_pos hc)]
    rfl

/-- The sign of a product can be moved into its factor. -/
theorem neg_mul_eq (c : K) (x : Extended K) : -(fin c * x) = fin (-c) * x := by
  cases x with
  | fin x => exact congrArg fin (neg_mul c x).symm
  | top => exact neg_signed c
  | bot => exact neg_signed (-c)
  | undefined => rfl

/-- It can be moved out of the second factor as well. -/
theorem mul_neg_eq (c : K) (x : Extended K) : fin c * -x = -(fin c * x) := by
  cases x with
  | fin x => exact congrArg fin (mul_neg c x)
  | top => exact (neg_signed c).symm
  | bot =>
    show signed c = -signed (-c)
    rw [neg_signed, neg_neg]
  | undefined => rfl

/-- Below the negative of a number is above that number, negated. -/
theorem le_fin_neg_iff : l ≤ fin (-z) ↔ fin z ≤ -l := by
  cases l with
  | fin a =>
    rw [fin_neg, fin_le_fin, fin_le_fin]
    exact le_neg
  | top => exact Iff.rfl
  | bot => exact Iff.rfl
  | undefined => exact Iff.rfl

/-- The same for the other end. -/
theorem fin_neg_le_iff : fin (-z) ≤ u ↔ -u ≤ fin z := by
  cases u with
  | fin a =>
    rw [fin_neg, fin_le_fin, fin_le_fin]
    exact neg_le
  | top => exact Iff.rfl
  | bot => exact Iff.rfl
  | undefined => exact Iff.rfl

end Ordered

/-! ## §2.  The ends of a set of numbers -/

/-- The lower end of a set: its least element, or the negative infinity if there is no bound. -/
inductive IsFloor (S : Set K) : Extended K → Prop
  | attained {a : K} (least : IsLeast S a) : IsFloor S (fin a)
  | unbounded (beyond : ∀ a, ∃ x ∈ S, x < a) : IsFloor S bot

/-- Both ends of a set; the upper one is the lower one of the negatives. -/
structure IsHull (S : Set K) (i : Extended K × Extended K) : Prop where
  floor : IsFloor S i.1
  ceiling : IsFloor (-S) (-i.2)

variable {S T : Set K} {i j : Extended K × Extended K}

/-- Above the floor of a set some element is close enough. -/
theorem IsFloor.exists_lt (h : IsFloor S l) {a : K} (ha : l < fin a) : ∃ x ∈ S, x < a := by
  cases h with
  | attained least => exact ⟨_, least.1, (fin_lt_fin _ _).mp ha⟩
  | unbounded beyond => exact beyond a

omit [Field K] in
/-- A finite floor belongs to the set. -/
theorem IsFloor.mem {a : K} (h : IsFloor S (fin a)) : a ∈ S := by
  cases h with
  | attained least => exact least.1

omit [Field K] in
/-- A set with a floor is not empty. -/
theorem IsFloor.exists_mem (h : IsFloor S l) (a : K) : ∃ x, x ∈ S := by
  cases h with
  | attained least => exact ⟨_, least.1⟩
  | unbounded beyond => exact (beyond a).imp fun _ hx => hx.1

/-- One number is its own hull. -/
theorem IsHull.singleton (a : K) : IsHull {a} (fin a, fin a) where
  floor := .attained isLeast_singleton
  ceiling := by
    rw [Set.neg_singleton]
    exact .attained isLeast_singleton

/-- A finite upper end belongs to the set. -/
theorem IsHull.mem_of_upper {a : K} (h : IsHull S i) (ha : i.2 = fin a) : a ∈ S := by
  have hceiling := h.ceiling
  rw [ha, fin_neg] at hceiling
  have hmem := hceiling.mem
  rwa [Set.mem_neg, neg_neg] at hmem

variable [IsStrictOrderedRing K]

/-- Below the upper end some element is close enough. -/
theorem IsHull.exists_gt (h : IsHull S i) {a : K} (ha : fin a < i.2) : ∃ x ∈ S, a < x := by
  have hneg : -i.2 < fin (-a) := by
    obtain ⟨l, u⟩ := i
    cases u with
    | fin b => exact (fin_lt_fin _ _).mpr (neg_lt_neg ((fin_lt_fin _ _).mp ha))
    | top => rfl
    | bot => cases ha
    | undefined => cases ha
  obtain ⟨x, hx, hlt⟩ := h.ceiling.exists_lt hneg
  exact ⟨-x, hx, lt_neg.mp hlt⟩

/-- Floors add up. -/
theorem IsFloor.add (hS : IsFloor S x) (hT : IsFloor T y) : IsFloor (S + T) (x + y) := by
  cases hS with
  | attained hS =>
    cases hT with
    | attained hT => exact .attained ⟨Set.add_mem_add hS.1 hT.1, add_mem_lowerBounds_add hS.2 hT.2⟩
    | unbounded hT =>
      refine .unbounded ?_
      intro a
      obtain ⟨t, ht, hlt⟩ := hT (a - _)
      exact ⟨_, Set.add_mem_add hS.1 ht, lt_sub_iff_add_lt'.mp hlt⟩
  | unbounded hS =>
    -- any element of the other set will do
    obtain ⟨t, ht⟩ := hT.exists_mem 0
    have hbot : bot + y = bot := by cases hT <;> rfl
    rw [hbot]
    refine .unbounded ?_
    intro a
    obtain ⟨s, hs, hlt⟩ := hS (a - t)
    exact ⟨_, Set.add_mem_add hs ht, lt_sub_iff_add_lt.mp hlt⟩

/-- Floors scale with a positive factor. -/
theorem IsFloor.smul (hc : 0 < c) (hS : IsFloor S x) : IsFloor (c • S) (fin c * x) := by
  cases hS with
  | attained hS =>
    refine .attained ⟨Set.smul_mem_smul_set hS.1, ?_⟩
    rintro _ ⟨s, hs, rfl⟩
    exact mul_le_mul_of_nonneg_left (hS.2 hs) hc.le
  | unbounded hS =>
    have hbot : fin c * bot = bot := signed_of_neg (neg_neg_of_pos hc)
    rw [hbot]
    refine .unbounded ?_
    intro a
    obtain ⟨s, hs, hlt⟩ := hS (a / c)
    exact ⟨_, Set.smul_mem_smul_set hs, (lt_div_iff₀' hc).mp hlt⟩

/-- **Independent numbers add up**, and so do the ends. -/
theorem IsHull.add (hS : IsHull S i) (hT : IsHull T j) :
    IsHull (S + T) (i.1 + j.1, i.2 + j.2) where
  floor := hS.floor.add hT.floor
  ceiling := by
    rw [neg_add, neg_add_eq]
    exact hS.ceiling.add hT.ceiling

/-- A positive factor scales both ends. -/
theorem IsHull.smul_of_pos (hc : 0 < c) (h : IsHull S i) :
    IsHull (c • S) (fin c * i.1, fin c * i.2) where
  floor := h.floor.smul hc
  ceiling := by
    rw [← Set.smul_set_neg, ← mul_neg_eq]
    exact h.ceiling.smul hc

/-- **A negative factor** exchanges the ends. -/
theorem IsHull.smul_of_neg (hc : c < 0) (h : IsHull S i) :
    IsHull (c • S) (fin c * i.2, fin c * i.1) where
  floor := by
    -- multiples by `c` are those of the negatives by `-c`
    have hneg := h.ceiling.smul (neg_pos_of_neg hc)
    rwa [Set.smul_set_neg, Set.neg_smul_set, neg_neg, mul_neg_eq, neg_mul_eq, neg_neg] at hneg
  ceiling := by
    have hneg := h.floor.smul (neg_pos_of_neg hc)
    rwa [Set.neg_smul_set, ← neg_mul_eq] at hneg

/-! ## §3.  The numbers within bounds -/

/-- Some number is within the bounds. -/
structure LeaveRoom (l u : Extended K) : Prop where
  le : l ≤ u
  lower_lt : l < Scalar.infinity
  lt_upper : -Scalar.infinity < u

/-- Negated bounds leave room as well, with the ends exchanged. -/
theorem LeaveRoom.neg (h : LeaveRoom l u) : LeaveRoom (-u) (-l) := by
  obtain ⟨hle, hl, hu⟩ := h
  obtain rfl | ⟨a, rfl⟩ := lt_infinity_iff.mp hl
  · obtain rfl | ⟨b, rfl⟩ := neg_infinity_lt_iff.mp hu
    · exact ⟨rfl, rfl, rfl⟩
    · exact ⟨rfl, rfl, rfl⟩
  · obtain rfl | ⟨b, rfl⟩ := neg_infinity_lt_iff.mp hu
    · exact ⟨rfl, rfl, rfl⟩
    · exact ⟨(fin_le_fin _ _).mpr (neg_le_neg ((fin_le_fin _ _).mp hle)), rfl, rfl⟩

/-- The lower bound is the floor of the values within. -/
theorem LeaveRoom.isFloor (h : LeaveRoom l u) : IsFloor {x | Within l u x} l := by
  obtain ⟨hle, hl, hu⟩ := h
  obtain rfl | ⟨a, rfl⟩ := lt_infinity_iff.mp hl
  · refine .unbounded ?_
    intro a
    have hlt : a - 1 < a := sub_one_lt a
    obtain rfl | ⟨b, rfl⟩ := neg_infinity_lt_iff.mp hu
    · exact ⟨a - 1, ⟨rfl, rfl⟩, hlt⟩
    · refine ⟨min (a - 1) b, ⟨rfl, ?_⟩, min_lt_of_left_lt hlt⟩
      exact (fin_le_fin _ _).mpr (min_le_right _ _)
  · refine .attained ⟨⟨(fin_le_fin a a).mpr le_rfl, hle⟩, ?_⟩
    intro x hx
    exact (fin_le_fin a x).mp hx.1

/-- The two bounds are the hull of the values within. -/
theorem LeaveRoom.isHull (h : LeaveRoom l u) : IsHull {x | Within l u x} (l, u) where
  floor := h.isFloor
  ceiling := by
    have hneg : -{x : K | Within l u x} = {x : K | Within (-u) (-l) x} := by
      ext x
      exact and_comm.trans (and_congr fin_neg_le_iff le_fin_neg_iff)
    rw [hneg]
    exact h.neg.isFloor

end Extended

namespace LinearEquation

variable {e : LinearEquation (Extended K)} {lower upper : Nat → Checked (Extended K)}
  {i : Extended K × Extended K} {t : Term (Extended K)} {ts : List (Term (Extended K))}

/-! ## §4.  Assignments within the bounds -/

/-- The numbers that a variable can have. -/
def choices (lower upper : Nat → Checked (Extended K)) (v : Nat) : Set K :=
  {x | ∀ l u, lower v = .ok l → upper v = .ok u → Encloses (l, u) x}

/-- The numbers that a sum of terms can have. -/
def sums (lower upper : Nat → Checked (Extended K)) (ts : List (Term (Extended K))) : Set K :=
  {z | ∃ x, Enclosed lower upper x ∧ (ts.map fun t => t.coefficient.val * x t.var).sum = z}

/-- The residuals that an equation can have. -/
def residuals (e : LinearEquation (Extended K)) (lower upper : Nat → Checked (Extended K)) :
    Set K :=
  {r | ∃ x : Nat → K, Enclosed lower upper x ∧ e.residual (fun v => .ok (fin (x v))) = .ok (fin r)}

/-- A term whose coefficient is zero adds nothing. -/
theorem sums_cons_of_zero (hz : t.coefficient.val = 0) :
    sums lower upper (t :: ts) = sums lower upper ts := by
  unfold sums
  simp [hz]

/-- **A variable that occurs in no other term** can be chosen on its own. -/
theorem sums_cons (hfresh : t.var ∉ ts.map Term.var) :
    sums lower upper (t :: ts)
      = t.coefficient.val • choices lower upper t.var + sums lower upper ts := by
  ext z
  constructor
  · rintro ⟨x, hx, rfl⟩
    exact Set.add_mem_add (Set.smul_mem_smul_set (hx t.var)) ⟨x, hx, rfl⟩
  · rintro ⟨_, ⟨y, hy, rfl⟩, _, ⟨x, hx, rfl⟩, rfl⟩
    refine ⟨Function.update x t.var y, ?_, ?_⟩
    · intro v
      by_cases hv : v = t.var
      · subst hv
        rw [Function.update_self]
        exact hy
      · rw [Function.update_of_ne hv]
        exact hx v
    · -- the other terms do not see the change
      rw [List.map_cons, List.sum_cons, Function.update_self]
      congr 2
      apply List.map_congr_left
      intro t' ht'
      have hne : t'.var ≠ t.var := fun heq => hfresh (heq ▸ List.mem_map_of_mem ht')
      rw [Function.update_of_ne hne]

/-- With finite numbers the residual is the weighed sum less the right-hand side. -/
theorem residual_eq (he : e.IsFinite) (x : Nat → K) :
    e.residual (fun v => .ok (fin (x v))) = .ok (fin (e.weigh x - e.scalar.val)) := by
  have hproducts : (e.terms.mapM fun t => do return t.coefficient * (← Except.ok (fin (x t.var)))
      : Checked (List (Extended K)))
      = .ok (e.terms.map fun t => fin (t.coefficient.val * x t.var)) := by
    apply Checked.mapM_eq_ok
    intro t ht
    obtain ⟨c, hc⟩ := he.terms t ht
    rw [hc]
    rfl
  obtain ⟨b, hb⟩ := he.scalar
  have hsum := sum_map_fin (e.terms.map fun t => t.coefficient.val * x t.var)
  rw [List.map_map] at hsum
  unfold residual
  rw [hproducts, Checked.ok_bind, hb]
  show Except.ok (Scalar.sum (e.terms.map (fin ∘ fun t => t.coefficient.val * x t.var)) - fin b) = _
  rw [hsum, fin_sub]
  rfl

/-- The residuals are a translate of the sums of the terms. -/
theorem residuals_eq (he : e.IsFinite) :
    e.residuals lower upper = {-e.scalar.val} + sums lower upper e.terms := by
  ext r
  unfold residuals
  simp only [residual_eq he, Set.singleton_add]
  constructor
  · rintro ⟨x, hx, hr⟩
    cases hr
    exact ⟨_, ⟨x, hx, rfl⟩, neg_add_eq_sub _ _⟩
  · rintro ⟨_, ⟨x, hx, rfl⟩, rfl⟩
    refine ⟨x, hx, ?_⟩
    show Except.ok (fin (e.weigh x - e.scalar.val)) = .ok (fin (-e.scalar.val + e.weigh x))
    rw [neg_add_eq_sub]

/-! ## §5.  What a term adds -/

/-- What a term adds to the ends of an interval: nothing if its coefficient is zero, else the
    products with the bounds of its variable, which a negative coefficient takes in reverse. -/
def addends {α : Type} [Scalar α] (lower upper : Nat → Checked α) (t : Term α) :
    Checked (Option (α × α)) := do
  if t.coefficient == 0 then
    return none
  else
    let l ← lower t.var
    let u ← upper t.var
    if 0 < t.coefficient then
      return some (t.coefficient * l, t.coefficient * u)
    else
      return some (t.coefficient * u, t.coefficient * l)

/-- An interval with what a term adds to its ends. -/
def extendBy {α : Type} [Scalar α] (i : α × α) : Option (α × α) → α × α
  | none => i
  | some p => (i.1 + p.1, i.2 + p.2)

/-- A step of the interval is a step of its ends. -/
theorem extendInterval_eq_extendBy {α : Type} [Scalar α] {lower upper : Nat → Checked α}
    {t : Term α} {a : Option (α × α)} (h : addends lower upper t = .ok a) (i : α × α) :
    extendInterval lower upper i t = .ok (extendBy i a) := by
  unfold addends at h
  unfold extendInterval
  split at h
  · next hz =>
    rw [if_pos hz]
    cases h
    rfl
  · next hz =>
    rw [if_neg hz]
    obtain ⟨l, hl, h⟩ := Checked.bind_eq_ok.mp h
    obtain ⟨u, hu, h⟩ := Checked.bind_eq_ok.mp h
    rw [hl, hu, Checked.ok_bind, Checked.ok_bind]
    split at h
    · next hpos =>
      rw [if_pos hpos]
      cases h
      rfl
    · next hneg =>
      rw [if_neg hneg]
      cases h
      rfl

/-- Whatever bounds there are leave room. -/
def Roomy (lower upper : Nat → Checked (Extended K)) : Prop :=
  ∀ v l u, lower v = .ok l → upper v = .ok u → LeaveRoom l u

/-- The bounds of the variable of a term are known. -/
def Known (lower upper : Nat → Checked (Extended K)) (t : Term (Extended K)) : Prop :=
  (∃ l, lower t.var = .ok l) ∧ ∃ u, upper t.var = .ok u

variable [IsStrictOrderedRing K]

/-- The values that a variable may take have its bounds as their hull. -/
theorem isHull_choices (hroom : Roomy lower upper) {v : Nat} {l u : Extended K}
    (hl : lower v = .ok l) (hu : upper v = .ok u) : IsHull (choices lower upper v) (l, u) := by
  have hvu := hroom v l u hl hu
  have heq : choices lower upper v = {x : K | Within l u x} := by
    ext x
    constructor
    · intro hx
      exact (hx l u hl hu).within
    · -- there is only one pair of bounds
      intro hx l' u' hl' hu'
      rw [hl] at hl'
      rw [hu] at hu'
      cases hl'
      cases hu'
      exact ⟨hvu.lower_lt, hvu.lt_upper, hx⟩
  rw [heq]
  exact hvu.isHull

/-- **What one term adds**: the ends of the set of its values, unless it is zero whatever its
    variable is.  Neither end is an infinity of the wrong sign. -/
theorem addends_spec (hroom : Roomy lower upper) (ht : Known lower upper t) {c : K}
    (hc : t.coefficient = fin c) :
    c = 0 ∧ addends lower upper t = .ok none
      ∨ ∃ p, addends lower upper t = .ok (some p) ∧ p.1 < Scalar.infinity ∧ -Scalar.infinity < p.2
          ∧ IsHull (c • choices lower upper t.var) p := by
  obtain ⟨⟨l, hl⟩, u, hu⟩ := ht
  have hvu := hroom _ l u hl hu
  have hhull := isHull_choices hroom hl hu
  unfold addends
  rw [hc, hl, hu, Checked.ok_bind, Checked.ok_bind, zero_eq, fin_beq]
  -- A negative coefficient exchanges the ends, a zero one is skipped before its bounds are read.
  rcases lt_trichotomy c 0 with hneg | rfl | hpos
  · right
    rw [if_neg (by simpa using hneg.ne), if_neg (by simpa using hneg.le)]
    exact ⟨_, rfl, lower_mul_of_neg hneg hvu.lt_upper, upper_mul_of_neg hneg hvu.lower_lt,
      hhull.smul_of_neg hneg⟩
  · left
    rw [if_pos (by simp)]
    exact ⟨rfl, rfl⟩
  · right
    rw [if_neg (by simpa using hpos.ne'), if_pos (by simpa using hpos)]
    exact ⟨_, rfl, lower_mul_of_pos hpos hvu.lower_lt, upper_mul_of_pos hpos hvu.lt_upper,
      hhull.smul_of_pos hpos⟩

/-! ## §6.  All terms -/

/-- There is room for all variables at once. -/
theorem exists_enclosed (hroom : Roomy lower upper) : ∃ x : Nat → K, Enclosed lower upper x := by
  -- A variable whose bounds cannot be read is free; the others have a hull, so they have a value.
  have hchoice (v : Nat) : ∃ x : K, x ∈ choices lower upper v := by
    cases hl : lower v with
    | error cause =>
      refine ⟨0, ?_⟩
      intro l u hl'
      rw [hl] at hl'
      cases hl'
    | ok l =>
      cases hu : upper v with
      | error cause =>
        refine ⟨0, ?_⟩
        intro l u _ hu'
        rw [hu] at hu'
        cases hu'
      | ok u => exact (isHull_choices hroom hl hu).floor.exists_mem 0
  choose x hx using hchoice
  exact ⟨x, hx⟩

/-- Without terms the only sum is zero. -/
theorem sums_nil (hroom : Roomy lower upper) : sums lower upper [] = (0 : Set K) := by
  ext z
  constructor
  · rintro ⟨x, -, rfl⟩
    exact Set.mem_zero.mpr rfl
  · intro hz
    obtain ⟨x, hx⟩ := exists_enclosed hroom
    exact ⟨x, hx, (Set.mem_zero.mp hz).symm⟩

/-- **The ends after any number of terms** with variables that are all different. -/
theorem hull_of_foldlM (hroom : Roomy lower upper) (hknown : ∀ t ∈ ts, Known lower upper t)
    (hfin : ∀ t ∈ ts, ∃ c, t.coefficient = fin c) (hnodup : (ts.map Term.var).Nodup)
    {S : Set K} (hi : IsHull S i) :
    ∃ i', ts.foldlM (extendInterval lower upper) i = .ok i'
      ∧ IsHull (S + sums lower upper ts) i' := by
  -- the set of what was summed so far grows along with the interval
  induction ts generalizing i S with
  | nil =>
    refine ⟨i, rfl, ?_⟩
    rw [sums_nil hroom, add_zero]
    exact hi
  | cons t ts ih =>
    obtain ⟨hknown, hrest⟩ := List.forall_mem_cons.mp hknown
    obtain ⟨⟨c, hc⟩, hfin⟩ := List.forall_mem_cons.mp hfin
    obtain ⟨hfresh, hnodup⟩ := List.nodup_cons.mp hnodup
    rw [List.foldlM_cons]
    rcases addends_spec hroom hknown hc with ⟨rfl, ha⟩ | ⟨p, ha, -, -, hp⟩
    · rw [extendInterval_eq_extendBy ha, Checked.ok_bind, sums_cons_of_zero (by rw [hc, val_fin])]
      exact ih hrest hfin hnodup hi
    · rw [extendInterval_eq_extendBy ha, Checked.ok_bind, sums_cons hfresh, hc, val_fin,
        ← add_assoc]
      exact ih hrest hfin hnodup (hi.add hp)

/-- There are bounds for the residual if there are bounds for its variables, and they are proper. -/
theorem exists_proper_residualBounds (he : e.IsFinite) (hroom : Roomy lower upper)
    (hknown : ∀ t ∈ e.terms, Known lower upper t) :
    ∃ i, e.residualBounds lower upper = .ok i ∧ i.1 < Scalar.infinity ∧ -Scalar.infinity < i.2 := by
  have hstart : (-e.scalar, -e.scalar).1 < (Scalar.infinity : Extended K)
      ∧ -(Scalar.infinity : Extended K) < (-e.scalar, -e.scalar).2 := by
    obtain ⟨b, hb⟩ := he.scalar
    rw [hb]
    exact ⟨rfl, rfl⟩
  refine Checked.exists_foldlM
    (P := fun i : Extended K × Extended K => i.1 < Scalar.infinity
      ∧ -Scalar.infinity < i.2) ?_ hstart
  intro t ht i hi
  obtain ⟨c, hc⟩ := he.terms t ht
  rcases addends_spec hroom (hknown t ht) hc with ⟨-, ha⟩ | ⟨p, ha, hlow, hhigh, -⟩
  · exact ⟨i, extendInterval_eq_extendBy ha i, hi⟩
  · exact ⟨_, extendInterval_eq_extendBy ha i, lower_add hi.1 hlow, upper_add hi.2 hhigh⟩

/-- The bounds of the residual of an equation in which no variable occurs twice. -/
theorem isHull_residuals (he : e.IsFinite) (hroom : Roomy lower upper)
    (hknown : ∀ t ∈ e.terms, Known lower upper t) (hnodup : (e.terms.map Term.var).Nodup)
    (h : e.residualBounds lower upper = .ok i) : IsHull (e.residuals lower upper) i := by
  have hstart : IsHull {-e.scalar.val} (-e.scalar, -e.scalar) := by
    obtain ⟨b, hb⟩ := he.scalar
    rw [hb]
    exact .singleton (-b)
  obtain ⟨i', hi', hhull⟩ := hull_of_foldlM hroom hknown he.terms hnodup hstart
  obtain rfl : i' = i := Except.ok.inj (hi'.symm.trans h)
  rw [residuals_eq he]
  exact hhull

/-- **The bounds of the residual are its exact hull.**  There are bounds, and they are proper.  On
    the way every term adds to either end, but never an infinity to one of opposite sign.  Every
    assignment within the bounds of the variables has a residual within the bounds of the residual.
    If no variable occurs twice, there is a residual beyond every number that is strictly inside of
    an end, and an end that is finite is a residual itself. -/
theorem residualBounds_hull (he : e.IsFinite) (hroom : Roomy lower upper)
    (hknown : ∀ t ∈ e.terms, Known lower upper t) :
    ∃ low high, e.residualBounds lower upper = .ok (low, high)
      ∧ low < Scalar.infinity ∧ -Scalar.infinity < high
      ∧ (∀ before t after, e.terms = before ++ t :: after →
          ∃ i a, { e with terms := before }.residualBounds lower upper = .ok i
            ∧ addends lower upper t = .ok a ∧ extendInterval lower upper i t = .ok (extendBy i a)
            ∧ ∀ p, a = some p → ¬Opposite i.1 p.1 ∧ ¬Opposite i.2 p.2)
      ∧ (∀ x, Enclosed lower upper x → ∃ r, e.residual (fun v => .ok (fin (x v))) = .ok (fin r)
          ∧ low ≤ fin r ∧ fin r ≤ high)
      ∧ ((e.terms.map Term.var).Nodup →
          (∀ a, low < fin a → ∃ r ∈ e.residuals lower upper, r < a)
          ∧ (∀ a, fin a < high → ∃ r ∈ e.residuals lower upper, a < r)
          ∧ (∀ a, low = fin a → a ∈ e.residuals lower upper)
          ∧ ∀ a, high = fin a → a ∈ e.residuals lower upper) := by
  obtain ⟨⟨low, high⟩, hbounds, hlow, hhigh⟩ := exists_proper_residualBounds he hroom hknown
  refine ⟨low, high, hbounds, hlow, hhigh, ?_, ?_, ?_⟩
  · intro before t after hterms
    have hbefore (t : Term (Extended K)) (ht : t ∈ before) : t ∈ e.terms := by
      rw [hterms]
      exact List.mem_append_left _ ht
    have ht : t ∈ e.terms := by
      rw [hterms]
      exact List.mem_append_right _ List.mem_cons_self
    -- the first terms are an equation of their own, which has proper bounds as well
    obtain ⟨i, hi, hlow, hhigh⟩ := exists_proper_residualBounds (e := { e with terms := before })
      ⟨he.scalar, fun t ht => he.terms t (hbefore t ht)⟩ hroom fun t ht => hknown t (hbefore t ht)
    obtain ⟨c, hc⟩ := he.terms t ht
    rcases addends_spec hroom (hknown t ht) hc with ⟨-, ha⟩ | ⟨p, ha, hp, hp', -⟩
    · refine ⟨i, _, hi, ha, extendInterval_eq_extendBy ha i, ?_⟩
      intro p hp
      cases hp
    · refine ⟨i, _, hi, ha, extendInterval_eq_extendBy ha i, ?_⟩
      intro q hq
      cases hq
      exact ⟨not_opposite_of_lower hlow hp, not_opposite_of_upper hhigh hp'⟩
  · intro x hx
    have hwithin := (residualBounds_encloses he hx hbounds).within
    exact ⟨_, residual_eq he x, hwithin.1, hwithin.2⟩
  · intro hnodup
    have hhull := isHull_residuals he hroom hknown hnodup hbounds
    refine ⟨fun a => hhull.floor.exists_lt, fun a => hhull.exists_gt, ?_, fun a =>
      hhull.mem_of_upper⟩
    rintro a rfl
    exact hhull.floor.mem

/-- `2 x₀ - 3 x₁ + 0 x₂ - 1` with `0 ≤ x₀`, `-1 ≤ x₁ ≤ 4` and no bounds for `x₂`: the lower end is
    attained, and there is no upper one. -/
theorem hull_without_upper_end :
    ∃ (e : LinearEquation (Extended ℚ)) (lower upper : Nat → Checked (Extended ℚ)),
      e = ⟨[⟨fin 2, 0⟩, ⟨fin (-3), 1⟩, ⟨fin 0, 2⟩], fin 1⟩
        ∧ (∀ v, lower v = .ok ([fin 0, fin (-1)].getD v bot))
        ∧ (∀ v, upper v = .ok ([top, fin 4].getD v top))
        ∧ e.residualBounds lower upper = .ok (fin (-13), top)
        ∧ -13 ∈ e.residuals lower upper
        ∧ ∀ a, ∃ r ∈ e.residuals lower upper, a < r := by
  have hcomputed : residualBounds
      (⟨[⟨fin 2, 0⟩, ⟨fin (-3), 1⟩, ⟨fin 0, 2⟩], fin 1⟩ : LinearEquation (Extended ℚ))
      (fun v => .ok ([fin 0, fin (-1)].getD v bot)) (fun v => .ok ([top, fin 4].getD v top))
      = .ok (fin (-13), top) := by decide +kernel
  have hfinite : IsFinite (⟨[⟨fin 2, 0⟩, ⟨fin (-3), 1⟩, ⟨fin 0, 2⟩], fin 1⟩
      : LinearEquation (Extended ℚ)) := ⟨⟨1, rfl⟩, by simp⟩
  have hroom : Roomy (fun v => .ok ([fin (0 : ℚ), fin (-1)].getD v bot))
      (fun v => .ok ([top, fin 4].getD v top)) := by
    rintro v l u hl hu
    cases hl
    cases hu
    match v with
    | 0 => exact ⟨rfl, rfl, rfl⟩
    | 1 => exact ⟨by decide +kernel, rfl, rfl⟩
    | v + 2 => exact ⟨rfl, rfl, rfl⟩
  obtain ⟨low, high, hbounds, -, -, -, -, htight⟩ :=
    residualBounds_hull hfinite hroom fun t _ => ⟨⟨_, rfl⟩, _, rfl⟩
  rw [hcomputed] at hbounds
  cases hbounds
  obtain ⟨-, habove, hattained, -⟩ := htight (by decide)
  exact ⟨_, _, _, rfl, fun v => rfl, fun v => rfl, hcomputed, hattained (-13) rfl,
    fun a => habove a rfl⟩

end LinearEquation

end BoundedSimplex
