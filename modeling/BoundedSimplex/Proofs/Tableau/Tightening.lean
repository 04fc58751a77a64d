/-
  BoundedSimplex.Proofs.Tableau.Tightening — a new bound takes effect and keeps a tableau sound.

  The standings of the other rows do not depend on the bound.  A basic variable gets its standing
  anew; one that is not basic moves onto the bound if it violates it, and the basic ones follow.

  Main results:
    * `enforce_spec` — what a bound does to the assignment once it is in place;
    * `Steady.tightenLower`, `Steady.tightenUpper` — tightening a bound.
-/
import BoundedSimplex.Proofs.Tableau.Values
import BoundedSimplex.Tableau.Tightening

namespace BoundedSimplex.Tableau

open Extended

variable {K : Type} [Field K] [LinearOrder K] {t u : Tableau (Extended K)}

/-! ## §1.  A new standing -/

/-- Looking at one row again records its status, and the prices are stale only
    if it is a new one. -/
theorem restand_spec (hs : t.toState.WellFormed) {i : Nat} (h : t.restand i = .ok u) :
    i < t.rowCount ∧ ∃ pricing, u = { t with
        standings := t.standings.set i (t.toState.standing t.settings.boundTolerance i), pricing }
      ∧ (pricing = t.pricing
          ∧ t.standings[i]? = some (t.toState.standing t.settings.boundTolerance i)
          ∧ t.standings.set i (t.toState.standing t.settings.boundTolerance i) = t.standings
        ∨ pricing = t.pricing.invalidate
          ∧ t.standings[i]? ≠ some (t.toState.standing t.settings.boundTolerance i)) := by
  obtain ⟨before, hbefore, h⟩ := Checked.bind_eq_ok.mp h
  obtain ⟨w, hw, h⟩ := Checked.bind_eq_ok.mp h
  obtain ⟨after, hafter, h⟩ := Checked.bind_eq_ok.mp h
  obtain ⟨hi, rfl⟩ := classifyAt_spec hs hw
  rw [Checked.getAt_eq_ok] at hbefore hafter
  have hlt := (List.getElem?_eq_some_iff.mp hbefore).1
  -- The status that is read afterwards is the one just written.
  have hset : (t.standings.set i (t.toState.standing t.settings.boundTolerance i))[i]?
      = some (t.toState.standing t.settings.boundTolerance i) := by
    rw [List.getElem?_set, if_pos rfl, if_pos hlt]
  obtain rfl : t.toState.standing t.settings.boundTolerance i = after :=
    Option.some.inj (hset.symm.trans hafter)
  refine ⟨hi, ?_⟩
  by_cases he : t.toState.standing t.settings.boundTolerance i = before
  · rw [if_pos he] at h
    cases h
    refine ⟨t.pricing, rfl, .inl ⟨rfl, by rw [hbefore, he], ?_⟩⟩
    obtain ⟨_, hget⟩ := List.getElem?_eq_some_iff.mp hbefore
    rw [he, ← hget]
    exact List.set_getElem_self hlt
  · rw [if_neg he] at h
    cases h
    refine ⟨t.pricing.invalidate, rfl, .inr ⟨rfl, fun hsame => he ?_⟩⟩
    exact (Option.some.inj (hbefore.symm.trans hsame)).symm

/-! ## §2.  A bound takes effect -/

/-- What enforcing a bound of `v` may change, and what it does to the values of the other variables:
    `w` is the tableau before, with the bound in place already. -/
structure Enforced (w u : Tableau (Extended K)) (v : Nat) (bound : Extended K)
    (violated : Extended K → Bool) (ys : List (Extended K)) (ss : List Standing)
    (pricing : Pricing (Extended K)) : Prop where
  changes : ∃ xs, Silent { w with
    basicValues := xs, nonBasicValues := ys, standings := ss, pricing } u
  sound : u.Sound
  residual : ∀ i < w.rowCount, u.toState.residual i = w.toState.residual i
  pricing : pricing = w.pricing ∧ ss = w.standings ∨ pricing = w.pricing.invalidate
  values : ∀ j < w.nonBasicCount, fin (coord ys j)
    = if w.split.nonBasicVar j = v ∧ violated (fin (coord w.nonBasicValues j)) = true then bound
      else fin (coord w.nonBasicValues j)

/-- The same of a steady tableau.  If it is sound, the residuals are kept as well. -/
structure TakesEffect (w u : Tableau (Extended K)) (v : Nat) (bound : Extended K)
    (violated : Extended K → Bool) (ys : List (Extended K)) (ss : List Standing)
    (pricing : Pricing (Extended K)) : Prop where
  changes : ∃ xs, Silent { w with
    basicValues := xs, nonBasicValues := ys, standings := ss, pricing } u
  steady : u.Steady
  solvable : w.Solvable → u.Solvable ∧ ∀ i < w.rowCount, u.toState.residual i = w.toState.residual i
  pricing : pricing = w.pricing ∧ ss = w.standings ∨ pricing = w.pricing.invalidate
  values : ∀ j < w.nonBasicCount, fin (coord ys j)
    = if w.split.nonBasicVar j = v ∧ violated (fin (coord w.nonBasicValues j)) = true then bound
      else fin (coord w.nonBasicValues j)

theorem TakesEffect.enforced {w : Tableau (Extended K)} {v : Nat} {bound : Extended K}
    {violated : Extended K → Bool} {ys : List (Extended K)} {ss : List Standing}
    {pricing : Pricing (Extended K)} (h : TakesEffect w u v bound violated ys ss pricing)
    (hw : w.Solvable) : Enforced w u v bound violated ys ss pricing :=
  ⟨h.changes, h.steady.sound (h.solvable hw).1, (h.solvable hw).2, h.pricing, h.values⟩

/-- **A bound takes effect.**  Only the standing of the variable itself may be
    out of date before. -/
theorem enforce_spec {v : Nat} {bound : Extended K} {violated : Extended K → Bool}
    (ht : t.Answering) (hbasis : t.hasBasis = true) {f : Nat → Standing}
    (hst : t.standings = (List.range t.rowCount).map f)
    (hf : ∀ i < t.rowCount, t.split.basicVar i ≠ v →
      f i = t.toState.standing t.settings.boundTolerance i)
    (hfin : ∀ y : K, violated (fin y) = true → ∃ b, bound = fin b)
    (h : t.enforce v bound violated = .ok u) :
    v < t.varCount ∧ ∃ ys ss pricing, TakesEffect t u v bound violated ys ss pricing := by
  unfold enforce at h
  have hcount : (t.count .boundTightenings).hasBasis = true := hbasis
  dsimp only at h
  rw [if_pos hcount] at h
  obtain ⟨i, hi, h⟩ := Checked.bind_eq_ok.mp h
  obtain ⟨hv, rfl⟩ := ht.state.split.lt_of_positionOf hi
  refine ⟨hv, ?_⟩
  have hsame (j : Nat) (hj : j < t.nonBasicCount) : violated (fin (coord t.nonBasicValues j))
    = false →
      fin (coord t.nonBasicValues j)
        = if t.split.nonBasicVar j = v ∧ violated (fin (coord t.nonBasicValues j)) = true then bound
          else fin (coord t.nonBasicValues j) := by
    intro hz
    rw [if_neg]
    rintro ⟨-, hc⟩
    rw [hz] at hc
    cases hc
  cases hb : t.split.isBasic v with
  | true =>
    -- a basic variable gets a standing
    have hb' : (t.count .boundTightenings).split.isBasic v = true := hb
    rw [if_pos hb'] at h
    obtain ⟨-, pricing, rfl, hp⟩ := restand_spec (t := t.count .boundTightenings) ht.state h
    obtain ⟨hplace, hvar⟩ := ht.state.split.of_isBasic hv hb
    refine ⟨t.nonBasicValues, _, pricing, ⟨t.basicValues, _, _, rfl⟩,
      ⟨⟨ht.state.revalue ht.state.basic ht.state.nonBasic, ht.answers⟩, ?_, hbasis⟩,
      fun hsolv => ⟨⟨ht.state.revalue ht.state.basic ht.state.nonBasic, hsolv.unit, hsolv.inverse⟩,
        fun _ _ => rfl⟩, hp.imp (fun hp => ⟨hp.1, hp.2.2⟩) (·.1), fun j hj => ?_⟩
    · show t.standings.set _ (t.toState.standing _ _) = freshStandings t.toState _
      rw [hst]
      refine set_map_range f _ fun k hk hne => hf k hk fun e => hne ?_
      rw [← e, ht.state.split.place_basicVar hk]
    · rw [if_neg]
      rintro ⟨e, -⟩
      have := ht.state.split.isBasic_nonBasicVar hj
      rw [e, hb] at this
      cases this
  | false =>
    have hb' : ¬(t.count .boundTightenings).split.isBasic v = true := by
      show ¬t.split.isBasic v = true
      rw [hb]
      exact Bool.false_ne_true
    rw [if_neg hb'] at h
    obtain ⟨x, hx, h⟩ := Checked.bind_eq_ok.mp h
    obtain ⟨hplace, hvar⟩ := ht.state.split.of_not_isBasic hv hb
    rw [show (t.count .boundTightenings).nonBasicValues = t.nonBasicValues from rfl,
      Checked.getAt_eq_ok, ht.state.nonBasic.getElem? hplace] at hx
    cases hx
    -- no row has the variable, so all standings are up to date
    have hsteady : (t.count .boundTightenings).Steady := by
      refine ⟨⟨ht.state, ht.answers⟩, ?_, hbasis⟩
      show t.standings = freshStandings t.toState _
      rw [hst]
      refine List.map_congr_left fun k hk => ?_
      have hk := List.mem_range.mp hk
      exact hf k hk (ht.state.split.basicVar_ne hk hb)
    by_cases hviol : violated (fin (coord t.nonBasicValues (t.split.place v))) = true
    · rw [if_pos hviol] at h
      obtain ⟨b, rfl⟩ := hfin _ hviol
      obtain ⟨-, -, xs, ss, hs, hu, hsolv⟩ := hsteady.moveNonBasic_follow h
      refine ⟨_, ss, _, ⟨xs, hs⟩, hu, fun ht => hsolv ⟨ht.state, ht.unit, ht.inverse⟩, .inr rfl,
        fun j hj => ?_⟩
      show fin (coord (t.nonBasicValues.set (t.split.place v) (fin b)) j) = _
      rw [coord_set_place ht.state hv hb]
      by_cases hjp : j = t.split.place v
      · rw [if_pos hjp, if_pos ⟨by rw [hjp, hvar], by rw [hjp]; exact hviol⟩]
      · rw [if_neg hjp, if_neg]
        rintro ⟨e, -⟩
        exact hjp (by rw [← e, ht.state.split.place_nonBasicVar hj])
    · rw [if_neg hviol] at h
      cases h
      refine ⟨t.nonBasicValues, t.standings, t.pricing, ⟨t.basicValues, _, _, rfl⟩, hsteady,
        fun ht => ⟨⟨ht.state, ht.unit, ht.inverse⟩, fun _ _ => rfl⟩, .inl ⟨rfl, rfl⟩,
        fun j hj => ?_⟩
      rw [if_neg]
      rintro ⟨e, hc⟩
      refine hviol ?_
      rwa [← e, ht.state.split.place_nonBasicVar hj]

/-! ## §3.  Tightening -/

/-- Setting a lower bound writes the bounds and tells about them. -/
theorem setLower_spec {α : Type} [Scalar α] {t u : Tableau α} {v : Nat} {x : α}
    (h : t.setLower v x = .ok u) :
    ∃ bounds, t.bounds.setLower v x = .ok bounds ∧ Silent { t with bounds } u := by
  obtain ⟨_, -, h⟩ := Checked.bind_eq_ok.mp h
  obtain ⟨bounds, hb, h⟩ := Checked.bind_eq_ok.mp h
  cases h
  exact ⟨bounds, hb, silent_tellLower _ _ _⟩

/-- So does setting an upper bound. -/
theorem setUpper_spec {α : Type} [Scalar α] {t u : Tableau α} {v : Nat} {x : α}
    (h : t.setUpper v x = .ok u) :
    ∃ bounds, t.bounds.setUpper v x = .ok bounds ∧ Silent { t with bounds } u := by
  obtain ⟨_, -, h⟩ := Checked.bind_eq_ok.mp h
  obtain ⟨bounds, hb, h⟩ := Checked.bind_eq_ok.mp h
  cases h
  exact ⟨bounds, hb, silent_tellUpper _ _ _⟩

/-- A bound that is replaced leaves the numbers of a tableau alone. -/
theorem Answering.rebound (ht : t.Answering) {bounds : Bounds (Extended K)}
    (hb : bounds.WellFormed t.varCount) : Answering { t with bounds } :=
  ⟨⟨ht.state.matrix, ht.state.rhs, hb, ht.state.split, ht.state.basic, ht.state.nonBasic⟩,
    ht.answers⟩

theorem Solvable.rebound (ht : t.Solvable) {bounds : Bounds (Extended K)}
    (hb : bounds.WellFormed t.varCount) : Solvable { t with bounds } :=
  ⟨⟨ht.state.matrix, ht.state.rhs, hb, ht.state.split, ht.state.basic, ht.state.nonBasic⟩, ht.unit,
    ht.inverse⟩

/-- Standings of rows whose bounds are the same are the same. -/
theorem standing_rebound {bounds : Bounds (Extended K)} {i : Nat} (τ : Extended K)
    (hl : bounds.lowerOf (t.split.basicVar i) = t.bounds.lowerOf (t.split.basicVar i))
    (hu : bounds.upperOf (t.split.basicVar i) = t.bounds.upperOf (t.split.basicVar i)) :
    t.toState.standing τ i = State.standing { t.toState with bounds } τ i := by
  show Standing.classify _ _ _ _ = Standing.classify _ _ _ _
  rw [← hl, ← hu]

/-- **Raising a lower bound.** -/
theorem Steady.tightenLower (ht : t.Steady) {v : Nat} {x : Extended K} (hx : x < Scalar.infinity)
    (h : t.tightenLower v x = .ok u) :
    v < t.varCount ∧ ∃ bounds, t.bounds.setLower v x = .ok bounds ∧ ∃ w ys ss pricing,
      Silent { t with bounds } w
        ∧ TakesEffect w u v x (fun current => decide (current < x)) ys ss pricing := by
  obtain ⟨w, hw, h⟩ := Checked.bind_eq_ok.mp h
  obtain ⟨bounds, hb, j, st, rfl⟩ := setLower_spec hw
  obtain ⟨hv, hbw, hlow, hupp⟩ := ht.state.bounds.setLower hx hb
  -- The new bounds do not matter to the basis.
  have hanswering : Answering { t with bounds, journal := j, statistics := st } :=
    Silent.answering ⟨_, _, rfl⟩ (ht.rebound hbw)
  -- Only a finite bound is violated by a number.
  have hfin (y : K) (hy : decide ((fin y : Extended K) < x) = true) : ∃ b, x = fin b := by
    obtain rfl | ⟨b, rfl⟩ := lt_infinity_iff.mp hx
    · exact absurd (of_decide_eq_true hy) Bool.false_ne_true
    · exact ⟨b, rfl⟩
  obtain ⟨-, ys, ss, pricing, he⟩ := enforce_spec hanswering ht.hasBasis ht.standings
    (fun i _ (hne : t.split.basicVar i ≠ v) => standing_rebound _
      (by rw [hlow, if_neg hne]) (hupp _))
    hfin h
  exact ⟨hv, bounds, hb, _, ys, ss, pricing, ⟨j, st, rfl⟩, he⟩

/-- **Lowering an upper bound.** -/
theorem Steady.tightenUpper (ht : t.Steady) {v : Nat} {x : Extended K} (hx : -Scalar.infinity < x)
    (h : t.tightenUpper v x = .ok u) :
    v < t.varCount ∧ ∃ bounds, t.bounds.setUpper v x = .ok bounds ∧ ∃ w ys ss pricing,
      Silent { t with bounds } w
        ∧ TakesEffect w u v x (fun current => decide (current > x)) ys ss pricing := by
  obtain ⟨w, hw, h⟩ := Checked.bind_eq_ok.mp h
  obtain ⟨bounds, hb, j, st, rfl⟩ := setUpper_spec hw
  obtain ⟨hv, hbw, hlow, hupp⟩ := ht.state.bounds.setUpper hx hb
  -- As before, on the other side.
  have hanswering : Answering { t with bounds, journal := j, statistics := st } :=
    Silent.answering ⟨_, _, rfl⟩ (ht.rebound hbw)
  have hfin (y : K) (hy : decide ((fin y : Extended K) > x) = true) : ∃ b, x = fin b := by
    obtain rfl | ⟨b, rfl⟩ := neg_infinity_lt_iff.mp hx
    · exact absurd (of_decide_eq_true hy) Bool.false_ne_true
    · exact ⟨b, rfl⟩
  obtain ⟨-, ys, ss, pricing, he⟩ := enforce_spec hanswering ht.hasBasis ht.standings
    (fun i _ (hne : t.split.basicVar i ≠ v) => standing_rebound _ (hlow _)
      (by rw [hupp, if_neg hne]))
    hfin h
  exact ⟨hv, bounds, hb, _, ys, ss, pricing, ⟨j, st, rfl⟩, he⟩

theorem Sound.tightenLower (ht : t.Sound) {v : Nat} {x : Extended K} (hx : x < Scalar.infinity)
    (h : t.tightenLower v x = .ok u) :
    v < t.varCount ∧ ∃ bounds, t.bounds.setLower v x = .ok bounds ∧ ∃ w ys ss pricing,
      Silent { t with bounds } w
        ∧ Enforced w u v x (fun current => decide (current < x)) ys ss pricing := by
  obtain ⟨hv, bounds, hb, w, ys, ss, pricing, hw, he⟩ := ht.steady.tightenLower hx h
  obtain ⟨-, hbw, -⟩ := ht.state.bounds.setLower hx hb
  exact ⟨hv, bounds, hb, w, ys, ss, pricing, hw, he.enforced (hw.solvable (ht.rebound hbw))⟩

theorem Sound.tightenUpper (ht : t.Sound) {v : Nat} {x : Extended K} (hx : -Scalar.infinity < x)
    (h : t.tightenUpper v x = .ok u) :
    v < t.varCount ∧ ∃ bounds, t.bounds.setUpper v x = .ok bounds ∧ ∃ w ys ss pricing,
      Silent { t with bounds } w
        ∧ Enforced w u v x (fun current => decide (current > x)) ys ss pricing := by
  obtain ⟨hv, bounds, hb, w, ys, ss, pricing, hw, he⟩ := ht.steady.tightenUpper hx h
  obtain ⟨-, hbw, -⟩ := ht.state.bounds.setUpper hx hb
  exact ⟨hv, bounds, hb, w, ys, ss, pricing, hw, he.enforced (hw.solvable (ht.rebound hbw))⟩

end BoundedSimplex.Tableau
