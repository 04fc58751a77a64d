/-
  BoundedSimplex.Proofs.Tableau.Values — computing and moving values keeps a tableau sound.

  Computing the basic values makes all residuals vanish.  Moving a non-basic variable keeps them if
  the basic variables follow, and changes them by its column otherwise.  Each statement says which
  parts of the tableau change at all.

  Main results:
    * `Solvable.computeValues` — the values are computed afresh;
    * `Steady.moveNonBasic_follow`, `Sound.moveNonBasic_alone` — moving one variable.
-/
import BoundedSimplex.Proofs.Tableau.Sound
import BoundedSimplex.Tableau.Values

namespace BoundedSimplex.Tableau

open Extended

variable {K : Type} [Field K] [LinearOrder K] {t u : Tableau (Extended K)}

/-! ## §1.  Standings -/

/-- The standings of all rows. -/
abbrev freshStandings (s : State (Extended K)) (tolerance : Extended K) : List Standing :=
  (List.range s.rowCount).map (s.standing tolerance)

/-- Recording all standings changes these, where there is room for them. -/
theorem of_classifyAll {α : Type} [Scalar α] {t u : Tableau α} (h : t.classifyAll = .ok u) :
    ∃ standings, t.allStandings t.settings.boundTolerance = .ok standings
      ∧ u = { t with standings } := by
  obtain ⟨_, -, h⟩ := Checked.bind_eq_ok.mp h
  obtain ⟨standings, hall, h⟩ := Checked.bind_eq_ok.mp h
  cases h
  exact ⟨standings, hall, rfl⟩

theorem classifyAll_spec (hs : t.toState.WellFormed) (h : t.classifyAll = .ok u) :
    u = { t with standings := freshStandings t.toState t.settings.boundTolerance } := by
  obtain ⟨standings, hall, rfl⟩ := of_classifyAll h
  rw [hs.allStandings_eq] at hall
  cases hall
  rfl

/-- The same after something was told or counted. -/
theorem Silent.classifyAll {w : Tableau (Extended K)} (hw : Silent t w) (hs : t.toState.WellFormed)
    (h : w.classifyAll = .ok u) :
    Silent { t with standings := freshStandings t.toState t.settings.boundTolerance } u := by
  obtain ⟨j, st, rfl⟩ := hw
  exact ⟨j, st, classifyAll_spec (t := { t with journal := j, statistics := st }) hs h⟩

/-- Recording all standings makes a tableau sound whose numbers are in order. -/
theorem Solvable.classifyAll (ht : t.Solvable) (hb : t.hasBasis = true)
    (h : t.classifyAll = .ok u) :
    u.Sound := by
  obtain rfl := classifyAll_spec ht.state h
  exact ⟨⟨⟨ht.state.matrix, ht.state.rhs, ht.state.bounds, ht.state.split, ht.state.basic,
    ht.state.nonBasic⟩, ht.unit, ht.inverse⟩, rfl, hb⟩

theorem Answering.classifyAll (ht : t.Answering) (hb : t.hasBasis = true)
    (h : t.classifyAll = .ok u) : u.Steady := by
  obtain rfl := classifyAll_spec ht.state h
  exact ⟨⟨⟨ht.state.matrix, ht.state.rhs, ht.state.bounds, ht.state.split, ht.state.basic,
    ht.state.nonBasic⟩, ht.answers⟩, rfl, hb⟩

theorem classifyAt_spec (hs : t.toState.WellFormed) {i : Nat} (h : t.classifyAt i = .ok u) :
    i < t.rowCount ∧ u = { t with
      standings := t.standings.set i (t.toState.standing t.settings.boundTolerance i) } := by
  obtain ⟨standing, hst, h⟩ := Checked.bind_eq_ok.mp h
  obtain ⟨standings, hset, h⟩ := Checked.bind_eq_ok.mp h
  have hi : i < t.rowCount := by
    obtain ⟨v, hv, -⟩ := Checked.bind_eq_ok.mp hst
    exact (hs.split.lt_of_basicAt hv).1
  rw [hs.standingAt_eq _ hi] at hst
  cases hst
  obtain ⟨-, rfl⟩ := Checked.setAt_eq_ok.mp hset
  cases h
  exact ⟨hi, rfl⟩

/-- Replacing one entry of a list of function values by the value of another function. -/
theorem set_map_range {β : Type} {m i : Nat} (f g : Nat → β) (hfg : ∀ k < m, k ≠ i → f k = g k) :
    ((List.range m).map f).set i (g i) = (List.range m).map g := by
  apply List.ext_getElem?
  intro k
  rw [List.getElem?_set]
  by_cases hk : k < m
  · by_cases hik : i = k
    · subst hik
      simp [hk]
    · simp [hk, hik, hfg k hk (Ne.symm hik)]
  · have hnone (h : Nat → β) : ((List.range m).map h)[k]? = none :=
      List.getElem?_eq_none (by simpa using hk)
    rw [hnone f, hnone g]
    by_cases hik : i = k
    · subst hik
      simp [hk]
    · rw [if_neg hik]

/-! ## §2.  All basic values at once -/

/-- **Computing the basic values** solves the equations for them. -/
theorem Solvable.computeValues (ht : t.Solvable) (h : t.computeValues = .ok u) :
    ∃ xs, Silent { t with
        basicValues := xs
        settled := true
        standings := freshStandings { t.toState with basicValues := xs } t.settings.boundTolerance
        pricing := t.pricing.invalidate } u
      ∧ u.Solvable ∧ ∀ i < t.rowCount, u.toState.residual i = 0 := by
  obtain ⟨_, -, h⟩ := Checked.bind_eq_ok.mp h
  obtain ⟨ys, hys, h⟩ := Checked.bind_eq_ok.mp h
  obtain ⟨xs, hxs, h⟩ := Checked.bind_eq_ok.mp h
  obtain ⟨w, hw, h⟩ := Checked.bind_eq_ok.mp h
  obtain ⟨pairs, -, h⟩ := Checked.bind_eq_ok.mp h
  have hsil : Silent w.invalidatePrices u := by
    cases h
    exact silent_tellValues _ pairs
  obtain ⟨ys', hys', hyn, hyc⟩ := ht.state.remainder_eq
  rw [hys] at hys'
  cases hys'
  obtain ⟨xs', hxs', hxn, hxc⟩ := ht.solveColumn_spec hyn
  rw [hxs] at hxs'
  cases hxs'
  have hstate : State.WellFormed { t.toState with basicValues := xs, settled := true } :=
    ht.state.revalue hxn ht.state.nonBasic
  obtain ⟨j, st, rfl⟩ := Silent.classifyAll (t := { t with basicValues := xs, settled := true })
    (silent_count _ .assignmentComputations) hstate hw
  obtain ⟨j, st, rfl⟩ := hsil
  refine ⟨xs, ⟨j, st, rfl⟩, ⟨ht.state.revalue hxn ht.state.nonBasic, ht.unit, ht.inverse⟩,
    fun i hi => ?_⟩
  refine State.residual_solved (ht.state.revalue hxn ht.state.nonBasic) ?_
  exact (hxc i hi).trans (hyc i hi)

/-- What is left of that by a caller that only looks at the state. -/
theorem Solvable.computeValues_state (ht : t.Solvable) (hb : t.hasBasis = true)
    (h : t.computeValues = .ok u) :
    u.Sound ∧ u.settings = t.settings ∧ (∀ i < t.rowCount, u.toState.residual i = 0)
      ∧ ∃ xs ss, u.toState
        = { t.toState with basicValues := xs, settled := true, standings := ss } := by
  obtain ⟨xs, ⟨_, _, rfl⟩, hu, hres⟩ := ht.computeValues h
  exact ⟨⟨hu, rfl, hb⟩, rfl, hres, xs, _, rfl⟩

/-! ## §3.  Moving one variable -/

/-- The basic values after a move. -/
theorem numbers_shift {m : Nat} (δ : K) :
    ∀ {xs column : List (Extended K)}, Numbers m xs → Numbers m column →
      Numbers m (shift (fin δ) xs column)
        ∧ ∀ i < m, coord (shift (fin δ) xs column) i = coord xs i - coord column i * δ := by
  induction m with
  | zero =>
    intro xs column hx hc
    obtain rfl := List.length_eq_zero_iff.mp hx.length
    obtain rfl := List.length_eq_zero_iff.mp hc.length
    exact ⟨Numbers.nil, fun i hi => absurd hi (Nat.not_lt_zero i)⟩
  | succ m ih =>
    intro xs column hx hc
    obtain ⟨x, xs, rfl⟩ := List.exists_cons_of_length_pos (l := xs) (by rw [hx.length]; omega)
    obtain ⟨c, column, rfl⟩ :=
      List.exists_cons_of_length_pos (l := column) (by rw [hc.length]; omega)
    obtain ⟨a, rfl⟩ := isFinite_iff.mp (hx.finite x List.mem_cons_self)
    obtain ⟨d, rfl⟩ := isFinite_iff.mp (hc.finite c List.mem_cons_self)
    have htail {zs : List (Extended K)} {z : Extended K} (hz : Numbers (m + 1) (z :: zs)) :
        Numbers m zs :=
      ⟨by simpa using hz.length, fun y hy => hz.finite y (List.mem_cons_of_mem _ hy)⟩
    obtain ⟨hn, hcoord⟩ := ih (htail hx) (htail hc)
    have hhead : (if (fin d : Extended K) == 0 then fin a else fin a - fin d * fin δ)
        = fin (a - d * δ) := by
      rw [zero_eq, fin_beq]
      by_cases hd : d = 0
      · simp [hd]
      · rw [if_neg (by simpa using hd), fin_mul, fin_sub]
    rw [shift, hhead]
    refine ⟨?_, fun i hi => ?_⟩
    · rw [Nat.add_comm]
      exact (Numbers.singleton _).append hn
    · cases i with
      | zero => rw [coord_cons_zero, coord_cons_zero, coord_cons_zero]
      | succ i =>
        rw [coord_cons_succ, coord_cons_succ, coord_cons_succ]
        exact hcoord i (by omega)

/-- The basic variables follow the move of the variable `v`. -/
theorem followMove_spec (ht : t.Answering) {v : Nat} {δ : K} (h : t.followMove v (fin δ) = .ok u) :
    (δ = 0 ∧ u = t) ∨ ∃ col column xs, t.matrix.column v = .ok col
      ∧ t.inverse.solveColumn col = .ok column ∧ Numbers t.rowCount xs
        ∧ (∀ i < t.rowCount, coord xs i = coord t.basicValues i - coord column i * δ)
        ∧ Silent { t with
            basicValues := xs
            standings := freshStandings { t.toState with basicValues := xs }
              t.settings.boundTolerance } u := by
  unfold followMove at h
  rw [zero_eq, fin_beq] at h
  by_cases hδ : δ = 0
  · rw [if_pos (decide_eq_true hδ)] at h
    cases h
    exact .inl ⟨hδ, rfl⟩
  · rw [if_neg (by simpa using hδ)] at h
    obtain ⟨col, hcol, h⟩ := Checked.bind_eq_ok.mp h
    obtain ⟨column, hs, h⟩ := Checked.bind_eq_ok.mp h
    obtain ⟨pairs, -, h⟩ := Checked.bind_eq_ok.mp h
    obtain ⟨-, hc⟩ := ht.numbers_of_column hcol hs
    obtain ⟨hn, hcoord⟩ := numbers_shift δ ht.state.basic hc
    have hstate : State.WellFormed { t.toState with
        basicValues := shift (fin δ) t.basicValues column } :=
      ht.state.revalue hn ht.state.nonBasic
    exact .inr ⟨col, column, _, hcol, hs, hn, hcoord, Silent.classifyAll
      (t := { t with basicValues := shift (fin δ) t.basicValues column })
      (silent_tellValues _ pairs) hstate h⟩

/-- What a move needs and does first: the variable exists, is not basic, and takes the new value. -/
theorem moveNonBasic_spec (ht : t.toState.WellFormed) {v : Nat} {x : Extended K} {follow : Bool}
    (h : t.moveNonBasic v x follow = .ok u) :
    v < t.varCount ∧ t.split.isBasic v = false ∧ ∃ w,
      Silent { t with nonBasicValues := t.nonBasicValues.set (t.split.place v) x } w
        ∧ (if follow then w.followMove v (x - fin (t.toState.stored v))
            else Except.ok (w.setSettled false)) >>= (fun w => Except.ok w.invalidatePrices)
              = .ok u := by
  obtain ⟨_, hb, h⟩ := Checked.bind_eq_ok.mp h
  obtain ⟨j, hj, h⟩ := Checked.bind_eq_ok.mp h
  obtain ⟨old, hold, h⟩ := Checked.bind_eq_ok.mp h
  rw [Checked.require_eq_ok] at hb
  obtain ⟨hv, rfl⟩ := ht.split.lt_of_positionOf hj
  obtain ⟨hplace, -⟩ := ht.split.of_not_isBasic hv hb
  rw [Checked.getAt_eq_ok, ht.nonBasic.getElem? hplace] at hold
  cases hold
  refine ⟨hv, hb, _, (silent_remark _ (.movingNonBasic v x)).trans (silent_tellValue _ v x), ?_⟩
  have hstored : t.toState.stored v = coord t.nonBasicValues (t.split.place v) := by
    rw [State.stored, if_neg (by rw [hb]; exact Bool.false_ne_true)]
  rw [hstored]
  cases follow
  · exact h
  · exact h

/-- The values after one non-basic variable was set. -/
theorem coord_set_place (ht : t.toState.WellFormed) {v : Nat} (hv : v < t.varCount)
    (hb : t.split.isBasic v = false) (x : K) (l : Nat) :
    coord (t.nonBasicValues.set (t.split.place v) (fin x)) l
      = if l = t.split.place v then x else coord t.nonBasicValues l := by
  refine coord_set ?_ x l
  rw [ht.nonBasic.length]
  exact (ht.split.of_not_isBasic hv hb).1

/-- **Moving a non-basic variable while the basic ones follow** keeps all residuals
    of a sound tableau. -/
theorem Steady.moveNonBasic_follow (ht : t.Steady) {v : Nat} {x : K}
    (h : t.moveNonBasic v (fin x) true = .ok u) :
    v < t.varCount ∧ t.split.isBasic v = false ∧ ∃ xs ss,
      Silent { t with
          basicValues := xs
          nonBasicValues := t.nonBasicValues.set (t.split.place v) (fin x)
          standings := ss
          pricing := t.pricing.invalidate } u
        ∧ u.Steady
        ∧ (t.Solvable → u.Solvable ∧ ∀ i < t.rowCount, u.toState.residual i
          = t.toState.residual i) := by
  obtain ⟨hv, hb, w, ⟨j, st, rfl⟩, h⟩ := moveNonBasic_spec ht.state h
  refine ⟨hv, hb, ?_⟩
  obtain ⟨hplace, hvar⟩ := ht.state.split.of_not_isBasic hv hb
  have hnon := ht.state.nonBasic.set (t.split.place v) x
  have hmoved : State.WellFormed { t.toState with
      nonBasicValues := t.nonBasicValues.set (t.split.place v) (fin x) } :=
    ht.state.revalue ht.state.basic hnon
  have hstored : t.toState.stored v = coord t.nonBasicValues (t.split.place v) := by
    rw [State.stored, if_neg (by rw [hb]; exact Bool.false_ne_true)]
  have hset := coord_set_place ht.state hv hb x
  rw [if_pos rfl, fin_sub] at h
  obtain ⟨w, hw, h⟩ := Checked.bind_eq_ok.mp h
  cases h
  rcases followMove_spec (t := { t with
      nonBasicValues := t.nonBasicValues.set (t.split.place v) (fin x)
      journal := j
      statistics := st }) ⟨hmoved, ht.answers⟩ hw
    with ⟨hz, rfl⟩ | ⟨col, column, xs, hcol, hs, hn, hx, hsil⟩
  · -- the value is the one that the variable has already
    refine ⟨t.basicValues, t.standings, ⟨j, st, rfl⟩,
      ⟨⟨hmoved, ht.answers⟩, ht.standings, ht.hasBasis⟩,
      fun hsolv => ⟨⟨hmoved, hsolv.unit, hsolv.inverse⟩, fun i hi => ?_⟩⟩
    have hcoord (l : Nat) : coord (t.nonBasicValues.set (t.split.place v) (fin x)) l
        = coord t.nonBasicValues l := by
      rw [hset]
      by_cases hl : l = t.split.place v
      · rw [if_pos hl, hl, ← hstored]
        exact sub_eq_zero.mp hz
      · rw [if_neg hl]
    show State.residual { t.toState with
      nonBasicValues := t.nonBasicValues.set (t.split.place v) (fin x) } i = _
    rw [hmoved.residual_eq, ht.state.residual_eq]
    simp only [hcoord]
    rfl
  · -- the basic values take up the change, each with its entry of the column
    obtain ⟨j', st', rfl⟩ := hsil
    refine ⟨xs, _, ⟨j', st', rfl⟩, ⟨⟨ht.state.revalue hn hnon, ht.answers⟩, rfl, ht.hasBasis⟩,
      fun hsolv => ⟨⟨ht.state.revalue hn hnon, hsolv.unit, hsolv.inverse⟩, fun i hi => ?_⟩⟩
    have hc : t.toState.IsColumn column (t.split.nonBasicVar (t.split.place v)) := by
      rw [hvar]
      exact (hsolv.isColumn hcol hs).2
    rw [hstored] at hx
    exact State.residual_shifted ht.state (ht.state.revalue hn hnon) rfl rfl rfl hplace hc hx rfl hi

theorem Sound.moveNonBasic_follow (ht : t.Sound) {v : Nat} {x : K}
    (h : t.moveNonBasic v (fin x) true = .ok u) :
    v < t.varCount ∧ t.split.isBasic v = false ∧ ∃ xs ss,
      Silent { t with
          basicValues := xs
          nonBasicValues := t.nonBasicValues.set (t.split.place v) (fin x)
          standings := ss
          pricing := t.pricing.invalidate } u
        ∧ u.Sound ∧ ∀ i < t.rowCount, u.toState.residual i = t.toState.residual i := by
  obtain ⟨hv, hb, xs, ss, hs, hu, hsolv⟩ := ht.steady.moveNonBasic_follow h
  obtain ⟨husolv, hresidual⟩ := hsolv ht.toSolvable
  exact ⟨hv, hb, xs, ss, hs, hu.sound husolv, hresidual⟩

/-- **Moving a non-basic variable alone** changes the residuals by its column. -/
theorem Sound.moveNonBasic_alone (ht : t.Sound) {v : Nat} {x : K}
    (h : t.moveNonBasic v (fin x) false = .ok u) :
    v < t.varCount ∧ t.split.isBasic v = false
      ∧ Silent { t with
          nonBasicValues := t.nonBasicValues.set (t.split.place v) (fin x)
          settled := false
          pricing := t.pricing.invalidate } u
      ∧ u.Sound ∧ ∀ i, u.toState.residual i
        = t.toState.residual i + t.matrix.coeff i v * (x - t.toState.stored v) := by
  obtain ⟨hv, hb, w, ⟨j, st, rfl⟩, h⟩ := moveNonBasic_spec ht.state h
  obtain ⟨hplace, hvar⟩ : t.split.place v < t.nonBasicCount ∧ _ :=
    ht.state.split.of_not_isBasic hv hb
  have hnon := ht.state.nonBasic.set (t.split.place v) x
  have hmoved : State.WellFormed { t.toState with
      nonBasicValues := t.nonBasicValues.set (t.split.place v) (fin x), settled := false } :=
    ht.state.revalue ht.state.basic hnon
  have hstored : t.toState.stored v = coord t.nonBasicValues (t.split.place v) := by
    rw [State.stored, if_neg (by rw [hb]; exact Bool.false_ne_true)]
  have hset := coord_set_place ht.state hv hb x
  rw [if_neg Bool.false_ne_true] at h
  cases h
  refine ⟨hv, hb, ⟨j, st, rfl⟩, ⟨⟨hmoved, ht.unit, ht.inverse⟩, ht.standings, ht.hasBasis⟩,
    fun i => ?_⟩
  show State.residual { t.toState with
    nonBasicValues := t.nonBasicValues.set (t.split.place v) (fin x), settled := false } i = _
  rw [hmoved.residual_eq, ht.state.residual_eq]
  -- only the term of `v` is another one
  have hterm (l : Nat) : t.matrix.coeff i (t.split.nonBasicVar l)
        * coord (t.nonBasicValues.set (t.split.place v) (fin x)) l
      = if l = t.split.place v then t.matrix.coeff i v * x
        else t.matrix.coeff i (t.split.nonBasicVar l) * coord t.nonBasicValues l := by
    rw [hset]
    by_cases hl : l = t.split.place v
    · rw [if_pos hl, if_pos hl, hl, hvar]
    · rw [if_neg hl, if_neg hl]
  show ∑ k ∈ Finset.range t.rowCount, t.matrix.coeff i (t.split.basicVar k) * coord t.basicValues k
      + ∑ l ∈ Finset.range t.nonBasicCount, t.matrix.coeff i (t.split.nonBasicVar l)
          * coord (t.nonBasicValues.set (t.split.place v) (fin x)) l
      - coord t.rightHandSide i = _
  rw [Finset.sum_congr rfl fun l _ => hterm l, State.sum_replace hplace, hvar, hstored]
  ring

end BoundedSimplex.Tableau
