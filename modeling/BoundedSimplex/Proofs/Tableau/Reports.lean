/-
  BoundedSimplex.Proofs.Tableau.Reports — every operation on a tableau with a basis reports itself.

  Notices are sent from many places, some of them after an exchange changed what the rows
  stand for.  Each lemma below says that the notices of one operation are all it takes to keep
  a picture of the tableau right, whatever the arithmetic, and whether the operation replies
  or fails half-way.

  Main results:
    * `reports_moveNonBasic`, `reports_computeValues`, `reports_performPivot`,
      `reports_performDegenerate` — values;
    * `reports_tightenLower`, `reports_tightenUpper` — bounds, and the values that give way;
    * `reports_addEquation`, `reports_merge` — growing and merging.
-/
import Mathlib.Data.List.GetD
import BoundedSimplex.Proofs.Mirror
import BoundedSimplex.Proofs.Tableau.ShapeSetup

namespace BoundedSimplex

variable {α : Type} [Scalar α]

namespace BasisSplit.WellFormed

/-- Every variable stands in one of the two lists. -/
theorem cases {m n : Nat} {s : BasisSplit} (h : s.WellFormed m n) {v : Nat} (hv : v < n) :
    (∃ i < m, v = s.basicVar i) ∨ ∃ j < n - m, v = s.nonBasicVar j := by
  cases hb : s.isBasic v with
  | true =>
    obtain ⟨hi, hvar⟩ := h.of_isBasic hv hb
    exact .inl ⟨_, hi, hvar.symm⟩
  | false =>
    obtain ⟨hj, hvar⟩ := h.of_not_isBasic hv hb
    exact .inr ⟨_, hj, hvar.symm⟩

end BasisSplit.WellFormed

namespace Tableau

variable {solved : Prop} {σ : Settings α} {t u w : Tableau α}

/-! ## §1.  Operations that change nothing that is watched -/

theorem sight_remarkIf (t : Tableau α) (b : Bool) (r : Remark α) :
    (t.remarkIf b r).sight = t.sight := by
  cases b <;> rfl

theorem sight_classifyAt {i : Nat} (h : t.classifyAt i = .ok u) : u.sight = t.sight := by
  obtain ⟨_, -, h⟩ := Checked.bind_eq_ok.mp h
  obtain ⟨_, -, h⟩ := Checked.bind_eq_ok.mp h
  cases h
  rfl

theorem sight_classify {v : Nat} (h : t.classify v = .ok u) : u.sight = t.sight := by
  obtain ⟨_, -, h⟩ := Checked.bind_eq_ok.mp h
  obtain ⟨_, -, h⟩ := Checked.bind_eq_ok.mp h
  exact sight_classifyAt h

theorem sight_classifyAll (h : t.classifyAll = .ok u) : u.sight = t.sight := by
  obtain ⟨_, -, rfl⟩ := of_classifyAll h
  rfl

theorem sight_refactor {r : Except Failure Unit} (h : t.refactor = .ok (r, u)) :
    u.sight = t.sight := by
  rw [refactor_eq_refresh] at h
  obtain ⟨columns, -, h⟩ := Checked.bind_eq_ok.mp h
  split at h <;> cases h <;> rfl

theorem sight_finish (h : t.finish = .ok u) : u.sight = t.sight := by
  unfold finish refactorIfDue at h
  split at h
  · obtain ⟨⟨r, w⟩, hw, h⟩ := Checked.bind_eq_ok.mp h
    have hsame : w.sight = t.clearPlan.sight := sight_refactor hw
    cases r <;> cases h <;> exact hsame
  · cases h
    rfl

theorem sight_computeMultipliers {costs : List α} (h : t.computeMultipliers costs = .ok u) :
    u.sight = t.sight := by
  obtain ⟨_, -, h⟩ := Checked.bind_eq_ok.mp h
  obtain ⟨_, -, h⟩ := Checked.bind_eq_ok.mp h
  cases h
  rfl

theorem sight_computePrices (h : t.computePrices = .ok u) : u.sight = t.sight := by
  obtain ⟨_, -, h⟩ := Checked.bind_eq_ok.mp h
  obtain ⟨_, -, h⟩ := Checked.bind_eq_ok.mp h
  cases h
  rfl

theorem sight_followExchange {j i : Nat} {element : α} (h : t.followExchange j i element = .ok u) :
    u.sight = t.sight ∧ u.plan = t.plan := by
  unfold followExchange at h
  split at h
  · split at h
    · obtain ⟨⟨pricing, changed⟩, -, h⟩ := Checked.bind_eq_ok.mp h
      cases h
      cases changed <;> cases t.pricing.records <;> exact ⟨rfl, rfl⟩
    · cases h
      exact ⟨rfl, rfl⟩
  · cases h
    exact ⟨rfl, rfl⟩

theorem sight_selectEntering {j : Nat} (h : t.selectEntering j = .ok u) : u.sight = t.sight := by
  obtain ⟨-, rfl⟩ := selectEntering_spec h
  rfl

theorem sight_chooseEntering {rule next : EnteringRule} {found : Bool}
    (h : t.chooseEntering rule = .ok (found, next, u)) : u.sight = t.sight := by
  obtain ⟨_, -, h⟩ := Checked.bind_eq_ok.mp h
  obtain ⟨⟨chosen, _⟩, -, h⟩ := Checked.bind_eq_ok.mp h
  cases chosen with
  | none =>
    cases h
    rfl
  | some j =>
    obtain ⟨v, hv, h⟩ := Checked.bind_eq_ok.mp h
    cases h
    exact sight_selectEntering hv

theorem sight_selectLeaving {i : Nat} (h : t.selectLeaving i = .ok u) : u.sight = t.sight := by
  obtain ⟨-, rfl⟩ := selectLeaving_spec h
  rfl

theorem sight_setDistance {x : α} (h : t.setDistance x = .ok u) : u.sight = t.sight := by
  obtain ⟨_, -, h⟩ := Checked.bind_eq_ok.mp h
  cases h
  rfl

theorem sight_setColumn {column : List α} (h : t.setColumn column = .ok u) : u.sight = t.sight := by
  obtain ⟨_, -, h⟩ := Checked.bind_eq_ok.mp h
  cases h
  rfl

theorem sight_computeColumn (h : t.computeColumn = .ok u) : u.sight = t.sight := by
  obtain ⟨_, -, h⟩ := Checked.bind_eq_ok.mp h
  obtain ⟨_, -, h⟩ := Checked.bind_eq_ok.mp h
  obtain ⟨_, -, h⟩ := Checked.bind_eq_ok.mp h
  obtain ⟨_, -, h⟩ := Checked.bind_eq_ok.mp h
  cases h
  rfl

theorem sight_computeRow (h : t.computeRow = .ok u) : u.sight = t.sight := by
  obtain ⟨_, _, -, -, rfl⟩ := computeRow_spec h
  rfl

theorem sight_standardRatioTest (h : t.standardRatioTest = .ok u) : u.sight = t.sight := by
  obtain ⟨_, -, h⟩ := Checked.bind_eq_ok.mp h
  obtain ⟨_, -, h⟩ := Checked.bind_eq_ok.mp h
  obtain ⟨_, -, h⟩ := Checked.bind_eq_ok.mp h
  obtain rfl := of_conclude h
  rfl

theorem sight_harrisRatioTest (h : t.harrisRatioTest = .ok u) : u.sight = t.sight := by
  obtain ⟨falls, -, h⟩ := Checked.bind_eq_ok.mp h
  obtain ⟨range, -, h⟩ := Checked.bind_eq_ok.mp h
  obtain ⟨bound, -, h⟩ := Checked.bind_eq_ok.mp h
  split at h
  · obtain rfl := of_conclude h
    rfl
  · obtain ⟨scan, -, h⟩ := Checked.bind_eq_ok.mp h
    split at h
    · obtain rfl := of_conclude h
      exact sight_remarkIf ..
    · obtain rfl := of_conclude h
      rfl

theorem sight_chooseLeaving (h : t.chooseLeaving = .ok u) : u.sight = t.sight := by
  obtain ⟨_, -, h⟩ := Checked.bind_eq_ok.mp h
  split at h
  · obtain ⟨w, hw, h⟩ := Checked.bind_eq_ok.mp h
    obtain ⟨_, -, h⟩ := Checked.bind_eq_ok.mp h
    obtain ⟨_, -, h⟩ := Checked.bind_eq_ok.mp h
    cases h
    exact (sight_harrisRatioTest hw :)
  · obtain ⟨w, hw, h⟩ := Checked.bind_eq_ok.mp h
    obtain ⟨_, -, h⟩ := Checked.bind_eq_ok.mp h
    obtain ⟨_, -, h⟩ := Checked.bind_eq_ok.mp h
    cases h
    exact (sight_standardRatioTest hw :)

theorem sight_setCoefficients {xs : List α}
    (h : t.setCoefficients xs = .ok u) : u.sight = t.sight := by
  obtain ⟨matrix, hm, h⟩ := Checked.bind_eq_ok.mp h
  cases h
  simp only [sight, State.varCount, (SystemMatrix.Shaped.ofRowMajor hm).columnCount]

theorem sight_setCoefficient (ht : t.toState.Shaped) {i j : Nat} {x : α}
    (h : t.setCoefficient i j x = .ok u) : u.sight = t.sight := by
  obtain ⟨matrix, hm, h⟩ := Checked.bind_eq_ok.mp h
  cases h
  simp only [sight, State.varCount, (ht.matrix.set hm).columnCount]

theorem sight_setRightHandSide {xs : List α} (h : t.setRightHandSide xs = .ok u) :
    u.sight = t.sight := by
  obtain ⟨_, -, h⟩ := Checked.bind_eq_ok.mp h
  cases h
  rfl

theorem sight_setRightHandSideAt {i : Nat} {x : α} (h : t.setRightHandSideAt i x = .ok u) :
    u.sight = t.sight := by
  obtain ⟨_, -, h⟩ := Checked.bind_eq_ok.mp h
  cases h
  rfl

theorem sight_checkBounds {v : Nat} {valid : Bool} (h : t.checkBounds v = .ok (valid, u)) :
    u.sight = t.sight := by
  obtain ⟨⟨b, bounds⟩, hb, h⟩ := Checked.bind_eq_ok.mp h
  cases h
  obtain ⟨hl, hu⟩ := Bounds.check_lists hb
  simp only [sight, hl, hu]
  rfl

theorem sight_checkAllBounds {valid : Bool} (h : t.checkAllBounds = .ok (valid, u)) :
    u.sight = t.sight := by
  obtain ⟨⟨b, bounds⟩, hb, h⟩ := Checked.bind_eq_ok.mp h
  cases h
  obtain ⟨hl, hu⟩ := Bounds.checkAll_lists hb
  simp only [sight, hl, hu]
  rfl

theorem sight_save {s : State α} (h : t.save = .ok (s, u)) : u.sight = t.sight := by
  obtain ⟨_, -, h⟩ := Checked.bind_eq_ok.mp h
  cases h
  rfl

/-! ## §2.  Bounds -/

theorem reports_setLower {v : Nat} {x : α} (h : t.setLower v x = .ok u) : Reports t u := by
  obtain ⟨_, -, h⟩ := Checked.bind_eq_ok.mp h
  obtain ⟨bounds, hb, h⟩ := Checked.bind_eq_ok.mp h
  cases h
  obtain ⟨hlowers, huppers⟩ := Bounds.setLower_lists hb
  obtain ⟨_, hset, -⟩ := Checked.bind_eq_ok.mp hb
  have hlt := (Checked.setAt_eq_ok.mp hset).1
  refine ⟨[.lower v x], rfl, rfl, fun _ => id, by rw [Watchers.deliver_singleton]; rfl,
    fun m hm => ⟨hm.value, fun k hk => ?_, fun k hk => ?_⟩⟩
  · show Function.update m.lower v x k = bounds.lowers.getD k 0
    rw [hlowers, getD_set hlt, Function.update_apply, ← hm.lower k hk]
  · show m.upper k = bounds.uppers.getD k 0
    rw [huppers]
    exact hm.upper k hk

theorem reports_setUpper {v : Nat} {x : α} (h : t.setUpper v x = .ok u) : Reports t u := by
  obtain ⟨_, -, h⟩ := Checked.bind_eq_ok.mp h
  obtain ⟨bounds, hb, h⟩ := Checked.bind_eq_ok.mp h
  cases h
  obtain ⟨hlowers, huppers⟩ := Bounds.setUpper_lists hb
  obtain ⟨_, hset, -⟩ := Checked.bind_eq_ok.mp hb
  have hlt := (Checked.setAt_eq_ok.mp hset).1
  refine ⟨[.upper v x], rfl, rfl, fun _ => id, by rw [Watchers.deliver_singleton]; rfl,
    fun m hm => ⟨hm.value, fun k hk => ?_, fun k hk => ?_⟩⟩
  · show m.lower k = bounds.lowers.getD k 0
    rw [hlowers]
    exact hm.lower k hk
  · show Function.update m.upper v x k = bounds.uppers.getD k 0
    rw [huppers, getD_set hlt, Function.update_apply, ← hm.upper k hk]

/-! ## §3.  Moves along a column -/

/-- Rows that the column does not reach keep their values. -/
theorem getD_shift (δ : α) (xs column : List α) (i : Nat)
    (h : ∀ c, column[i]? = some c → (c == 0) = true) :
    (shift δ xs column).getD i 0 = xs.getD i 0 := by
  induction xs generalizing column i with
  | nil => cases column <;> rfl
  | cons x xs ih =>
    cases column with
    | nil => rfl
    | cons c cs =>
      cases i with
      | zero =>
        rw [shift, if_pos (h c rfl)]
        rfl
      | succ i => exact ih cs i h

/-- What is told of a move: every row that the column reaches, with the value there. -/
theorem movedPairs_spec {m n : Nat} (hs : t.split.WellFormed m n) {column : List α}
    {pairs : List (Nat × α)} (h : t.movedPairs column = .ok pairs) :
    (∀ p ∈ pairs, t.held p.1 = p.2)
      ∧ ∀ i < m, (∀ p ∈ pairs, p.1 ≠ t.split.basicVar i) →
        ∀ c, column[i]? = some c → (c == 0) = true := by
  constructor
  -- Each pair is a basic variable with the value it has.
  · intro p hp
    obtain ⟨⟨c, i⟩, -, hpair⟩ := Checked.exists_of_mem_mapM h hp
    obtain ⟨v, hv, hpair⟩ := Checked.bind_eq_ok.mp hpair
    obtain ⟨x, hx, hpair⟩ := Checked.bind_eq_ok.mp hpair
    cases hpair
    obtain ⟨hi, rfl⟩ := hs.lt_of_basicAt hv
    rw [State.held_basicVar hs hi, List.getD_eq_getElem?_getD, Checked.getAt_eq_ok.mp hx,
      Option.getD_some]
  -- A row that is in no pair has a zero in the column, so it has not moved.
  · intro i hi hnot c hc
    by_contra hne
    have hmem : (c, i) ∈ column.zipIdx.filter fun p => !(p.1 == 0) :=
      List.mem_filter.mpr ⟨List.mk_mem_zipIdx_iff_getElem?.mpr hc, by simpa using hne⟩
    obtain ⟨p, hp, hpair⟩ := Checked.exists_of_mapM h hmem
    obtain ⟨v, hv, hpair⟩ := Checked.bind_eq_ok.mp hpair
    obtain ⟨x, -, hpair⟩ := Checked.bind_eq_ok.mp hpair
    cases hpair
    exact hnot _ hp (hs.lt_of_basicAt hv).2

/-- **A move along a column**, and what is told of it. -/
theorem reports_shifted (hs : t.split.WellFormed t.rowCount t.varCount) (δ : α) {column : List α}
    {pairs : List (Nat × α)} (hpairs : u.movedPairs column = .ok pairs) (hframe : Framed t u)
    (hquiet : u.journal.notices = t.journal.notices) (hsplit : u.split = t.split)
    (hbasic : u.basicValues = shift δ t.basicValues column)
    (hothers : u.nonBasicValues = t.nonBasicValues) : Reports t (u.tellValues pairs) := by
  have hsu : u.split.WellFormed t.rowCount t.varCount := hsplit ▸ hs
  have hstate : (u.tellValues pairs).toState = u.toState := (silent_tellValues u pairs).toState
  have htold := hframe.tellValues pairs
  obtain ⟨htrue, hzero⟩ := movedPairs_spec hsu hpairs
  refine reports_values htold (tellsValues_tellValues hquiet hframe.watchers pairs) (hstate ▸ htrue)
    fun k hk hnot => ?_
  rw [hstate]
  rcases hsu.cases (htold.vars ▸ hk) with ⟨i, hi, rfl⟩ | ⟨l, hl, rfl⟩
  · rw [State.held_basicVar hsu hi, hbasic, getD_shift _ _ _ _ (hzero i hi hnot), hsplit,
      State.held_basicVar hs hi]
  · rw [State.held_nonBasicVar hsu hl, hothers, hsplit, State.held_nonBasicVar hs hl]

/-- **A new value of a non-basic variable** that was told. -/
theorem reports_placed (ht : t.toState.Shaped) (hs : t.split.WellFormed t.rowCount t.varCount)
    {j : Nat} (hj : j < t.nonBasicCount) {x : α} (hframe : Framed t u)
    (htold : TellsValues t u [(t.split.nonBasicVar j, x)]) (hsplit : u.split = t.split)
    (hbasic : u.basicValues = t.basicValues)
    (hothers : u.nonBasicValues = t.nonBasicValues.set j x) : Reports t u := by
  have hsu : u.split.WellFormed t.rowCount t.varCount := hsplit ▸ hs
  have hlen : j < t.nonBasicValues.length := ht.nonBasicValues.symm ▸ hj
  refine reports_values hframe htold (fun p hp => ?_) fun k hk hnot => ?_
  · cases List.mem_singleton.mp hp
    rw [← hsplit, State.held_nonBasicVar hsu hj, hothers, getD_set hlen, if_pos rfl]
  · rcases hsu.cases (hframe.vars ▸ hk) with ⟨i, hi, rfl⟩ | ⟨l, hl, rfl⟩
    · rw [State.held_basicVar hsu hi, hbasic, hsplit, State.held_basicVar hs hi]
    · have hne : l ≠ j := fun e => hnot _ (List.mem_singleton_self _) (by rw [e, hsplit])
      rw [State.held_nonBasicVar hsu hl, hothers, getD_set hlen, if_neg hne, hsplit,
        State.held_nonBasicVar hs hl]

/-- **The basic variables follow a move.** -/
theorem reports_followMove (hs : t.split.WellFormed t.rowCount t.varCount) {v : Nat} {δ : α}
    (h : t.followMove v δ = .ok u) : Reports t u := by
  unfold followMove at h
  split at h
  · cases h
    exact .refl t
  obtain ⟨_, -, h⟩ := Checked.bind_eq_ok.mp h
  obtain ⟨column, -, h⟩ := Checked.bind_eq_ok.mp h
  obtain ⟨pairs, hpairs, h⟩ := Checked.bind_eq_ok.mp h
  refine Reports.trans ?_ (.of_sight (sight_classifyAll h))
  exact reports_shifted hs δ hpairs ⟨rfl, rfl, rfl, rfl, rfl, rfl⟩ rfl rfl rfl rfl

/-- **A move of a non-basic variable**, whether the basic ones follow or not. -/
theorem reports_moveNonBasic (ht : t.toState.Shaped)
    (hs : t.split.WellFormed t.rowCount t.varCount) {v : Nat} {x : α} {follow : Bool}
    (h : t.moveNonBasic v x follow = .ok u) : Reports t u := by
  obtain ⟨_, hrole, h⟩ := Checked.bind_eq_ok.mp h
  obtain ⟨j, hj, h⟩ := Checked.bind_eq_ok.mp h
  obtain ⟨old, -, h⟩ := Checked.bind_eq_ok.mp h
  have hrole := Checked.require_eq_ok.mp hrole
  obtain ⟨hv, rfl⟩ := hs.lt_of_positionOf hj
  obtain ⟨hlt, hvar⟩ := hs.of_not_isBasic hv hrole
  -- The variable itself is told before the basic ones follow.
  have hplaced : Reports t (({ t with
      nonBasicValues := t.nonBasicValues.set (t.split.place v) x
        }.remark (.movingNonBasic v x)).tellValue v x) := by
    refine reports_placed ht hs hlt ⟨rfl, rfl, rfl, rfl, rfl, rfl⟩ ?_ rfl rfl rfl
    rw [hvar]
    exact tellsValues_tellValue (tellsValues_nil rfl) rfl _ _
  cases follow with
  | true =>
    obtain ⟨w, hw, h⟩ := Checked.bind_eq_ok.mp h
    cases h
    exact (hplaced.trans (reports_followMove hs hw)).trans (.of_sight rfl)
  | false =>
    cases h
    exact hplaced.trans (.of_sight rfl)

/-- The basic variables with their values, row by row. -/
theorem basicPairs_eq {m n : Nat} (hs : t.split.WellFormed m n) {pairs : List (Nat × α)}
    (h : t.basicPairs = .ok pairs) :
    pairs = ((List.range m).map t.split.basicVar).zip t.basicValues := by
  obtain ⟨vars, hvars, h⟩ := Checked.bind_eq_ok.mp h
  cases h
  have hbasic : t.split.basic.mapM Checked.assigned
    = .ok ((List.range m).map t.split.basicVar) := by
    rw [hs.basic_eq, List.mapM_map]
    exact Checked.mapM_eq_ok fun _ _ => rfl
  rw [Except.ok.inj (hvars.symm.trans hbasic)]

/-- **New basic values**, and all of them are told. -/
theorem reports_basicValues (hs : t.split.WellFormed t.rowCount t.varCount) {pairs : List (Nat × α)}
    (hpairs : u.basicPairs = .ok pairs) (hlen : u.basicValues.length = t.rowCount)
    (hframe : Framed t u) (hquiet : u.journal.notices = t.journal.notices)
    (hsplit : u.split = t.split) (hothers : u.nonBasicValues = t.nonBasicValues) :
    Reports t (u.tellValues pairs) := by
  have hsu : u.split.WellFormed t.rowCount t.varCount := hsplit ▸ hs
  have hstate : (u.tellValues pairs).toState = u.toState := (silent_tellValues u pairs).toState
  have htold := hframe.tellValues pairs
  have hpairs := basicPairs_eq hsu hpairs
  -- row by row, the pairs are the basic variables with their values
  have hrow (i : Nat) (hi : i < t.rowCount) :
      pairs[i]? = some (u.split.basicVar i, u.basicValues.getD i 0) := by
    rw [hpairs, List.getElem?_zip_eq_some, List.getElem?_map, List.getElem?_range hi]
    refine ⟨rfl, ?_⟩
    rw [List.getD_eq_getElem?_getD, List.getElem?_eq_getElem (hlen.symm ▸ hi), Option.getD_some]
  have hsize : pairs.length = t.rowCount := by
    rw [hpairs, List.length_zip, List.length_map, List.length_range, hlen, Nat.min_self]
  refine reports_values htold (tellsValues_tellValues hquiet hframe.watchers pairs) (fun p hp => ?_)
    fun k hk hnot => ?_
  · obtain ⟨i, hi, hp⟩ := List.mem_iff_getElem.mp hp
    have hget := hrow i (hsize ▸ hi)
    rw [List.getElem?_eq_getElem hi, hp] at hget
    cases hget
    rw [hstate]
    exact State.held_basicVar hsu (hsize ▸ hi)
  · rw [hstate]
    rcases hsu.cases (htold.vars ▸ hk) with ⟨i, hi, rfl⟩ | ⟨l, hl, rfl⟩
    · exact absurd rfl (hnot _ (List.mem_of_getElem? (hrow i hi)))
    · rw [State.held_nonBasicVar hsu hl, hothers, hsplit, State.held_nonBasicVar hs hl]

theorem reports_computeValues (ht : t.Shaped solved σ) (hb : t.hasBasis = true)
    (h : t.computeValues = .ok u) : Reports t u := by
  obtain ⟨_, hsize, h⟩ := Checked.bind_eq_ok.mp h
  obtain ⟨rhs, _, h⟩ := Checked.bind_eq_ok.mp h
  obtain ⟨xs, hxs, h⟩ := Checked.bind_eq_ok.mp h
  obtain ⟨w, hw, h⟩ := Checked.bind_eq_ok.mp h
  obtain ⟨pairs, hpairs, h⟩ := Checked.bind_eq_ok.mp h
  obtain ⟨_, -, rfl⟩ := of_classifyAll hw
  cases h
  have hlen : xs.length = t.rowCount :=
    (ht.inverse.solveColumn hxs).2.trans (Checked.require_eq_ok.mp hsize)
  exact reports_basicValues (ht.split hb) hpairs hlen ⟨rfl, rfl, rfl, rfl, rfl, rfl⟩ rfl rfl rfl

/-! ## §4.  Tightening -/

theorem sight_restand {i : Nat} (h : t.restand i = .ok u) : u.sight = t.sight := by
  obtain ⟨_, -, h⟩ := Checked.bind_eq_ok.mp h
  obtain ⟨w, hw, h⟩ := Checked.bind_eq_ok.mp h
  obtain ⟨_, -, h⟩ := Checked.bind_eq_ok.mp h
  have hw := sight_classifyAt hw
  split at h <;> cases h <;> exact hw

/-- A value that gives way to a bound. -/
theorem reports_enforce (ht : t.Shaped solved σ) (hb : t.hasBasis = true) {v : Nat} {bound : α}
    {violated : α → Bool} (h : t.enforce v bound violated = .ok u) : Reports t u := by
  have hcount : Reports t (t.count .boundTightenings) := .of_sight rfl
  refine hcount.trans ?_
  unfold enforce at h
  rw [if_pos (show (t.count .boundTightenings).hasBasis = true from hb)] at h
  obtain ⟨i, -, h⟩ := Checked.bind_eq_ok.mp h
  split at h
  · exact .of_sight (sight_restand h)
  · obtain ⟨x, -, h⟩ := Checked.bind_eq_ok.mp h
    split at h
    · exact reports_moveNonBasic ht.state (ht.split hb) h
    · cases h
      exact .refl _

/-- **A raised lower bound**, and the value that gives way to it. -/
theorem reports_tightenLower (ht : t.Shaped solved σ) (hb : t.hasBasis = true) {v : Nat} {x : α}
    (h : t.tightenLower v x = .ok u) : Reports t u := by
  obtain ⟨w, hw, h⟩ := Checked.bind_eq_ok.mp h
  have hstart := (silent_remark t (.tighteningLower v x)).shaped ht
  have hremark : Reports t (t.remark (.tighteningLower v x)) := .of_sight rfl
  have hset := hremark.trans (reports_setLower hw)
  exact hset.trans (reports_enforce (hstart.setLower hw) (hset.basis.trans hb) h)

/-- **A lowered upper bound**, and the value that gives way to it. -/
theorem reports_tightenUpper (ht : t.Shaped solved σ) (hb : t.hasBasis = true) {v : Nat} {x : α}
    (h : t.tightenUpper v x = .ok u) : Reports t u := by
  obtain ⟨w, hw, h⟩ := Checked.bind_eq_ok.mp h
  have hstart := (silent_remark t (.tighteningUpper v x)).shaped ht
  have hremark : Reports t (t.remark (.tighteningUpper v x)) := .of_sight rfl
  have hset := hremark.trans (reports_setUpper hw)
  exact hset.trans (reports_enforce (hstart.setUpper hw) (hset.basis.trans hb) h)

/-! ## §5.  Pivots -/

/-- A jump to the other bound. -/
theorem reports_jump (ht : t.toState.Shaped) (hs : t.split.WellFormed t.rowCount t.varCount)
    {j : Nat} (h : t.jump j = .ok u) : Reports t u := by
  obtain ⟨v, hv, h⟩ := Checked.bind_eq_ok.mp h
  obtain ⟨x, -, h⟩ := Checked.bind_eq_ok.mp h
  obtain ⟨l, -, h⟩ := Checked.bind_eq_ok.mp h
  obtain ⟨b, -, h⟩ := Checked.bind_eq_ok.mp h
  obtain ⟨w, hw, h⟩ := Checked.bind_eq_ok.mp h
  obtain ⟨pairs, hpairs, h⟩ := Checked.bind_eq_ok.mp h
  obtain ⟨_, -, rfl⟩ := of_classifyAll hw
  cases h
  obtain ⟨hj, rfl⟩ := hs.lt_of_nonBasicAt hv
  -- the entering variable is told first, then the basic ones
  generalize hx : (if t.plan.enteringFalls = true then l else b) = target at hpairs ⊢
  let placed := { t with nonBasicValues := t.nonBasicValues.set j target }.tellValue
    (t.split.nonBasicVar j) target
  have hplaced : Reports t placed :=
    reports_placed ht hs hj ⟨rfl, rfl, rfl, rfl, rfl, rfl⟩
      (tellsValues_tellValue (tellsValues_nil rfl) rfl _ _) rfl rfl rfl
  have hmoved :=
    reports_shifted (t := placed) hs (target - x) hpairs ⟨rfl, rfl, rfl, rfl, rfl, rfl⟩ rfl rfl rfl
    rfl
  exact (hplaced.trans hmoved).trans (.of_sight rfl)

theorem reports_performFake (ht : t.toState.Shaped) (hs : t.split.WellFormed t.rowCount t.varCount)
    {j : Nat} (h : t.performFake j = .ok u) : Reports t u := by
  unfold performFake at h
  split at h
  · exact reports_jump ht hs h
  · cases h
    exact .of_sight rfl

/-- Two variables exchanged places and got values; nobody was told. -/
structure Traded (t u : Tableau α) (j i : Nat) (xs : List α) (x y : α) : Prop where
  frame : Framed t u
  quiet : u.journal.notices = t.journal.notices
  row : i < t.rowCount
  place : j < t.nonBasicCount
  split : u.split = t.split.swapped j i
  basic : u.basicValues = xs.set i x
  others : u.nonBasicValues = t.nonBasicValues.set j y

theorem traded_of_exchangePlaces (ht : t.toState.Shaped)
    (hs : t.split.WellFormed t.rowCount t.varCount) {j i : Nat} {xs : List α} {x y : α}
    {names : Nat × Nat} (hxs : xs.length = t.rowCount)
    (h : exchangePlaces { t with basicValues := xs } j i x y = .ok (names, u)) :
    Traded t u j i xs x y ∧ u.plan = t.plan := by
  obtain ⟨⟨_, split⟩, hswap, h⟩ := Checked.bind_eq_ok.mp h
  obtain ⟨_, hx, h⟩ := Checked.bind_eq_ok.mp h
  obtain ⟨_, hy, h⟩ := Checked.bind_eq_ok.mp h
  obtain ⟨_, -, h⟩ := Checked.bind_eq_ok.mp h
  obtain ⟨hi, rfl⟩ := Checked.setAt_eq_ok.mp hx
  obtain ⟨hj, rfl⟩ := Checked.setAt_eq_ok.mp hy
  cases h
  have hi : i < t.rowCount := hxs ▸ hi
  have hj : j < t.nonBasicCount := ht.nonBasicValues ▸ hj
  cases (hs.swap_eq hj hi).symm.trans hswap
  exact ⟨⟨⟨rfl, rfl, rfl, rfl, rfl, rfl⟩, rfl, hi, hj, rfl, rfl, rfl⟩, rfl⟩

namespace Traded

variable {j i : Nat} {xs : List α} {x y : α}

theorem of_sight (h : Traded t u j i xs x y) (hw : w.sight = u.sight) :
    Traded t w j i xs x y := by
  have hframe := h.frame.of_sight hw
  simp only [sight, Prod.mk.injEq] at hw
  obtain ⟨⟨-, hn⟩, ⟨hs, hb, ho⟩, -, -⟩ := hw
  exact ⟨hframe, hn.trans h.quiet, h.row, h.place, hs.trans h.split, hb.trans h.basic,
    ho.trans h.others⟩

/-- Where the values are after an exchange of places. -/
theorem held (h : Traded t u j i xs x y) (ht : t.toState.Shaped)
    (hs : t.split.WellFormed t.rowCount t.varCount) (hxs : xs.length = t.rowCount) :
    u.held (t.split.nonBasicVar j) = x ∧ u.held (t.split.basicVar i) = y
      ∧ (∀ k < t.rowCount, k ≠ i → u.held (t.split.basicVar k) = xs.getD k 0)
      ∧ ∀ k < t.nonBasicCount, k ≠ j → u.held (t.split.nonBasicVar k)
          = t.nonBasicValues.getD k 0 := by
  have hi : i < xs.length := hxs.symm ▸ h.row
  have hj : j < t.nonBasicValues.length := ht.nonBasicValues.symm ▸ h.place
  have hsu : u.split.WellFormed t.rowCount t.varCount := h.split ▸ hs.swap h.place h.row
  -- Who is where after the exchange.
  have hbasic (k : Nat) : u.split.basicVar k
      = if k = i then t.split.nonBasicVar j else t.split.basicVar k := by
    rw [h.split, hs.basicVar_swapped h.row]
  have hother (k : Nat) : u.split.nonBasicVar k
      = if k = j then t.split.basicVar i else t.split.nonBasicVar k := by
    rw [h.split, hs.nonBasicVar_swapped h.place]
  refine ⟨?_, ?_, fun k hk hne => ?_, fun k hk hne => ?_⟩
  · have hat := State.held_basicVar hsu h.row
    rwa [hbasic, if_pos rfl, h.basic, getD_set hi, if_pos rfl] at hat
  · have hat := State.held_nonBasicVar hsu h.place
    rwa [hother, if_pos rfl, h.others, getD_set hj, if_pos rfl] at hat
  · have hat := State.held_basicVar hsu hk
    rwa [hbasic, if_neg hne, h.basic, getD_set hi, if_neg hne] at hat
  · have hat := State.held_nonBasicVar hsu hk
    rwa [hother, if_neg hne, h.others, getD_set hj, if_neg hne] at hat

/-- **An exchange along a column**, told after the rows got their new variables: the row of the
    leaving variable tells the entering one. -/
theorem reports {δ element : α} {column : List α} {pairs : List (Nat × α)}
    (h : Traded t u j i (shift δ t.basicValues column) x y) (ht : t.toState.Shaped)
    (hs : t.split.WellFormed t.rowCount t.varCount)
    (hi : column[i]? = some element) (hne : ¬(element == 0) = true)
    (hpairs : u.movedPairs column = .ok pairs) :
    Reports t ((u.tellValues pairs).tellValue (t.split.basicVar i) y) := by
  have hxs : (shift δ t.basicValues column).length = t.rowCount :=
    (length_shift ..).trans ht.basicValues
  obtain ⟨hentering, hleaving, hbasic, hothers⟩ := h.held ht hs hxs
  have hsu : u.split.WellFormed t.rowCount t.varCount := h.split ▸ hs.swap h.place h.row
  have hname (k : Nat) : u.split.basicVar k
      = if k = i then t.split.nonBasicVar j else t.split.basicVar k := by
    rw [h.split, hs.basicVar_swapped h.row]
  obtain ⟨htrue, hzero⟩ := movedPairs_spec hsu hpairs
  have htold := h.frame.tellValues pairs
  have hstate : ((u.tellValues pairs).tellValue (t.split.basicVar i) y).toState = u.toState :=
    (silent_tellValues u pairs).toState
  refine reports_values (htold.tellValue _ _)
    (tellsValues_tellValue (tellsValues_tellValues h.quiet h.frame.watchers pairs)
      htold.watchers _ _)
    (fun p hp => ?_) fun v hv hnot => ?_
  · rw [hstate]
    rcases List.mem_append.mp hp with hp | hp
    · exact htrue p hp
    · cases List.mem_singleton.mp hp
      exact hleaving
  · rw [hstate]
    have hpairs (p : Nat × α) (hp : p ∈ pairs) : p.1 ≠ v := hnot p (List.mem_append_left _ hp)
    have hlast : t.split.basicVar i ≠ v :=
      hnot (t.split.basicVar i, y) (List.mem_append_right _ (List.mem_singleton_self _))
    rcases hs.cases (htold.vars ▸ hv) with ⟨k, hk, rfl⟩ | ⟨k, hk, rfl⟩
    · have hne : k ≠ i := fun e => hlast (by rw [e])
      have hcolumn := hzero k hk fun p hp => by
        rw [hname, if_neg hne]
        exact hpairs p hp
      rw [hbasic k hk hne, getD_shift _ _ _ _ hcolumn, State.held_basicVar hs hk]
    · by_cases hkj : k = j
      · -- the column reaches the row of the exchange, so the entering variable was told
        subst hkj
        have hcolumn := hzero i h.row fun p hp => by
          rw [hname, if_pos rfl]
          exact hpairs p hp
        exact absurd (hcolumn _ hi) hne
      · rw [hothers k hk hkj, State.held_nonBasicVar hs hk]

end Traded

/-- An exchange at a pivot reports all values that it changes. -/
theorem reports_performExchange (ht : t.Shaped solved σ) (hb : t.hasBasis = true) {j i : Nat}
    (h : t.performExchange j i = .ok u) : Reports t u := by
  obtain ⟨element, helement, h⟩ := Checked.bind_eq_ok.mp h
  obtain ⟨leaving, hleaving, h⟩ := Checked.bind_eq_ok.mp h
  obtain ⟨standing, -, h⟩ := Checked.bind_eq_ok.mp h
  obtain ⟨l, -, h⟩ := Checked.bind_eq_ok.mp h
  obtain ⟨b, -, h⟩ := Checked.bind_eq_ok.mp h
  obtain ⟨x, -, h⟩ := Checked.bind_eq_ok.mp h
  obtain ⟨⟨⟨q, p⟩, v⟩, hplaces, h⟩ := Checked.bind_eq_ok.mp h
  obtain ⟨w, hw, h⟩ := Checked.bind_eq_ok.mp h
  obtain ⟨y, hy, h⟩ := Checked.bind_eq_ok.mp h
  obtain ⟨pairs, hpairs, h⟩ := Checked.bind_eq_ok.mp h
  have hs := ht.split hb
  obtain ⟨hi, rfl⟩ := hs.lt_of_basicAt hleaving
  -- The shifted values trade places; what follows is out of sight.
  obtain ⟨htraded, hplan⟩ := traded_of_exchangePlaces ht.state hs
    ((length_shift ..).trans ht.state.basicValues) hplaces
  obtain ⟨hsight, hplan'⟩ := sight_followExchange hy
  have hplan'' : w.plan = v.plan := by
    obtain ⟨_, -, rfl⟩ := of_classifyAll hw
    rfl
  rw [hplan', hplan'', hplan] at hpairs
  have hclass : w.sight = v.sight := sight_classifyAll (t := v.remark _) hw
  have hlater := htraded.of_sight (w := y) (hsight.trans hclass)
  obtain ⟨hentry, hne⟩ := entry_of_pivotElement helement
  have hreports := hlater.reports ht.state hs hentry hne hpairs
  cases h
  refine hreports.trans ?_
  split <;> exact .of_sight rfl

/-- **A pivot**, with or without an exchange. -/
theorem reports_performPivot (ht : t.Shaped solved σ) (h : t.performPivot = .ok u) :
    Reports t u := by
  obtain ⟨_, hb, h⟩ := Checked.bind_eq_ok.mp h
  obtain ⟨j, -, h⟩ := Checked.bind_eq_ok.mp h
  have hb := Checked.require_eq_ok.mp hb
  split at h
  · obtain ⟨w, hw, h⟩ := Checked.bind_eq_ok.mp h
    exact (reports_performFake ht.state (ht.split hb) hw).trans (.of_sight (sight_finish h))
  · obtain ⟨w, hw, h⟩ := Checked.bind_eq_ok.mp h
    exact (reports_performExchange ht hb hw).trans (.of_sight (sight_finish h))
  · cases h

/-- **An exchange without a move** has nothing to tell: every variable takes its value along. -/
theorem reports_performDegenerate (ht : t.Shaped solved σ) (h : t.performDegenerate = .ok u) :
    Reports t u := by
  obtain ⟨_, hb, h⟩ := Checked.bind_eq_ok.mp h
  obtain ⟨j, -, h⟩ := Checked.bind_eq_ok.mp h
  obtain ⟨i, -, h⟩ := Checked.bind_eq_ok.mp h
  obtain ⟨standing, -, h⟩ := Checked.bind_eq_ok.mp h
  obtain ⟨_, -, h⟩ := Checked.bind_eq_ok.mp h
  obtain ⟨element, -, h⟩ := Checked.bind_eq_ok.mp h
  obtain ⟨x, hx, h⟩ := Checked.bind_eq_ok.mp h
  obtain ⟨y, hy, h⟩ := Checked.bind_eq_ok.mp h
  obtain ⟨⟨⟨q, p⟩, v⟩, hplaces, h⟩ := Checked.bind_eq_ok.mp h
  obtain ⟨w, hw, h⟩ := Checked.bind_eq_ok.mp h
  obtain ⟨z, hz, h⟩ := Checked.bind_eq_ok.mp h
  have hs := ht.split (Checked.require_eq_ok.mp hb)
  have htraded : Traded t v j i t.basicValues x y :=
    (traded_of_exchangePlaces ht.state hs ht.state.basicValues hplaces).1
  obtain ⟨hentering, hleaving, hbasic, hothers⟩ := htraded.held ht.state hs ht.state.basicValues
  have hx : t.nonBasicValues.getD j 0 = x := by
    rw [List.getD_eq_getElem?_getD, Checked.getAt_eq_ok.mp hx, Option.getD_some]
  have hy : t.basicValues.getD i 0 = y := by
    rw [List.getD_eq_getElem?_getD, Checked.getAt_eq_ok.mp hy, Option.getD_some]
  -- Nothing is told, and nothing has to be: both values are where their variables are.
  have hkept : Reports t v := by
    refine reports_values htraded.frame (tellsValues_nil htraded.quiet)
      (fun p hp => absurd hp List.not_mem_nil) fun l hl _ => ?_
    rcases hs.cases (htraded.frame.vars ▸ hl) with ⟨k, hk, rfl⟩ | ⟨k, hk, rfl⟩
    · rw [State.held_basicVar hs hk]
      by_cases hki : k = i
      · rw [hki, hleaving, hy]
      · exact hbasic k hk hki
    · rw [State.held_nonBasicVar hs hk]
      by_cases hkj : k = j
      · rw [hkj, hentering, hx]
      · exact hothers k hk hkj
  have hclass : w.sight = v.sight := sight_classifyAt (t := v.remark _) hw
  have hrest : u.sight = v.sight :=
    (sight_finish h).trans ((sight_followExchange hz).1.trans hclass)
  exact hkept.trans (.of_sight hrest)

/-! ## §6.  Growing -/

theorem getD_concat {β : Type} (xs : List β) (x : β) (k : Nat) (d : β) :
    (xs ++ [x]).getD k d = if k = xs.length then x else xs.getD k d := by
  rcases Nat.lt_trichotomy k xs.length with hlt | rfl | hgt
  · rw [if_neg hlt.ne, List.getD_append _ _ _ _ hlt]
  · rw [if_pos rfl, List.getD_append_right _ _ _ _ (Nat.le_refl _), Nat.sub_self]
    rfl
  · rw [if_neg hgt.ne', List.getD_eq_default _ _ hgt.le, List.getD_eq_default]
    simpa using hgt

/-- One more variable, which is basic in one more row; nobody was told. -/
structure Grown (t u : Tableau α) (l b x : α) : Prop where
  watchers : u.watchers = t.watchers
  basis : u.hasBasis = t.hasBasis
  merges : u.merges = t.merges
  quiet : u.journal.notices = t.journal.notices
  vars : u.varCount = t.varCount + 1
  lowers : u.bounds.lowers = t.bounds.lowers ++ [l]
  uppers : u.bounds.uppers = t.bounds.uppers ++ [b]
  split : u.split = t.split.pushBasic
  basic : u.basicValues = t.basicValues ++ [x]
  others : u.nonBasicValues = t.nonBasicValues

theorem grown_of_extendState (ht : t.toState.Shaped) {e : LinearEquation α} {l b x : α} {aux : Nat}
    (h : t.extendState e l b x = .ok (aux, u)) : aux = t.varCount ∧ Grown t u l b x := by
  obtain ⟨matrix, bounds, standing, hm, hbounds, -, haux, rfl⟩ := of_extendState h
  obtain ⟨hlowers, huppers⟩ := Bounds.push_lists hbounds
  exact ⟨haux, rfl, rfl, rfl, rfl, (extendMatrix_shaped ht.matrix hm).columnCount, hlowers,
    huppers, rfl, rfl, rfl⟩

/-- The new variable holds its value, and the others keep theirs. -/
theorem Grown.held {l b x : α} (h : Grown t u l b x) (ht : t.toState.Shaped)
    (hs : t.split.WellFormed t.rowCount t.varCount) :
    u.held t.varCount = x ∧ ∀ v < t.varCount, u.held v = t.held v := by
  obtain ⟨hpush, hbasic, hlast, hother⟩ := hs.pushBasic
  rw [← h.split] at hpush hbasic hlast hother
  have hvalue (k : Nat) : u.basicValues.getD k 0
      = if k = t.rowCount then x else t.basicValues.getD k 0 := by
    rw [h.basic, getD_concat, ht.basicValues]
  refine ⟨?_, fun v hv => ?_⟩
  · rw [← hlast, State.held_basicVar hpush (Nat.lt_succ_self _), hvalue, if_pos rfl]
  · rcases hs.cases hv with ⟨i, hi, rfl⟩ | ⟨j, hj, rfl⟩
    · rw [← hbasic i hi, State.held_basicVar hpush (Nat.lt_succ_of_lt hi), hvalue,
        if_neg (Nat.ne_of_lt hi), hbasic i hi, State.held_basicVar hs hi]
    · have hj' : j < t.varCount + 1 - (t.rowCount + 1) := by omega
      rw [← hother j, State.held_nonBasicVar hpush hj', hother j, State.held_nonBasicVar hs hj,
        h.others]

/-- **A new variable**: its bounds and its value are told. -/
theorem Grown.reports {l b x : α} (h : Grown t u l b x) (ht : t.toState.Shaped)
    (hs : t.split.WellFormed t.rowCount t.varCount) :
    Reports t (((u.tellSize.tellLower t.varCount l).tellUpper t.varCount b).tellValue
        t.varCount x) := by
  obtain ⟨hnew, hold⟩ := h.held ht hs
  refine ⟨[.resize u.rowCount u.varCount, .lower t.varCount l, .upper t.varCount b,
    .value t.varCount x], h.watchers, h.basis, fun v hv => h.merges ▸ hv, ?_, fun m hm =>
      ⟨fun v hv => ?_, fun v hv => ?_, fun v hv => ?_⟩⟩
  · show ((u.journal.notices ++ u.watchers.dimensions.map _) ++ (u.watchers.of _).map _
      ++ (u.watchers.of _).map _) ++ (u.watchers.of _).map _ = _
    rw [h.quiet, h.watchers]
    simp [Watchers.deliver, Watchers.audience]
  -- The new variable is told, the others are as they were.
  · have hv : v < t.varCount + 1 := h.vars ▸ hv
    show Function.update m.value t.varCount x v = u.held v
    rw [Function.update_apply]
    split
    · next hlast => rw [hlast, hnew]
    · next hne =>
      have hlt : v < t.varCount := by omega
      rw [hold v hlt, hm.value v hlt]
  · have hv : v < t.varCount + 1 := h.vars ▸ hv
    show Function.update m.lower t.varCount l v = u.bounds.lowers.getD v 0
    rw [Function.update_apply, h.lowers, getD_concat, ht.bounds.lowers]
    split
    · rfl
    · next hne => exact hm.lower v (by omega)
  · have hv : v < t.varCount + 1 := h.vars ▸ hv
    show Function.update m.upper t.varCount b v = u.bounds.uppers.getD v 0
    rw [Function.update_apply, h.uppers, getD_concat, ht.bounds.uppers]
    split
    · rfl
    · next hne => exact hm.upper v (by omega)

/-- **A new equation**, also if the new basis turns out to have no usable inverse. -/
theorem reports_addEquation (ht : t.Shaped solved σ) {e : LinearEquation α} {r : Except Failure Nat}
    (h : t.addEquation e = .ok (r, u)) : Reports t u := by
  obtain ⟨_, hb, h⟩ := Checked.bind_eq_ok.mp h
  split at h
  · cases h
    exact .refl t
  · obtain ⟨⟨l, b⟩, _, h⟩ := Checked.bind_eq_ok.mp h
    obtain ⟨x, _, h⟩ := Checked.bind_eq_ok.mp h
    obtain ⟨⟨aux, w⟩, hw, h⟩ := Checked.bind_eq_ok.mp h
    obtain ⟨⟨r', v⟩, hv, h⟩ := Checked.bind_eq_ok.mp h
    have hremark : Reports t (t.remark (.addingEquation (e.rename t.merges.resolve))) :=
      .of_sight rfl
    obtain ⟨rfl, hg⟩ := grown_of_extendState (t := t.remark _) ht.state hw
    -- Clearing the plan and counting the row are out of sight.
    have hgrown : Grown t (w.clearPlan.invalidatePrices.count .addedRows) l b x :=
      ⟨hg.watchers, hg.basis, hg.merges, hg.quiet, hg.vars, hg.lowers, hg.uppers,
        hg.split, hg.basic, hg.others⟩
    have hend := (hgrown.reports ht.state (ht.split (Checked.require_eq_ok.mp hb))).trans
      (.of_sight (sight_refactor hv))
    cases r' <;> cases h <;> exact hend

/-! ## §7.  Merging -/

theorem reports_intersectBounds (ht : t.Shaped solved σ) (hb : t.hasBasis = true)
    {source target : Nat} (h : t.intersectBounds source target = .ok u) : Reports t u := by
  obtain ⟨l, l', x, x', w, -, -, hw, -, -, h⟩ := intersectBounds_halves h
  have hraised : Reports t w ∧ w.Shaped solved σ := by
    split at hw
    · exact ⟨reports_tightenLower ht hb hw, ht.tightenLower hw⟩
    · cases hw
      exact ⟨.refl t, ht⟩
  obtain ⟨hreports, hshaped⟩ := hraised
  split at h
  · exact hreports.trans (reports_tightenUpper hshaped (hreports.basis.trans hb) h)
  · cases h
    exact hreports

theorem reports_freeze {v : Nat} (h : t.freeze v = .ok u) : Reports t u := by
  obtain ⟨i, _, h⟩ := Checked.bind_eq_ok.mp h
  obtain ⟨x, _, h⟩ := Checked.bind_eq_ok.mp h
  obtain ⟨w, hw, h⟩ := Checked.bind_eq_ok.mp h
  exact (reports_setLower hw).trans (reports_setUpper h)

/-- Folding one column into another changes no value. -/
theorem reports_fold (ht : t.toState.Shaped) {source target : Nat}
    (h : t.fold source target = .ok u) : Reports t u := by
  obtain ⟨matrix, hm, h⟩ := Checked.bind_eq_ok.mp h
  obtain ⟨merges, hg, h⟩ := Checked.bind_eq_ok.mp h
  have hvars : matrix.columnCount = t.varCount := (ht.matrix.mergeColumns hm).columnCount
  refine Reports.trans (u := { t with matrix, merges }) ⟨[], rfl, rfl, fun v hv => ?_,
    (List.append_nil _).symm, fun m hm => ⟨fun v hv => hm.value v (hvars ▸ hv),
      fun v hv => hm.lower v (hvars ▸ hv), fun v hv => hm.upper v (hvars ▸ hv)⟩⟩ (reports_freeze h)
  -- a recorded link is added to those there were
  have hv : merges.target? v = .none := hv
  rw [Merges.target?_record v hg] at hv
  split at hv
  · cases hv
  · exact hv

/-- **A merge**, also one that is refused or fails half-way. -/
theorem reports_merge (ht : t.Shaped solved σ) {source target : Nat} {r : Except Failure Unit}
    (h : t.merge source target = .ok (r, u)) : Reports t u := by
  obtain ⟨hb, -, ⟨_, -, -, rfl⟩ | ⟨-, w, v, r', x, hw, hv, hx, hend⟩⟩ := merge_cases h
  · exact .refl _
  have hremark : Reports t (t.remark (.merging source target)) := .of_sight rfl
  have hstart := (silent_remark t (.merging source target)).shaped ht
  have hshaped := hstart.intersectBounds hw
  have hfolded := (hremark.trans (reports_intersectBounds hstart hb hw)).trans
    (reports_fold hshaped.state hv)
  have hcount : Reports v (v.count .mergedColumns) := .of_sight rfl
  have hrefactored := (hfolded.trans hcount).trans (.of_sight (sight_refactor hx))
  have hdone := ((silent_count _ _).shaped (hshaped.fold hv)).refactor hx
  rcases hend with ⟨_, -, -, rfl⟩ | ⟨-, -, hy⟩
  · exact hrefactored
  · exact hrefactored.trans (reports_computeValues hdone.1 (hrefactored.basis.trans hb) hy)

end Tableau

end BoundedSimplex
