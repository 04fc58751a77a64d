/-
  BoundedSimplex.Proofs.Tableau.Progress — operations that cannot break a contract.

  Where the parts of a tableau with a basis fit together (`Shaped`), values can be computed and
  moved, bounds tightened, the inverse started over, costs computed and variables selected, whatever
  the arithmetic: each lemma says that there is an outcome, and names what has to be given on top.

  Main results:
    * `exists_computeValues`, `exists_moveNonBasic`, `exists_tightenLower`, `exists_tightenUpper`;
    * `exists_refactor`, `exists_finish` — starting the inverse over;
    * `exists_computePrices`, `exists_chooseEntering` — up to the choice of the entering variable.
-/
import BoundedSimplex.Proofs.Freshness
import BoundedSimplex.Proofs.Progress

namespace BoundedSimplex

variable {α : Type} [Scalar α]

/-! ## §1.  Bounds and rules -/

namespace Bounds

variable {b : Bounds α} {n v : Nat}

theorem exists_check (hl : v < b.lowers.length) (hu : v < b.uppers.length) :
    ∃ r, b.check v = .ok r :=
  Checked.exists_bind (Checked.exists_getAt hl) fun _ _ =>
    Checked.exists_bind (Checked.exists_getAt hu) fun _ _ => ⟨_, rfl⟩

theorem Shaped.exists_setLower (h : b.Shaped n) (hv : v < n) (x : α) :
    ∃ c, b.setLower v x = .ok c := by
  have hl := h.lowers.symm ▸ hv
  have hu := h.uppers.symm ▸ hv
  refine Checked.exists_bind (Checked.exists_setAt hl x) fun lowers hset => ?_
  obtain ⟨-, rfl⟩ := Checked.setAt_eq_ok.mp hset
  exact Checked.exists_bind (exists_check (List.length_set.symm ▸ hl) hu) fun _ _ => ⟨_, rfl⟩

theorem Shaped.exists_setUpper (h : b.Shaped n) (hv : v < n) (x : α) :
    ∃ c, b.setUpper v x = .ok c := by
  have hl := h.lowers.symm ▸ hv
  have hu := h.uppers.symm ▸ hv
  refine Checked.exists_bind (Checked.exists_setAt hu x) fun uppers hset => ?_
  obtain ⟨-, rfl⟩ := Checked.setAt_eq_ok.mp hset
  exact Checked.exists_bind (exists_check hl (List.length_set.symm ▸ hu)) fun _ _ => ⟨_, rfl⟩

theorem Shaped.exists_push (h : b.Shaped n) (l u : α) : ∃ c, b.push l u = .ok c := by
  refine Checked.exists_bind (exists_check ?_ ?_) fun _ _ => ⟨_, rfl⟩
  · show b.lowers.length < (b.lowers ++ [l]).length
    simp
  · show b.lowers.length < (b.uppers ++ [u]).length
    simp [h.lowers, h.uppers]

end Bounds

namespace EnteringRule

variable {rule next : EnteringRule} {candidates : List Nat} {costs : List α}

theorem exists_choose (h : ∀ j ∈ candidates, j < costs.length) :
    ∃ r, rule.choose candidates costs = .ok r := by
  cases rule with
  | first => exact ⟨_, rfl⟩
  | cyclic last => exact ⟨_, rfl⟩
  | steepest =>
    refine Checked.exists_bind (Checked.exists_mapM fun j hj => ?_) fun _ _ => ⟨_, rfl⟩
    exact Checked.exists_bind (Checked.exists_getAt (h j hj)) fun _ _ => ⟨_, rfl⟩

/-- The next candidate after the last one is a candidate. -/
theorem mem_of_nextAfter {last : Option Nat} {j : Nat} (h : nextAfter last candidates = some j) :
    j ∈ candidates := by
  rcases Option.or_eq_some_iff.mp h with h | ⟨-, h⟩
  · obtain ⟨l, -, hfind⟩ := Option.bind_eq_some_iff.mp h
    exact List.mem_of_find?_eq_some hfind
  · exact List.mem_of_head? h

/-- The steepest of the weighed candidates is one of them, unless the best so far was better. -/
theorem mem_of_steeper {weighed : List (Nat × α)} {best : Option (Nat × α)} {p : Nat × α}
    (h : weighed.foldl steeper best = some p) : p ∈ weighed ∨ best = some p := by
  induction weighed generalizing best with
  | nil => exact .inr h
  | cons q weighed ih =>
    rcases ih h with hp | hp
    · exact .inl (List.mem_cons_of_mem q hp)
    -- one comparison keeps the best one so far or takes the candidate
    cases best with
    | none =>
      cases hp
      exact .inl List.mem_cons_self
    | some r =>
      by_cases hle : q.2 ≤ r.2
      · exact .inr ((if_pos hle).symm.trans hp)
      · cases (if_neg hle).symm.trans hp
        exact .inl List.mem_cons_self

/-- Every rule chooses one of the candidates. -/
theorem mem_of_choose {j : Nat} (h : rule.choose candidates costs = .ok (some j, next)) :
    j ∈ candidates := by
  cases rule with
  | first =>
    obtain ⟨hj, -⟩ := Prod.mk.inj (Except.ok.inj h)
    exact List.mem_of_head? hj
  | cyclic last =>
    obtain ⟨hj, -⟩ := Prod.mk.inj (Except.ok.inj h)
    exact mem_of_nextAfter hj
  | steepest =>
    obtain ⟨weighed, hweighed, h⟩ := Checked.bind_eq_ok.mp h
    obtain ⟨hj, -⟩ := Prod.mk.inj (Except.ok.inj h)
    obtain ⟨p, hp, rfl⟩ := Option.map_eq_some_iff.mp hj
    -- Nothing was the best before the first candidate.
    rcases mem_of_steeper hp with hp | hp
    · obtain ⟨k, hk, hpair⟩ := Checked.exists_of_mem_mapM hweighed hp
      obtain ⟨cost, -, hpair⟩ := Checked.bind_eq_ok.mp hpair
      cases hpair
      exact hk
    · cases hp

end EnteringRule

namespace Tableau

variable {solved : Prop} {σ : Settings α} {t u : Tableau α}

/-! ## §2.  Values -/

section Standings

variable (hs : t.toState.Shaped) (hsplit : t.split.WellFormed t.rowCount t.varCount)
include hs hsplit

theorem exists_classifyAt {i : Nat} (hi : i < t.rowCount) : ∃ u, t.classifyAt i = .ok u :=
  Checked.exists_bind (hs.exists_standingAt hsplit _ hi) fun _ _ =>
    Checked.exists_bind (Checked.exists_setAt (hs.standings.symm ▸ hi) _) fun _ _ => ⟨_, rfl⟩

theorem exists_classifyAll : ∃ u, t.classifyAll = .ok u :=
  Checked.exists_bind (Checked.exists_require hs.standings.ge) fun _ _ =>
    Checked.exists_bind (hs.exists_allStandings hsplit _) fun _ _ => ⟨_, rfl⟩

omit hs in
theorem exists_basicPairs : ∃ pairs, t.basicPairs = .ok pairs := by
  refine Checked.exists_bind (Checked.exists_mapM fun slot hslot => ?_) fun _ _ => ⟨_, rfl⟩
  obtain ⟨i, hi, rfl⟩ := List.mem_iff_getElem.mp hslot
  obtain ⟨v, hv, -⟩ := hsplit.basic.of_getElem? (List.getElem?_eq_getElem hi)
  exact ⟨v, Checked.assigned_eq_ok.mpr hv⟩

theorem exists_movedPairs {column : List α} (hc : column.length = t.rowCount) :
    ∃ pairs, t.movedPairs column = .ok pairs := by
  refine Checked.exists_mapM fun entry hentry => ?_
  have hentry := List.mem_zipIdx_iff_getElem?.mp (List.mem_of_mem_filter hentry)
  have hi : entry.2 < t.rowCount := hc ▸ (List.getElem?_eq_some_iff.mp hentry).1
  exact Checked.exists_bind_of_ok (hsplit.basicAt_eq hi)
    (Checked.exists_bind (hs.exists_basicValue hi) fun _ _ => ⟨_, rfl⟩)

end Standings

section Values

variable (ht : t.Shaped solved σ) (hb : t.hasBasis = true)
include ht hb

/-- The basic values can be computed. -/
theorem exists_computeValues (hsize : t.inverse.size = t.rowCount) :
    ∃ u, t.computeValues = .ok u := by
  obtain ⟨rhs, hrhs, hlen⟩ := ht.state.exists_remainder (ht.split hb)
  refine Checked.exists_bind (Checked.exists_require hsize) fun _ _ =>
    Checked.exists_bind_of_ok hrhs ?_
  -- The right-hand side less the non-basic columns has the size that the inverse asks for.
  obtain ⟨xs, hsolve, hxs⟩ := ht.inverse.exists_solveColumn (hlen.trans hsize.symm)
  refine Checked.exists_bind_of_ok hsolve ?_
  have hxs : xs.length = t.basicValues.length := by
    rw [hxs, hsize, ht.state.basicValues]
  have hsolved : Moves t
    ({ t with basicValues := xs, settled := true }.count .assignmentComputations) :=
    ⟨_, _, _, _, _, _, hxs, rfl, rfl, rfl⟩
  have hshaped := hsolved.shaped ht
  refine Checked.exists_bind (exists_classifyAll hshaped.state (ht.split hb)) fun w hw => ?_
  have hclassed := classifyAll_moves hshaped.state hw
  have hsplit := (hclassed.shaped hshaped).split (hclassed.hasBasis.trans hb)
  exact Checked.exists_bind (exists_basicPairs (t := w.invalidatePrices) hsplit) fun _ _ => ⟨_, rfl⟩

/-- The basic values can follow a move. -/
theorem exists_followMove (hsize : t.inverse.size = t.rowCount) {v : Nat}
    (hv : v < t.varCount) (δ : α) :
    ∃ u, t.followMove v δ = .ok u := by
  unfold followMove
  split
  · exact ⟨t, rfl⟩
  obtain ⟨c, hc, hlen⟩ := ht.state.matrix.exists_column hv
  obtain ⟨column, hsolve, hcolumn⟩ := ht.inverse.exists_solveColumn (hlen.trans hsize.symm)
  refine Checked.exists_bind_of_ok hc (Checked.exists_bind_of_ok hsolve ?_)
  have hcolumn := hcolumn.trans hsize
  have hshift : Moves t { t with basicValues := shift δ t.basicValues column } :=
    ⟨_, _, _, _, _, _, length_shift _ _ _, rfl, rfl, rfl⟩
  refine Checked.exists_bind (exists_movedPairs (hshift.shaped ht).state (ht.split hb) hcolumn)
    fun pairs _ => ?_
  have htold := hshift.trans (silent_tellValues _ pairs).moves
  have hshaped := htold.shaped ht
  exact exists_classifyAll hshaped.state (hshaped.split (htold.hasBasis.trans hb))

/-- **Moving a non-basic variable.** -/
theorem exists_moveNonBasic (hsize : t.inverse.size = t.rowCount) {v : Nat} (hv : v < t.varCount)
    (hrole : t.split.isBasic v = false) (x : α) (follow : Bool) :
    ∃ u, t.moveNonBasic v x follow = .ok u := by
  have hj := ((ht.split hb).of_not_isBasic hv hrole).1
  refine Checked.exists_bind (Checked.exists_require hrole) fun _ _ =>
    Checked.exists_bind_of_ok ((ht.split hb).positionOf_eq hv) ?_
  refine Checked.exists_bind (ht.state.exists_nonBasicValue hj) fun old _ => ?_
  -- Writing the new value and telling it is a move, which keeps the shape for what follows.
  have hmoved : Moves t (({ t with
      nonBasicValues := t.nonBasicValues.set (t.split.place v) x
        }.remark (.movingNonBasic v x)).tellValue v x) :=
    ⟨_, _, _, _, _, _, rfl, List.length_set, rfl, rfl⟩
  cases follow with
  | true =>
    exact Checked.exists_bind (exists_followMove (hmoved.shaped ht) hb hsize hv _)
      fun _ _ => ⟨_, rfl⟩
  | false => exact ⟨_, rfl⟩

end Values

/-! ## §3.  Bounds -/

theorem exists_setLower (ht : t.Shaped solved σ) {v : Nat} (hv : v < t.varCount) (x : α) :
    ∃ u, t.setLower v x = .ok u :=
  Checked.exists_bind (Checked.exists_require hv) fun _ _ =>
    Checked.exists_bind (ht.state.bounds.exists_setLower hv x) fun _ _ => ⟨_, rfl⟩

theorem exists_setUpper (ht : t.Shaped solved σ) {v : Nat} (hv : v < t.varCount) (x : α) :
    ∃ u, t.setUpper v x = .ok u :=
  Checked.exists_bind (Checked.exists_require hv) fun _ _ =>
    Checked.exists_bind (ht.state.bounds.exists_setUpper hv x) fun _ _ => ⟨_, rfl⟩

theorem exists_restand (ht : t.Shaped solved σ) (hb : t.hasBasis = true) {i : Nat}
    (hi : i < t.rowCount) : ∃ u, t.restand i = .ok u := by
  refine Checked.exists_bind (ht.state.exists_recorded hi) fun _ _ =>
    Checked.exists_bind (exists_classifyAt ht.state (ht.split hb) hi) fun w hw => ?_
  have hlen := (classifyAt_moves hw).length_standings.trans ht.state.standings
  exact Checked.exists_bind (Checked.exists_getAt (hlen.symm ▸ hi)) fun _ _ => ⟨_, rfl⟩

/-- A new bound takes effect on whatever variable it is for. -/
theorem exists_enforce (ht : t.Shaped solved σ) (hb : t.hasBasis = true)
    (hsize : t.inverse.size = t.rowCount) {v : Nat} (hv : v < t.varCount) (bound : α)
    (violated : α → Bool) : ∃ u, t.enforce v bound violated = .ok u := by
  have hcount := (silent_count t .boundTightenings).shaped ht
  have hsplit := ht.split hb
  unfold enforce
  rw [if_pos (show (t.count .boundTightenings).hasBasis = true from hb)]
  refine Checked.exists_bind_of_ok (hsplit.positionOf_eq hv) ?_
  split
  -- A basic variable is looked at again; a non-basic one may have to be moved.
  next hrole => exact exists_restand hcount hb (hsplit.of_isBasic hv hrole).1
  next hrole =>
    have hrole : t.split.isBasic v = false := Bool.eq_false_iff.mpr hrole
    refine Checked.exists_bind
      (ht.state.exists_nonBasicValue (hsplit.of_not_isBasic hv hrole).1) fun x _ => ?_
    split
    · exact exists_moveNonBasic hcount hb hsize hv hrole bound true
    · exact ⟨_, rfl⟩

/-- **Raising a lower bound.** -/
theorem exists_tightenLower (ht : t.Shaped solved σ) (hb : t.hasBasis = true)
    (hsize : t.inverse.size = t.rowCount) {v : Nat} (hv : v < t.varCount) (x : α) :
    ∃ u, t.tightenLower v x = .ok u := by
  have hstart := (silent_remark t (.tighteningLower v x)).shaped ht
  refine Checked.exists_bind (exists_setLower hstart hv x) fun w hw => ?_
  have hshaped := hstart.setLower hw
  obtain ⟨bounds, -, _, _, rfl⟩ := setLower_spec hw
  exact exists_enforce hshaped hb hsize hv x _

/-- **Lowering an upper bound.** -/
theorem exists_tightenUpper (ht : t.Shaped solved σ) (hb : t.hasBasis = true)
    (hsize : t.inverse.size = t.rowCount) {v : Nat} (hv : v < t.varCount) (x : α) :
    ∃ u, t.tightenUpper v x = .ok u := by
  have hstart := (silent_remark t (.tighteningUpper v x)).shaped ht
  refine Checked.exists_bind (exists_setUpper hstart hv x) fun w hw => ?_
  have hshaped := hstart.setUpper hw
  obtain ⟨bounds, -, _, _, rfl⟩ := setUpper_spec hw
  exact exists_enforce hshaped hb hsize hv x _

/-! ## §4.  The inverse and the costs -/

theorem exists_refactor (ht : t.Shaped solved σ) (hb : t.hasBasis = true) :
    ∃ r, t.refactor = .ok r := by
  rw [refactor_eq_refresh]
  refine Checked.exists_bind (ht.state.exists_basisColumns (ht.split hb)) fun columns _ => ?_
  split <;> exact ⟨_, rfl⟩

theorem exists_finish (ht : t.Shaped solved σ) (hb : t.hasBasis = true) :
    ∃ u, t.finish = .ok u := by
  unfold finish refactorIfDue
  split
  · refine Checked.exists_bind (exists_refactor ht.clearPlan hb) fun r _ => ?_
    obtain ⟨r, u⟩ := r
    cases r <;> exact ⟨_, rfl⟩
  · exact ⟨_, rfl⟩

theorem exists_computePrices (ht : t.Shaped solved σ) (hb : t.hasBasis = true)
    (hsize : t.inverse.size = t.rowCount) : ∃ u, t.computePrices = .ok u := by
  refine Checked.exists_bind (Checked.exists_require hb) fun _ _ =>
    Checked.exists_bind (Pricing.exists_compute ht.state.matrix ht.inverse hsize ht.state.standings
      fun v hv => ?_) fun _ _ => ⟨_, rfl⟩
  obtain ⟨j, hj, rfl⟩ := List.mem_iff_getElem.mp hv
  exact ((ht.split hb).nonBasic.of_getElem? (List.getElem?_eq_getElem hj)).1

/-! ## §5.  The entering variable -/

section Entering

variable (ht : t.Shaped solved σ) (hb : t.hasBasis = true)
include ht hb

/-- Whether a variable can be taken depends on its bounds and its value, which can be read. -/
theorem exists_isEligible {j : Nat} (hj : j < t.nonBasicCount) (cost : α) :
    ∃ b, t.isEligible j cost = .ok b := by
  have hv := (ht.split hb).nonBasicVar_lt hj
  have hread := (ht.split hb).nonBasicAt_eq hj
  have hlower : ∃ b, t.canFall j = .ok b := by
    refine Checked.exists_bind_of_ok hread ?_
    exact Checked.exists_bind (ht.state.exists_lower hv) fun _ _ =>
      Checked.exists_bind (ht.state.exists_nonBasicValue hj) fun _ _ => ⟨_, rfl⟩
  have hupper : ∃ b, t.canRise j = .ok b := by
    refine Checked.exists_bind_of_ok hread ?_
    exact Checked.exists_bind (ht.state.exists_upper hv) fun _ _ =>
      Checked.exists_bind (ht.state.exists_nonBasicValue hj) fun _ _ => ⟨_, rfl⟩
  unfold isEligible
  split
  · exact ⟨false, rfl⟩
  · split
    · exact hlower
    · exact hupper

/-- The candidates are non-basic positions. -/
theorem exists_candidates (hstale : t.pricing.stale = false) :
    ∃ js, t.candidates = .ok js ∧ ∀ j ∈ js, j < t.nonBasicCount := by
  have hlen := ht.costs hstale
  have hposition {entry : α × Nat} (hentry : entry ∈ t.pricing.costs.zipIdx) :
      entry.2 < t.nonBasicCount :=
    hlen ▸ (List.getElem?_eq_some_iff.mp (List.mem_zipIdx_iff_getElem?.mp hentry)).1
  -- All non-basic variables can be judged, by their positions.
  obtain ⟨judged, hjudged⟩ := Checked.exists_mapM
    (f := fun (entry : α × Nat) =>
      (do return (entry.2, ← t.isEligible entry.2 entry.1) : Checked _))
    fun entry hentry => Checked.exists_bind
      (exists_isEligible ht hb (hposition hentry) entry.1) fun _ _ => ⟨_, rfl⟩
  refine ⟨(judged.filter (·.2)).map (·.1), ?_, fun j hj => ?_⟩
  · exact Checked.bind_eq_ok.mpr ⟨(), Checked.require_eq_ok.mpr hstale,
      Checked.bind_eq_ok.mpr ⟨(), Checked.require_eq_ok.mpr hlen,
        Checked.bind_eq_ok.mpr ⟨judged, hjudged, rfl⟩⟩⟩
  · obtain ⟨p, hp, rfl⟩ := List.mem_map.mp hj
    obtain ⟨entry, hentry, hpair⟩ :=
      Checked.exists_of_mem_mapM hjudged (List.mem_of_mem_filter hp)
    obtain ⟨b, -, hpair⟩ := Checked.bind_eq_ok.mp hpair
    cases hpair
    exact hposition hentry

/-- **Selecting the entering variable**, by any rule. -/
theorem exists_chooseEntering (hstale : t.pricing.stale = false) (rule : EnteringRule) :
    ∃ r, t.chooseEntering rule = .ok r := by
  obtain ⟨js, hjs, hlt⟩ := exists_candidates ht hb hstale
  refine Checked.exists_bind_of_ok hjs ?_
  refine Checked.exists_bind (EnteringRule.exists_choose fun j hj =>
    (ht.costs hstale).symm ▸ hlt j hj)
    fun r hr => ?_
  obtain ⟨chosen, next⟩ := r
  cases chosen with
  | none => exact ⟨_, rfl⟩
  | some j =>
    have hj := hlt j (EnteringRule.mem_of_choose hr)
    exact Checked.exists_bind (Checked.exists_bind (Checked.exists_require hj) fun _ _ => ⟨_, rfl⟩)
      fun _ _ => ⟨_, rfl⟩

end Entering

/-- A rule that found a variable selected it. -/
theorem entering_of_chooseEntering {rule next : EnteringRule}
    (h : t.chooseEntering rule = .ok (true, next, u)) : ∃ j, u.plan.entering = some j := by
  obtain ⟨_, -, h⟩ := Checked.bind_eq_ok.mp h
  obtain ⟨⟨chosen, _⟩, -, h⟩ := Checked.bind_eq_ok.mp h
  cases chosen with
  | none => cases h
  | some j =>
    obtain ⟨w, hw, h⟩ := Checked.bind_eq_ok.mp h
    cases h
    obtain ⟨-, rfl⟩ := selectEntering_spec hw
    exact ⟨j, rfl⟩

end Tableau

end BoundedSimplex
