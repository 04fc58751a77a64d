/-
  BoundedSimplex.Proofs.SettingOut — what a start depends on.

  A start from a list of variables gives every variable its row, lists the others, and computes the
  rest: inverse, values, standings and costs.  Marking the variables and giving them their rows one
  by one, in any order, comes to the same.  Whatever was done to the tableau before leaves no trace,
  in any arithmetic: two tableaux with the same equations, bounds, settings, kind of inverse and
  source of costs start alike.

  Main results:
    * `exists_run_start_eq_startFrom` — variables that are given their rows one by one;
    * `exists_startFrom_eq_launch` — both ways to start come to one computation;
    * `startAnswers` — what a start answers;
    * `SameProblem.startFrom` — two tableaux start alike.
-/
import BoundedSimplex.Proofs.Basis.Assigned
import BoundedSimplex.Proofs.Continuation
import BoundedSimplex.Proofs.Refusals
import BoundedSimplex.Proofs.Tableau.Progress

namespace BoundedSimplex

open BasisSplit

variable {α : Type} [Scalar α]

/-! ## §1.  Rows that are given one by one -/

/-- Marks and rows for the variables of a list, each of which gets the row at its position after it
    was marked.  How often, and in which order, does not matter. -/
structure GivesRows (vs : List Nat) (ops : List (Operation α)) : Prop where
  only : ∀ op ∈ ops, ∃ p ∈ vs.zipIdx, op = .markBasic p.1 ∨ op = .assignRow p.1 p.2
  marked : ∀ before after v i, ops = before ++ .assignRow v i :: after → .markBasic v ∈ before
  every : ∀ p ∈ vs.zipIdx, .assignRow p.1 p.2 ∈ ops

namespace GivesRows

variable {vs : List Nat} {ops : List (Operation α)} {v i : Nat}

omit [Scalar α] in
theorem mem_of_markBasic (h : GivesRows vs ops) (hv : .markBasic v ∈ ops) : v ∈ vs := by
  obtain ⟨p, hp, heq | heq⟩ := h.only _ hv
  · cases heq
    exact List.mem_of_getElem? (List.mem_zipIdx_iff_getElem?.mp hp)
  · cases heq

omit [Scalar α] in
theorem mem_of_assignRow (h : GivesRows vs ops) (hv : .assignRow v i ∈ ops) :
    (v, i) ∈ vs.zipIdx := by
  obtain ⟨p, hp, heq | heq⟩ := h.only _ hv
  · cases heq
  · cases heq
    exact hp

omit [Scalar α] in
theorem markBasic_mem_iff (h : GivesRows vs ops) : .markBasic v ∈ ops ↔ v ∈ vs := by
  refine ⟨h.mem_of_markBasic, fun hv => ?_⟩
  obtain ⟨i, hi⟩ := List.mem_iff_getElem?.mp hv
  obtain ⟨before, after, hops⟩ :=
    List.append_of_mem (h.every (v, i) (List.mem_zipIdx_iff_getElem?.mpr hi))
  rw [hops]
  exact List.mem_append_left _ (h.marked before after v i hops)

omit [Scalar α] in
theorem assignRow_mem_iff (h : GivesRows vs ops) {p : Nat × Nat} :
    .assignRow p.1 p.2 ∈ ops ↔ p ∈ vs.zipIdx :=
  ⟨h.mem_of_assignRow, h.every p⟩

end GivesRows

omit [Scalar α] in
/-- A kind is the kind it is. -/
theorem BasisInverse.SameKind.refl (f : BasisInverse α) : f.SameKind f := by
  cases f with
  | product f => exact rfl
  | explicit f => exact rfl

/-- Costs depend on their source and on what they are computed from. -/
theorem Pricing.compute_agree {p q : Pricing α} (h : q.rule = p.rule) (view : Pricing.View α) :
    Agree (fun a b => a.rule = p.rule ∧ b.rule = p.rule ∧ b.costs = a.costs ∧ b.stale = a.stale)
      (p.compute view) (q.compute view) := by
  unfold Pricing.compute
  rw [h]
  refine .step _ fun _ _ => ?_
  cases hp : p.rule with
  | infeasibility =>
    exact .step (price view (view.standings.map Standing.cost)) fun _ _ => .ok ⟨rfl, rfl, rfl, rfl⟩
  | fixed costs => exact .ok ⟨rfl, rfl, rfl, rfl⟩
  | weighted weights =>
    exact .step (price view (Scalar.fit view.inverse.size weights)) fun _ _ =>
      .ok ⟨rfl, rfl, rfl, rfl⟩

namespace Tableau

variable {t u w : Tableau α} {σ : Settings α} {vs : List Nat}

/-- **Giving rows one by one.**  The split that comes out does not depend on the order. -/
theorem exists_run_of_givesRows (hvs : FillsRows t.rowCount t.varCount vs)
    {ops : List (Operation α)} (hops : GivesRows vs ops) (hb : t.hasBasis = false)
    (hsplit : t.split = blank t.rowCount t.varCount) :
    ∃ split, t.run ops = .ok { t with split }
      ∧ split.Assigned t.rowCount t.varCount (· ∈ vs) (· ∈ vs.zipIdx) := by
  -- what was done so far decides which variables are marked and have rows
  have hfrom (rest : List (Operation α)) : ∀ done split, ops = done ++ rest →
      split.Assigned t.rowCount t.varCount (.markBasic · ∈ done) (fun p =>
        .assignRow p.1 p.2 ∈ done) →
      ∃ split', run { t with split } rest = .ok { t with split := split' }
        ∧ split'.Assigned t.rowCount t.varCount (.markBasic · ∈ ops)
          fun p => .assignRow p.1 p.2 ∈ ops := by
    induction rest with
    | nil =>
      intro done split hdone hs
      rw [hdone, List.append_nil]
      exact ⟨split, rfl, hs⟩
    | cons op rest ih =>
      intro done split hdone hs
      have hmem : op ∈ ops := hdone ▸ List.mem_append_right done List.mem_cons_self
      have hnext : ops = (done ++ [op]) ++ rest := by
        rw [hdone, List.append_assoc, List.singleton_append]
      obtain ⟨p, hp, rfl | rfl⟩ := hops.only op hmem
      · have hknown := hvs.known p.1 (hops.mem_of_markBasic hmem)
        obtain ⟨split', hmark, hs'⟩ := hs.exists_markBasic hknown
        obtain ⟨last, hrun, hlast⟩ := ih _ split' hnext (hs'.congr (by simp [or_comm]) (by simp))
        refine ⟨last, run_cons.mpr ⟨.done, { t with split := split' }, ?_, hrun⟩, hlast⟩
        exact Checked.bind_eq_ok.mpr ⟨_, Checked.bind_eq_ok.mpr ⟨(), Checked.require_eq_ok.mpr hb,
          Checked.bind_eq_ok.mpr ⟨split', hmark, rfl⟩⟩, rfl⟩
      · have hmarked := hops.marked done rest p.1 p.2 hdone
        have hp' := List.mem_zipIdx_iff_getElem?.mp hp
        have hrow : p.2 < t.rowCount := hvs.length ▸ (List.getElem?_eq_some_iff.mp hp').1
        obtain ⟨split', hassign, hs'⟩ := hs.exists_assignRow (p := p) hmarked
          (hvs.known p.1 (List.mem_of_getElem? hp')) hrow fun q hq =>
            hvs.fst_eq_iff (hops.mem_of_assignRow (hdone ▸ List.mem_append_left _ hq)) hp
        obtain ⟨last, hrun, hlast⟩ := ih _ split' hnext (hs'.congr (by simp)
          (by simp [Prod.ext_iff, or_comm]))
        refine ⟨last, run_cons.mpr ⟨.done, { t with split := split' }, ?_, hrun⟩, hlast⟩
        exact Checked.bind_eq_ok.mpr ⟨_, Checked.bind_eq_ok.mpr ⟨(), Checked.require_eq_ok.mpr hb,
          Checked.bind_eq_ok.mpr ⟨split', hassign, rfl⟩⟩, rfl⟩
  obtain ⟨split, hrun, hs⟩ := hfrom ops [] t.split rfl (hsplit ▸ (assigned_blank _ _).congr
    (by simp) (by simp))
  exact ⟨split, hrun, hs.congr (fun v => hops.markBasic_mem_iff.symm)
    fun p => hops.assignRow_mem_iff.symm⟩

/-- The shortest way: each variable is marked and given its row at once. -/
def rowSteps (ps : List (Nat × Nat)) : List (Operation α) :=
  ps.flatMap fun p => [.markBasic p.1, .assignRow p.1 p.2]

theorem run_rowSteps (t : Tableau α) (ps : List (Nat × Nat)) :
    t.run (rowSteps ps) = ps.foldlM (fun t p => do (← t.markBasic p.1).assignRow p.1 p.2) t := by
  induction ps generalizing t with
  | nil => rfl
  | cons p ps ih =>
    have hsteps : rowSteps (p :: ps)
        = (.markBasic p.1 : Operation α) :: .assignRow p.1 p.2 :: rowSteps ps := rfl
    rw [hsteps, List.foldlM_cons, run, perform, replyDone]
    cases t.markBasic p.1 with
    | error cause => rfl
    | ok a =>
      show a.run (.assignRow p.1 p.2 :: rowSteps ps) = (a.assignRow p.1 p.2 >>= _)
      rw [run, perform, replyDone]
      cases a.assignRow p.1 p.2 with
      | error cause => rfl
      | ok b => exact ih b

omit [Scalar α] in
theorem markBasic_mem_of_rowSteps {ps : List (Nat × Nat)} {before after : List (Operation α)}
    {v i : Nat} (h : rowSteps ps = before ++ .assignRow v i :: after) : .markBasic v ∈ before := by
  induction ps generalizing before with
  | nil => simp [rowSteps] at h
  | cons p ps ih =>
    have hsteps : rowSteps (p :: ps)
        = (.markBasic p.1 : Operation α) :: .assignRow p.1 p.2 :: rowSteps ps := rfl
    rw [hsteps] at h
    -- the row is given by the second step, or by a later one
    cases before with
    | nil => cases (List.cons.inj h).1
    | cons first before =>
      obtain ⟨rfl, htail⟩ := List.cons.inj h
      cases before with
      | nil =>
        cases (List.cons.inj htail).1
        exact List.mem_cons_self
      | cons second before =>
        exact List.mem_cons_of_mem _ (List.mem_cons_of_mem _ (ih (List.cons.inj htail).2))

omit [Scalar α] in
theorem givesRows_rowSteps (vs : List Nat) :
    GivesRows vs (rowSteps vs.zipIdx : List (Operation α)) where
  only op hop := by
    obtain ⟨p, hp, hmem⟩ := List.mem_flatMap.mp hop
    exact ⟨p, hp, by simpa using hmem⟩
  marked _ _ _ _ h := markBasic_mem_of_rowSteps h
  every p hp := List.mem_flatMap.mpr ⟨p, hp, by simp⟩

omit [Scalar α] in
/-- First all marks and then all rows, each in any order. -/
theorem givesRows_of_perm {marks : List Nat} {rows : List (Nat × Nat)} (hmarks : marks.Perm vs)
    (hrows : rows.Perm vs.zipIdx) :
    GivesRows vs (marks.map .markBasic ++ rows.map fun p =>
        (.assignRow p.1 p.2 : Operation α)) where
  only op hop := by
    rcases List.mem_append.mp hop with hop | hop
    · obtain ⟨v, hv, rfl⟩ := List.mem_map.mp hop
      obtain ⟨i, hi⟩ := List.mem_iff_getElem?.mp (hmarks.mem_iff.mp hv)
      exact ⟨(v, i), List.mem_zipIdx_iff_getElem?.mpr hi, .inl rfl⟩
    · obtain ⟨p, hp, rfl⟩ := List.mem_map.mp hop
      exact ⟨p, hrows.mem_iff.mp hp, .inr rfl⟩
  marked before after v i h := by
    -- a row is given after all marks
    have hsplit : (marks.map .markBasic : List (Operation α)) ⊆ before
        ∧ (.assignRow v i : Operation α) ∈ rows.map fun p => .assignRow p.1 p.2 := by
      rcases List.append_eq_append_iff.mp h with ⟨given, rfl, hgiven⟩ | ⟨rest, hrest, hafter⟩
      · exact ⟨List.subset_append_left _ _, by simp [hgiven]⟩
      · cases rest with
        | nil =>
          rw [List.append_nil] at hrest
          rw [List.nil_append] at hafter
          exact ⟨hrest ▸ List.Subset.refl _, hafter ▸ List.mem_cons_self⟩
        | cons op rest =>
          obtain ⟨rfl, -⟩ := List.cons.inj hafter
          obtain ⟨w, -, hw⟩ :=
            List.mem_map.mp (hrest ▸ List.mem_append_right before List.mem_cons_self :
            .assignRow v i ∈ (marks.map .markBasic : List (Operation α)))
          cases hw
    obtain ⟨p, hp, heq⟩ := List.mem_map.mp hsplit.2
    cases heq
    refine hsplit.1 (List.mem_map_of_mem (hmarks.mem_iff.mpr ?_))
    exact List.mem_of_getElem? (List.mem_zipIdx_iff_getElem?.mp (hrows.mem_iff.mp hp))
  every p hp := List.mem_append_right _ (List.mem_map.mpr ⟨p, hrows.mem_iff.mpr hp, rfl⟩)

/-! ## §2.  What a start comes to -/

/-- Counting different members gives the length exactly if none is repeated. -/
theorem countDistinct_eq_length_iff : countDistinct vs = vs.length ↔ vs.Nodup := by
  have hperm : vs.eraseDups.Perm vs.dedup := by
    rw [List.perm_ext_iff_of_nodup (nodup_eraseDups vs) (List.nodup_dedup vs)]
    intro v
    rw [List.mem_eraseDups, List.mem_dedup]
  rw [countDistinct, hperm.length_eq, (List.dedup_sublist vs).length_eq, List.dedup_eq_self]

/-- **A start from a list** of one variable for each row, all of them different, completes the setup
    that gives them these rows. -/
theorem exists_startFrom_eq_start (hvs : FillsRows t.rowCount t.varCount vs) :
    ∃ split, split.Assigned t.rowCount t.varCount (· ∈ vs) (· ∈ vs.zipIdx)
      ∧ t.startFrom vs = start { t with split, hasBasis := false } := by
  obtain ⟨split, hrun, hs⟩ := exists_run_of_givesRows (t := { t with
    split := blank t.rowCount t.varCount, hasBasis := false }) hvs (givesRows_rowSteps vs) rfl rfl
  refine ⟨split, hs, ?_⟩
  -- The checks of the list are passed, so its rows are given.
  have hknown : vs.find? (t.varCount ≤ ·) = none := by
    refine List.find?_eq_none.mpr fun v hv => ?_
    simpa using hvs.known v hv
  have hsize : ¬(vs.length ≠ t.rowCount ∨ countDistinct vs ≠ t.rowCount) := by
    rw [not_or, not_not, not_not, ← hvs.length]
    exact ⟨rfl, countDistinct_eq_length_iff.mpr hvs.nodup⟩
  rw [run_rowSteps] at hrun
  unfold startFrom
  rw [hknown]
  dsimp only
  rw [if_neg hsize, assignRows, hrun]
  rfl

/-- **Marking the variables and giving them their rows**, in any order, and completing the setup is
    a start from their list. -/
theorem exists_run_start_eq_startFrom (hvs : FillsRows t.rowCount t.varCount vs)
    (hb : t.hasBasis = false) (hsplit : t.split = blank t.rowCount t.varCount)
    {ops : List (Operation α)} (hops : GivesRows vs ops) :
    ∃ w, t.run ops = .ok w ∧ w.start = t.startFrom vs := by
  obtain ⟨split, hrun, hs⟩ := exists_run_of_givesRows hvs hops hb hsplit
  obtain ⟨split', hs', hstart⟩ := exists_startFrom_eq_start hvs
  obtain rfl := hs.unique hs'
  refine ⟨_, hrun, ?_⟩
  rw [hstart, ← hb]

/-- What a start does from the fresh start of the inverse on. -/
def launch (t : Tableau α) : Attempt α Unit := do
  match ← t.refactor with
  | (.error cause, t) => return (.error cause, t)
  | (.ok (), t) =>
    let t ← { t with hasBasis := true, plan := .none }.computeValues
    let t ← t.computePrices
    t.requireConsistent
    return (.ok (), t)

/-- The completion of a setup, up to the refresh. -/
theorem start_eq (t : Tableau α) : t.start =
    if t.split.basicSet.size ≠ t.rowCount then
      .ok (.error (.basisSize t.rowCount t.split.basicSet.size), t)
    else (do
      let split ← t.split.listNonBasic
      Checked.require (split.isConsistent = true) .brokenPartition
      let values ← split.nonBasic.mapM t.bounds.startValue
      (t.vacated split values).launch) :=
  rfl

/-- A tableau that comes to `w` is completed from `w` on. -/
theorem ComesTo.start_eq (h : t.ComesTo w) : t.start = w.launch := by
  obtain ⟨hsize, split, values, hlist, hcons, hvalues, rfl⟩ := h
  rw [Tableau.start_eq, if_neg (not_not.mpr hsize), hlist, Checked.ok_bind, Checked.require,
    if_pos hcons, Checked.ok_bind, hvalues, Checked.ok_bind]

omit [Scalar α] in
/-- The basis is that of the list. -/
theorem basisColumns_of_arranged {m n : Nat} {s : State α} (h : s.split.Arranged m n vs) :
    s.basisColumns = vs.mapM s.matrix.column := by
  unfold State.basisColumns
  rw [h.basic, List.mapM_map]
  rfl

/-- A tableau on the way to a first or another basis is in shape. -/
theorem Shaped.vacated (ht : t.Shaped False σ) {split : BasisSplit} {values : List α}
    (hsplit : split.WellFormed t.rowCount t.varCount) (hmarked : split.Marked)
    (hvalues : values.length = t.nonBasicCount) :
    ({ t with hasBasis := false }.vacated split values).Shaped False σ := by
  have hs := ht.state
  exact ⟨ht.settings, ⟨hs.matrix, hs.rightHandSide, hs.bounds, hsplit.basic.length,
    hsplit.places, hmarked, Scalar.length_zeros _, hvalues, List.length_replicate⟩, ht.inverse,
    ht.multipliers, ht.costs, ht.plan, (fun h => by cases h), (fun h => by cases h),
    fun h => h.elim⟩

/-- **Both ways to start** come to one computation. -/
theorem exists_startFrom_eq_launch (ht : t.Shaped False σ)
    (hvs : FillsRows t.rowCount t.varCount vs) :
    ∃ split values, split.Arranged t.rowCount t.varCount vs
      ∧ split.nonBasic.mapM t.bounds.startValue = .ok values
      ∧ t.startFrom vs = ({ t with hasBasis := false }.vacated split values).launch := by
  obtain ⟨given, hgiven, hstart⟩ := exists_startFrom_eq_start hvs
  obtain ⟨split, hlist, hset, hsplit⟩ := hgiven.exists_listNonBasic hvs
  -- The bounds of the non-basic variables can be read.
  obtain ⟨values, hvalues⟩ : ∃ values, split.nonBasic.mapM t.bounds.startValue = .ok values := by
    refine Checked.exists_mapM fun v hv => ?_
    rw [hsplit.nonBasic] at hv
    have hv := List.mem_range.mp (List.mem_of_mem_filter hv)
    exact Checked.exists_bind (ht.state.exists_lower hv) fun _ _ =>
      Checked.exists_bind (ht.state.exists_upper hv) fun _ _ => ⟨_, rfl⟩
  have hsize : given.basicSet.size = t.rowCount := by
    rw [← hset]
    exact hsplit.wellFormed.size_basicSet hsplit.marked
  have hcomes : ComesTo { t with split := given, hasBasis := false }
      ({ t with hasBasis := false }.vacated split values) :=
    ⟨hsize, split, values, hlist, hsplit.wellFormed.isConsistent hsplit.marked, hvalues, rfl⟩
  exact ⟨split, values, hsplit, hvalues, hstart.trans hcomes.start_eq⟩

/-- The basis is turned down. -/
theorem launch_eq_error {cause : Failure} (h : t.refactor = .ok (.error cause, w)) :
    t.launch = .ok (.error cause, w) := by
  unfold launch
  rw [h]
  rfl

/-- A refresh with accepted columns goes through. -/
theorem exists_refactor_of_refresh {columns : List (List α)} {inverse : BasisInverse α}
    (hcolumns : t.basisColumns = .ok columns) (hinverse : t.inverse.refresh columns = .ok inverse) :
    ∃ w, t.refactor = .ok (.ok (), w) := by
  rw [refactor_eq_refresh, hcolumns, Checked.ok_bind, hinverse]
  exact ⟨_, rfl⟩

/-- Computed values claim to satisfy the equations. -/
theorem settled_of_computeValues (h : t.computeValues = .ok u) : u.settled = true := by
  obtain ⟨_, -, h⟩ := Checked.bind_eq_ok.mp h
  obtain ⟨_, -, h⟩ := Checked.bind_eq_ok.mp h
  obtain ⟨_, -, h⟩ := Checked.bind_eq_ok.mp h
  obtain ⟨_, hclass, h⟩ := Checked.bind_eq_ok.mp h
  obtain ⟨_, -, rfl⟩ := of_classifyAll hclass
  obtain ⟨_, -, h⟩ := Checked.bind_eq_ok.mp h
  cases h
  rw [(silent_tellValues _ _).toState]
  rfl

/-- The inverse is accepted: values and costs are computed, and the check has the last word. -/
theorem Shaped.exists_launch (ht : t.Shaped False σ)
    (hsplit : t.split.WellFormed t.rowCount t.varCount) (hw : t.refactor = .ok (.ok (), w)) :
    ∃ v u, Tableau.computeValues { w with hasBasis := true, plan := .none } = .ok v
      ∧ v.computePrices = .ok u ∧ u.Shaped False σ ∧ u.split = t.split ∧ u.merges = t.merges
      ∧ u.settled = true ∧ t.launch = (u.requireConsistent >>= fun _ => .ok (.ok (), u)) := by
  obtain ⟨hshaped, hsize⟩ := ht.refactor hw
  have hstate : w.toState = t.toState := by
    obtain ⟨_, ⟨_, _, rfl⟩, -⟩ := refactor_spec hw
    rfl
  have hset := hshaped.setUp (by rw [hstate]; exact hsplit) (hsize rfl)
  obtain ⟨v, hv⟩ := exists_computeValues hset rfl (hsize rfl)
  have hsettled := settled_of_computeValues hv
  have hvshaped := hset.computeValues hv
  -- Nothing after the refresh changes the split or the merges.
  obtain ⟨x, hx, rfl⟩ := computeValues_moves hset.state hset.inverse hv
  obtain ⟨hxsize, hxsplit, hxmerges⟩ : x.inverse.size = x.rowCount ∧ x.split = w.split
      ∧ x.merges = w.merges := by
    obtain ⟨_, _, _, _, _, _, -, -, -, rfl⟩ := hx
    exact ⟨hsize rfl, rfl, rfl⟩
  obtain ⟨u, hu⟩ := exists_computePrices hvshaped (hx.hasBasis.trans rfl) hxsize
  have hprices := hu
  obtain ⟨_, -, hprices⟩ := Checked.bind_eq_ok.mp hprices
  obtain ⟨pricing, -, hprices⟩ := Checked.bind_eq_ok.mp hprices
  obtain rfl := Except.ok.inj hprices
  refine ⟨_, _, hv, hu, hvshaped.computePrices hu, hxsplit.trans (congrArg State.split hstate),
    hxmerges.trans (congrArg State.merges hstate), hsettled, ?_⟩
  unfold launch
  rw [hw, Checked.ok_bind]
  dsimp only
  rw [hv, Checked.ok_bind, hu]
  rfl

/-- The outcome of a start whose basis is accepted: the check at the end decides. -/
def EndsInCheck (t : Tableau α) (vs : List Nat) (u : Tableau α) : Prop :=
  (u.isConsistent 1e-6 = .ok true ∧ t.startFrom vs = .ok (.ok (), u))
    ∨ (u.isConsistent 1e-6 = .ok false ∧ t.startFrom vs = .error .inconsistent)

/-- **The outcomes of a start** from one variable for each row, all of them different.  It fails if
    the basis is turned down; otherwise it is accepted, unless the check at the end finds the
    equations violated by too much. -/
theorem startFrom_cases (ht : t.Shaped False σ) (hvs : FillsRows t.rowCount t.varCount vs) :
    ∃ columns, vs.mapM t.matrix.column = .ok columns
      ∧ (∀ cause, t.inverse.refresh columns = .error cause →
        ∃ u, t.startFrom vs = .ok (.error (.factorization cause), u))
      ∧ ∀ inverse, t.inverse.refresh columns = .ok inverse →
        ∃ u, u.split.Arranged t.rowCount t.varCount vs ∧ t.EndsInCheck vs u := by
  obtain ⟨split, values, hsplit, hvalues, hstart⟩ := exists_startFrom_eq_launch ht hvs
  have hlen : values.length = t.nonBasicCount :=
    (Checked.length_of_mapM hvalues).trans hsplit.wellFormed.nonBasic.length
  have hshaped := ht.vacated hsplit.wellFormed hsplit.marked hlen
  obtain ⟨columns, hcolumns⟩ := hshaped.state.exists_basisColumns hsplit.wellFormed
  have hlist :=
    basisColumns_of_arranged (s := ({ t with hasBasis := false }.vacated split values).toState)
    hsplit
  refine ⟨columns, hlist.symm.trans hcolumns, fun cause hcause => ?_, fun inverse hinverse => ?_⟩
  -- A rejected basis ends there; an accepted one ends in the check, passed or not.
  · have hrefactor := refactor_error_iff.mpr ⟨cause, rfl, ⟨columns, hcolumns, hcause⟩, rfl⟩
    exact ⟨_, hstart.trans (launch_eq_error hrefactor)⟩
  · obtain ⟨w, hw⟩ := exists_refactor_of_refresh hcolumns hinverse
    obtain ⟨v, u, -, -, hu, husplit, -, hsettled, hlaunch⟩ :=
      hshaped.exists_launch hsplit.wellFormed hw
    refine ⟨u, husplit ▸ hsplit, ?_⟩
    unfold EndsInCheck
    rw [hstart, hlaunch]
    obtain ⟨b, hb⟩ := hu.isConsistent 1e-6
    cases b with
    | true =>
      rw [requireConsistent_eq_ok (.inr hb)]
      exact .inl ⟨hb, rfl⟩
    | false =>
      rw [requireConsistent_eq_error hb (by simp [hsettled, hb])]
      exact .inr ⟨hb, rfl⟩

/-- The first unknown variable. -/
theorem startFrom_unknown {v : Nat} (hfind : vs.find? (t.varCount ≤ ·) = some v) :
    t.startFrom vs = .ok (.error (.unknownVariable v t.varCount), t) := by
  unfold startFrom
  rw [hfind]
  rfl

/-- A wrong number of variables. -/
theorem startFrom_basisSize (hknown : ∀ v ∈ vs, v < t.varCount)
    (hsize : ¬(vs.Nodup ∧ vs.length = t.rowCount)) :
    t.startFrom vs = .ok (.error (.basisSize t.rowCount (countDistinct vs)), t) := by
  have hfind : vs.find? (t.varCount ≤ ·) = none :=
    List.find?_eq_none.mpr fun v hv => by simpa using hknown v hv
  have hcount : vs.length ≠ t.rowCount ∨ countDistinct vs ≠ t.rowCount := by
    rw [← countDistinct_eq_length_iff] at hsize
    omega
  unfold startFrom
  rw [hfind]
  dsimp only
  rw [if_pos hcount]
  rfl

/-- What a start answers, in the order in which the reasons are looked for. -/
structure StartAnswers (t : Tableau α) (vs : List Nat) : Prop where
  unknownVariable : ∀ before v after, vs = before ++ v :: after → (∀ w ∈ before, w < t.varCount) →
    t.varCount ≤ v → t.startFrom vs = .ok (.error (.unknownVariable v t.varCount), t)
  basisSize : (∀ v ∈ vs, v < t.varCount) → ¬(vs.Nodup ∧ vs.length = t.rowCount) →
    t.startFrom vs = .ok (.error (.basisSize t.rowCount (countDistinct vs)), t)
  columns : FillsRows t.rowCount t.varCount vs → ∃ columns, vs.mapM t.matrix.column = .ok columns
  factorization : FillsRows t.rowCount t.varCount vs → ∀ columns, vs.mapM t.matrix.column
    = .ok columns →
    ∀ cause, (∃ u, t.startFrom vs = .ok (.error (.factorization cause), u))
      ↔ t.inverse.refresh columns = .error cause
  accepted : FillsRows t.rowCount t.varCount vs → ∀ columns, vs.mapM t.matrix.column = .ok columns →
    ∀ inverse, t.inverse.refresh columns = .ok inverse →
      ∃ u, u.split.Arranged t.rowCount t.varCount vs ∧ t.EndsInCheck vs u

/-- **The answers of a start.** -/
theorem startAnswers (ht : t.Shaped False σ) (vs : List Nat) : t.StartAnswers vs where
  unknownVariable before v after hvs hbefore hv := by
    refine startFrom_unknown (List.find?_eq_some_iff_append.mpr ⟨by simpa using hv, before,
      after, hvs, ?_⟩)
    intro w hw
    simpa using hbefore w hw
  basisSize := startFrom_basisSize
  columns hvs := by
    obtain ⟨columns, hcolumns, -⟩ := startFrom_cases ht hvs
    exact ⟨columns, hcolumns⟩
  factorization hvs columns hcolumns cause := by
    obtain ⟨columns', hcolumns', hrejected, haccepted⟩ := startFrom_cases ht hvs
    obtain rfl := Except.ok.inj (hcolumns.symm.trans hcolumns')
    refine ⟨fun ⟨u, hu⟩ => ?_, hrejected cause⟩
    -- The answer tells which of both it was.
    cases hrefresh : t.inverse.refresh columns with
    | error cause' =>
      obtain ⟨u', hu'⟩ := hrejected cause' hrefresh
      cases hu.symm.trans hu'
      rfl
    | ok inverse =>
      obtain ⟨_, -, ⟨-, hok⟩ | ⟨-, hends⟩⟩ := haccepted inverse hrefresh
      · cases hu.symm.trans hok
      · cases hu.symm.trans hends
  accepted hvs columns hcolumns inverse hinverse := by
    obtain ⟨columns', hcolumns', -, haccepted⟩ := startFrom_cases ht hvs
    obtain rfl := Except.ok.inj (hcolumns.symm.trans hcolumns')
    exact haccepted inverse hinverse

/-- In `x + y = 1` with `x ≥ 10²⁰` and `y` basic, the basis is accepted, `y` becomes `-10²⁰`, and
    the check finds that `x + y` is 0. -/
theorem start_ends_in_check : ∃ t : Tableau Float, Operated anyStep t
    ∧ FillsRows t.rowCount t.varCount [1]
    ∧ (∃ columns inverse, [1].mapM t.matrix.column = .ok columns
      ∧ t.inverse.refresh columns = .ok inverse)
    ∧ t.startFrom [1] = .error .inconsistent := by
  -- At 1e20 the sum is not 1, so the check fails.
  have hrun : (do
      let t ← (create (α := Float) {}).run [.setSize 1 2, .setCoefficients [1, 1],
        .setRightHandSide [1], .setLower 0 1e20, .setUpper 0 1e21, .setLower 1 0, .setUpper 1 20]
      let columns ← [1].mapM t.matrix.column
      Checked.require (t.rowCount = 1 ∧ t.varCount = 2 ∧ (t.inverse.refresh columns).isOk = true
        ∧ (t.startFrom [1]).map (fun _ => ()) = Except.error Violation.inconsistent) .noEntering)
      = .ok () := by decide +kernel
  obtain ⟨t, ht, hrun⟩ := Checked.bind_eq_ok.mp hrun
  obtain ⟨columns, hcolumns, hrun⟩ := Checked.bind_eq_ok.mp hrun
  obtain ⟨hrow, hvar, hrefresh, hends⟩ := Checked.require_eq_ok.mp hrun
  have hoperated : Operated anyStep t := (Operated.created _).runForward (by simp) ht
  refine ⟨t, hoperated, ⟨by simp [hvar], by simp, by simp [hrow]⟩, ?_, ?_⟩
  · cases hinverse : t.inverse.refresh columns with
    | ok inverse => exact ⟨columns, inverse, hcolumns, hinverse⟩
    | error cause =>
      rw [hinverse] at hrefresh
      cases hrefresh
  · cases hstart : t.startFrom [1] with
    | ok x =>
      rw [hstart] at hends
      cases hends
    | error e =>
      rw [hstart] at hends
      cases hends
      rfl

/-- A list that is accepted has one variable for each row, all of them different. -/
theorem fillsRows_of_startFrom (h : t.startFrom vs = .ok (.ok (), u)) :
    FillsRows t.rowCount t.varCount vs := by
  cases hfind : vs.find? (t.varCount ≤ ·) with
  | some v =>
    rw [startFrom_unknown hfind] at h
    cases h
  | none =>
    have hknown (v : Nat) (hv : v ∈ vs) : v < t.varCount := by
      simpa using List.find?_eq_none.mp hfind v hv
    by_cases hsize : vs.Nodup ∧ vs.length = t.rowCount
    · exact ⟨hknown, hsize.1, hsize.2⟩
    · rw [startFrom_basisSize hknown hsize] at h
      cases h

/-- **After a start** the variables of the list are basic, in its order. -/
theorem arranged_of_startFrom (ht : t.Shaped False σ) (h : t.startFrom vs = .ok (.ok (), u)) :
    u.split.Arranged t.rowCount t.varCount vs ∧ u.merges = t.merges := by
  obtain ⟨split, values, hsplit, hvalues, hstart⟩ :=
    exists_startFrom_eq_launch ht (fillsRows_of_startFrom h)
  have hlen : values.length = t.nonBasicCount :=
    (Checked.length_of_mapM hvalues).trans hsplit.wellFormed.nonBasic.length
  rw [hstart] at h
  obtain ⟨⟨r, w⟩, hw, -⟩ := Checked.bind_eq_ok.mp h
  -- An accepted list has gone through the refresh and through the check.
  cases r with
  | error cause =>
    rw [launch_eq_error hw] at h
    cases h
  | ok _ =>
    obtain ⟨v, x, -, -, -, hxsplit, hxmerges, -, hlaunch⟩ :=
      (ht.vacated hsplit.wellFormed hsplit.marked hlen).exists_launch hsplit.wellFormed hw
    rw [hlaunch] at h
    obtain ⟨_, -, h⟩ := Checked.bind_eq_ok.mp h
    cases h
    exact ⟨hxsplit ▸ hsplit, hxmerges⟩

/-! ## §3.  Nothing else counts -/

/-- The same equations, bounds, settings and source of costs. -/
structure SameProblem (t u : Tableau α) : Prop where
  matrix : u.matrix = t.matrix
  rightHandSide : u.rightHandSide = t.rightHandSide
  bounds : u.bounds = t.bounds
  settings : u.settings = t.settings
  rule : u.pricing.rule = t.pricing.rule

theorem SameProblem.rowCount (h : SameProblem t u) : u.rowCount = t.rowCount :=
  congrArg SystemMatrix.rowCount h.matrix

theorem SameProblem.varCount (h : SameProblem t u) : u.varCount = t.varCount :=
  congrArg SystemMatrix.columnCount h.matrix

/-- The same values, standings and costs for the same basis. -/
structure StartedAlike (t u : Tableau α) : Prop where
  state : u.toState = { t.toState with merges := u.merges }
  inverse : u.inverse = t.inverse
  settings : u.settings = t.settings
  hasBasis : u.hasBasis = t.hasBasis
  rule : u.pricing.rule = t.pricing.rule
  costs : u.pricing.costs = t.pricing.costs
  stale : u.pricing.stale = t.pricing.stale

/-- In the course of two starts: what a start has yet to compute, or does not
    look at, may differ. -/
def Abreast (t u : Tableau α) : Prop :=
  ∃ settled merges pricing multipliers plan watchers statistics journal,
    u = { t with settled, merges, pricing, multipliers, plan, watchers, statistics, journal }
      ∧ pricing.rule = t.pricing.rule

namespace Abreast

theorem remark (h : Abreast t u) (r r' : Remark α) : Abreast (t.remark r) (u.remark r') := by
  obtain ⟨_, _, _, _, _, _, _, _, rfl, hrule⟩ := h
  exact ⟨_, _, _, _, _, _, _, _, rfl, hrule⟩

theorem count (h : Abreast t u) (c : Counter) : Abreast (t.count c) (u.count c) := by
  obtain ⟨_, _, _, _, _, _, _, _, rfl, hrule⟩ := h
  exact ⟨_, _, _, _, _, _, _, _, rfl, hrule⟩

theorem tellValues (h : Abreast t u) (pairs : List (Nat × α)) :
    Abreast (t.tellValues pairs) (u.tellValues pairs) := by
  obtain ⟨_, _, _, _, _, _, _, _, rfl, hrule⟩ := h
  obtain ⟨_, _, ht⟩ := silent_tellValues t pairs
  obtain ⟨_, _, hu⟩ := silent_tellValues _ pairs
  rw [ht, hu]
  exact ⟨_, _, _, _, _, _, _, _, rfl, hrule⟩

theorem invalidatePrices (h : Abreast t u) : Abreast t.invalidatePrices u.invalidatePrices := by
  obtain ⟨_, _, _, _, _, _, _, _, rfl, hrule⟩ := h
  exact ⟨_, _, _, _, _, _, _, _, rfl, hrule⟩

theorem classifyAll (h : Abreast t u) :
    Agree (fun v w => Abreast v w ∧ v.settled = t.settled ∧ w.settled = u.settled) t.classifyAll
      u.classifyAll := by
  obtain ⟨_, _, _, _, _, _, _, _, rfl, hrule⟩ := h
  refine .step (Checked.require (t.rowCount ≤ t.standings.length) _) fun _ _ => ?_
  exact .step (t.allStandings t.settings.boundTolerance) fun _ _ =>
    .ok ⟨⟨_, _, _, _, _, _, _, _, rfl, hrule⟩, rfl, rfl⟩

/-- The same solution for the basic variables. -/
theorem solved (h : Abreast t u) (xs : List α) :
    Abreast { t with basicValues := xs, settled := true }
    { u with basicValues := xs, settled := true } := by
  obtain ⟨_, _, _, _, _, _, _, _, rfl, hrule⟩ := h
  exact ⟨_, _, _, _, _, _, _, _, rfl, hrule⟩

/-- Afterwards both claim to satisfy their equations. -/
theorem computeValues (h : Abreast t u) :
    Agree (fun v w => Abreast v w ∧ v.settled = true ∧ w.settled = true) t.computeValues
      u.computeValues := by
  -- Both take the same steps on the same system; only what is counted and told differs.
  have hboth := h.solved
  obtain ⟨_, _, _, _, _, _, _, _, rfl, -⟩ := h
  refine .step (Checked.require (t.inverse.size = t.rowCount) _) fun _ _ =>
    .step t.remainder fun rhs _ =>
    .step (t.inverse.solveColumn rhs) fun xs _ => ?_
  dsimp only
  refine ((hboth xs).count .assignmentComputations).classifyAll.bind fun v w _ _ hvw => ?_
  obtain ⟨hvw, hv, hw⟩ := hvw
  have hpairs : w.invalidatePrices.basicPairs = v.invalidatePrices.basicPairs := by
    obtain ⟨_, _, _, _, _, _, _, _, rfl, -⟩ := hvw
    rfl
  rw [hpairs]
  refine .step _ fun pairs _ => .ok ⟨hvw.invalidatePrices.tellValues pairs, ?_, ?_⟩
  · rw [(silent_tellValues v.invalidatePrices pairs).toState]
    exact hv
  · rw [(silent_tellValues w.invalidatePrices pairs).toState]
    exact hw

end Abreast

/-- Prices, computed for two tableaux side by side. -/
theorem Abreast.computePrices (h : Abreast t u) (ht : t.settled = true) (hu : u.settled = true) :
    Agree StartedAlike t.computePrices u.computePrices := by
  obtain ⟨settled, _, pricing, _, _, _, _, _, rfl, hrule⟩ := h
  obtain rfl : settled = true := hu
  refine .step t.requireBasis fun _ _ =>
    (Pricing.compute_agree hrule t.pricingView).bind fun p q _ _ hpq => .ok ?_
  obtain ⟨hp, hq, hcosts, hstale⟩ := hpq
  refine ⟨?_, rfl, rfl, rfl, hq.trans hp.symm, hcosts, hstale⟩
  rw [← ht]

/-- The check at the end gives the same answer. -/
theorem StartedAlike.requireConsistent (h : StartedAlike t u) :
    u.requireConsistent = t.requireConsistent := by
  have hsettled : u.settled = t.settled := by rw [h.state]
  unfold Tableau.requireConsistent Tableau.isConsistent
  rw [hsettled, h.hasBasis, h.settings, h.state]
  rfl

/-! ## §4.  Starts side by side -/

/-- The same outcome, and the same start if it is accepted. -/
def StartAgree (r r' : Except Failure Unit × Tableau α) : Prop :=
  r'.1 = r.1 ∧ (r.1 = .ok () → StartedAlike r.2 r'.2)

/-- If one start is accepted, so is the other one. -/
theorem StartAgree.accepted_right {x y : Attempt α Unit} (h : Agree StartAgree x y)
    (hx : x = .ok (.ok (), t)) : ∃ u, y = .ok (.ok (), u) ∧ StartedAlike t u := by
  subst hx
  generalize hr : (Except.ok (Except.ok (), t) : Attempt α Unit) = x at h
  cases h with
  | @ok b c related =>
    cases hr
    obtain ⟨r, u⟩ := c
    obtain rfl : r = .ok () := related.1
    exact ⟨u, rfl, related.2 rfl⟩
  | error cause => cases hr

/-- If one start is accepted, so is the other. -/
theorem StartAgree.accepted_left {x y : Attempt α Unit} (h : Agree StartAgree x y)
    (hy : y = .ok (.ok (), u)) : ∃ t, x = .ok (.ok (), t) ∧ StartedAlike t u := by
  generalize hr : y = r at h
  cases h with
  | @ok b c related =>
    obtain ⟨r, t⟩ := b
    cases hr.symm.trans hy
    obtain rfl : r = .ok () := related.1.symm
    exact ⟨t, rfl, related.2 rfl⟩
  | error cause => cases hr.symm.trans hy

section SideBySide

variable (h : Abreast { t with inverse := u.inverse } u) (hkind : t.inverse.SameKind u.inverse)
include h hkind

theorem refactor_agree :
    Agree (fun r r' => r'.1 = r.1 ∧ (r.1 = .ok () → Abreast r.2 r'.2)) t.refactor u.refactor := by
  obtain ⟨_, _, _, _, _, _, _, _, hu, hrule⟩ := h
  -- The columns of the basis are those of the same matrix, so both are accepted or both rejected.
  have hcolumns : u.basisColumns = t.basisColumns := by
    rw [hu]
    rfl
  rw [refactor_eq_refresh, refactor_eq_refresh, hcolumns]
  refine .step t.basisColumns fun columns _ => ?_
  rw [← hkind.refresh]
  cases t.inverse.refresh columns with
  | error cause => exact .ok ⟨rfl, fun hok => by cases hok⟩
  | ok inverse =>
    refine .ok ⟨rfl, fun _ =>
      ((?_ : Abreast { t with inverse } { u with inverse }).remark _ _).count _⟩
    rw [hu]
    exact ⟨_, _, _, _, _, _, _, _, rfl, hrule⟩

theorem launch_agree : Agree StartAgree t.launch u.launch := by
  refine (refactor_agree h hkind).bind fun r r' _ _ hrr => ?_
  obtain ⟨x, v⟩ := r
  obtain ⟨y, w⟩ := r'
  obtain ⟨hxy, hvw⟩ := hrr
  obtain rfl : y = x := hxy
  cases y with
  | error cause => exact .ok ⟨rfl, fun hok => by cases hok⟩
  | ok _ =>
    have hset : Abreast { v with hasBasis := true, plan := .none }
        { w with hasBasis := true, plan := .none } := by
      obtain ⟨_, _, _, _, _, _, _, _, rfl, hrule⟩ := hvw rfl
      exact ⟨_, _, _, _, _, _, _, _, rfl, hrule⟩
    refine hset.computeValues.bind fun v w _ _ hvw => ?_
    obtain ⟨hvw, hv, hw⟩ := hvw
    refine (hvw.computePrices hv hw).bind fun v w _ _ hvw => ?_
    rw [hvw.requireConsistent]
    exact .step v.requireConsistent fun _ _ => .ok ⟨rfl, fun _ => hvw⟩

end SideBySide

/-- **Completing the setup** of two tableaux with the same problem and the same split. -/
theorem SameProblem.start (h : SameProblem t u) (hkind : t.inverse.SameKind u.inverse)
    (hsplit : u.split = t.split) (hb : u.hasBasis = t.hasBasis) :
    Agree StartAgree t.start u.start := by
  rw [start_eq, start_eq, h.rowCount, hsplit, h.bounds]
  split
  · exact .ok ⟨rfl, fun hok => by cases hok⟩
  · refine .step _ fun split _ => .step _ fun _ _ => .step _ fun values _ => launch_agree ?_ hkind
    obtain ⟨⟨_, _, _, _, _, _, _, _, _⟩, _, _, _, _, _, _, _, _, _⟩ := u
    obtain ⟨hm, hr, hbounds, hσ, hrule⟩ := h
    dsimp only at hm hr hbounds hσ hb hsplit
    subst hm hr hbounds hσ hb hsplit
    exact ⟨_, _, _, _, _, _, _, _, rfl, hrule⟩

/-- **Whatever was done before** leaves no trace in a start. -/
theorem SameProblem.startFrom (h : SameProblem t u) (hkind : t.inverse.SameKind u.inverse)
    (vs : List Nat) : Agree StartAgree (t.startFrom vs) (u.startFrom vs) := by
  cases hfind : vs.find? (t.varCount ≤ ·) with
  | some v =>
    rw [startFrom_unknown hfind, startFrom_unknown (by rw [h.varCount]; exact hfind), h.varCount]
    exact .ok ⟨rfl, fun hok => by cases hok⟩
  | none =>
    have hknown (v : Nat) (hv : v ∈ vs) : v < t.varCount := by
      simpa using List.find?_eq_none.mp hfind v hv
    -- With a proper list the rows are given alike; else both are refused for the same reason.
    by_cases hsize : vs.Nodup ∧ vs.length = t.rowCount
    · have hvs : FillsRows t.rowCount t.varCount vs := ⟨hknown, hsize.1, hsize.2⟩
      obtain ⟨split, hsplit, ht⟩ := exists_startFrom_eq_start hvs
      obtain ⟨split', hsplit', hu⟩ :=
        exists_startFrom_eq_start (h.rowCount.symm ▸ h.varCount.symm ▸ hvs)
      rw [h.rowCount, h.varCount] at hsplit'
      obtain rfl := hsplit.unique hsplit'
      rw [ht, hu]
      exact SameProblem.start ⟨h.matrix, h.rightHandSide, h.bounds, h.settings,
        h.rule⟩ hkind rfl rfl
    · rw [startFrom_basisSize hknown hsize,
        startFrom_basisSize (by rwa [h.varCount]) (by rwa [h.rowCount]), h.rowCount]
      exact .ok ⟨rfl, fun hok => by cases hok⟩

end Tableau

end BoundedSimplex
