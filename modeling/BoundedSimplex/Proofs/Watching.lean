/-
  BoundedSimplex.Proofs.Watching — watchers miss nothing.

  While a tableau keeps its basis, all that happens to values and bounds is told.  A watcher of all
  variables that writes down what it hears sees the present values and bounds after every operation,
  and a watcher of one variable hears of it what the watcher of all variables hears of it.  A merged
  variable is read through another one, so what was stored for it may be anything.

  Main results:
    * `Reports.perform`, `Reports.run` — one operation, and any number of them;
    * `Told.shows` — a mirror that showed the tableau shows it again once it heard what was told;
    * `shows_of_run` — the watchers of a run.
-/
import BoundedSimplex.Proofs.Operated
import BoundedSimplex.Proofs.Tableau.Reports

namespace BoundedSimplex

/-! ## §1.  Those who listen -/

namespace Watchers

/-- Registered once, for all variables. -/
structure ListensToAll (w : Watchers) (name : Watcher) : Prop where
  once : w.everything.count name = 1
  nowhereElse : ∀ v, (v, name) ∉ w.single

/-- Registered once, for one variable. -/
structure ListensTo (w : Watchers) (name : Watcher) (v : Nat) : Prop where
  once : (w.single.filter fun r => r.2 == name) = [(v, name)]
  notToAll : name ∉ w.everything
  notToDimensions : name ∉ w.dimensions

instance (w : Watchers) (name : Watcher) : Decidable (w.ListensToAll name) :=
  decidable_of_iff (w.everything.count name = 1 ∧ ∀ r ∈ w.single, r.2 ≠ name)
    ⟨fun h => ⟨h.1, fun v hv => h.2 (v, name) hv rfl⟩,
      fun h => ⟨h.once, fun r hr he => h.nowhereElse r.1 (by rw [← he]; exact hr)⟩⟩

instance (w : Watchers) (name : Watcher) (v : Nat) : Decidable (w.ListensTo name v) :=
  decidable_of_iff ((w.single.filter fun r => r.2 == name) = [(v, name)] ∧ name ∉ w.everything
      ∧ name ∉ w.dimensions)
    ⟨fun ⟨h, h', h''⟩ => ⟨h, h', h''⟩, fun h => ⟨h.once, h.notToAll, h.notToDimensions⟩⟩

variable {α : Type} {w : Watchers} {name : Watcher}

/-- What a watcher hears when notices are delivered. -/
def heard (w : Watchers) (notices : List (Notice α)) (name : Watcher) : List (Notice α) :=
  ((w.deliver notices).filter fun p => p.1 == name).map (·.2)

/-- A watcher hears a notice as often as it is in the audience. -/
theorem heard_cons (n : Notice α) (ns : List (Notice α)) :
    w.heard (n :: ns) name = List.replicate ((w.audience n).count name) n ++ w.heard ns name := by
  have hfirst : (((w.audience n).map fun a => (a, n)).filter fun p => p.1 == name).map (·.2)
      = List.replicate ((w.audience n).count name) n := by
    induction w.audience n with
    | nil => rfl
    | cons a as ih =>
      rw [List.map_cons, List.filter_cons, List.count_cons]
      cases a == name with
      | true => rw [if_pos rfl, if_pos rfl, List.map_cons, ih, List.replicate_succ]
      | false => rw [if_neg Bool.false_ne_true, if_neg Bool.false_ne_true, ih, Nat.add_zero]
  unfold heard deliver
  rw [List.flatMap_cons, List.filter_append, List.map_append, hfirst]

/-- Who listens to all variables is told once about each. -/
theorem ListensToAll.count_of (h : w.ListensToAll name) (v : Nat) : (w.of v).count name = 1 := by
  have hrest : ((w.single.filter fun r => r.1 == v).map (·.2)).count name = 0 := by
    refine List.count_eq_zero.mpr fun hmem => ?_
    obtain ⟨r, hr, rfl⟩ := List.mem_map.mp hmem
    exact h.nowhereElse r.1 (List.mem_filter.mp hr).1
  rw [of, List.count_append, h.once, hrest]

/-- Who listens to one variable is told about that one only. -/
theorem ListensTo.count_of {v : Nat} (h : w.ListensTo name v) (v' : Nat) :
    (w.of v').count name = if v' = v then 1 else 0 := by
  have hcount : ((w.single.filter fun r => r.1 == v').map (·.2)).count name
      = ((w.single.filter fun r => r.2 == name).filter fun r => r.1 == v').length := by
    rw [List.filter_comm, List.count_eq_length_filter, List.filter_map, List.length_map]
    rfl
  rw [of, List.count_append, List.count_eq_zero.mpr h.notToAll, Nat.zero_add, hcount, h.once,
    List.filter_singleton]
  by_cases hv : v' = v
  · rw [hv, beq_self_eq_true, if_pos rfl]
    rfl
  · rw [beq_eq_false_iff_ne.mpr (Ne.symm hv), if_neg hv]
    rfl

/-- **A watcher of one variable** hears the notices about it. -/
theorem ListensTo.heard_eq {v : Nat} (h : w.ListensTo name v) (ns : List (Notice α)) :
    w.heard ns name = ns.filter (Notice.isAbout v) := by
  induction ns with
  | nil => rfl
  | cons n ns ih =>
    -- A notice about a variable is heard as often as the watcher is in its audience.
    have habout (v' : Nat) (x : α) (hn : n.isAbout v = (v' == v)) (hof : w.audience n = w.of v') :
        List.replicate ((w.audience n).count name) n ++ w.heard ns name
          = (n :: ns).filter (Notice.isAbout v) := by
      rw [ih, hof, h.count_of, List.filter_cons, hn]
      by_cases hv : v' = v
      · rw [if_pos hv, if_pos (beq_iff_eq.mpr hv)]
        rfl
      · rw [if_neg hv, if_neg (fun he => hv (beq_iff_eq.mp he))]
        rfl
    rw [heard_cons]
    cases n with
    | value v' x => exact habout v' x rfl rfl
    | lower v' x => exact habout v' x rfl rfl
    | upper v' x => exact habout v' x rfl rfl
    | resize m k =>
      show List.replicate (w.dimensions.count name) _ ++ _ = ns.filter _
      rw [List.count_eq_zero.mpr h.notToDimensions, ih]
      rfl

/-- **A watcher of all variables** hears the same of each. -/
theorem ListensToAll.filter_heard (h : w.ListensToAll name) (ns : List (Notice α)) (v : Nat) :
    (w.heard ns name).filter (Notice.isAbout v) = ns.filter (Notice.isAbout v) := by
  induction ns with
  | nil => rfl
  | cons n ns ih =>
    rw [heard_cons, List.filter_append, ih, List.filter_replicate, List.filter_cons]
    cases n with
    | value v' x | lower v' x | upper v' x =>
      rw [show w.audience _ = w.of v' from rfl, h.count_of]
      split <;> rfl
    | resize m k => rfl

/-- A watcher of all variables writes down what there is to be written. -/
theorem ListensToAll.hearAll_heard (h : w.ListensToAll name) (ns : List (Notice α)) (m : Mirror α) :
    m.hearAll (w.heard ns name) = m.hearAll ns := by
  induction ns generalizing m with
  | nil => rfl
  | cons n ns ih =>
    rw [heard_cons, Mirror.hearAll_append, ih]
    cases n with
    | value v x | lower v x | upper v x =>
      rw [show w.audience _ = w.of v from rfl, h.count_of]
      rfl
    | resize k k' =>
      -- Changes of the size do not change the picture of the variables.
      have hsame (c : Nat) : m.hearAll (List.replicate c (.resize k k')) = m := by
        induction c with
        | zero => rfl
        | succ c ih => exact ih
      rw [hsame]
      rfl

end Watchers

/-- What is written about one value says nothing about the others, nor about bounds. -/
theorem Mirror.hearAll_withValue {α : Type} (m : Mirror α) (f : Nat → α) (ns : List (Notice α)) :
    ∃ g, { m with value := f }.hearAll ns = { m.hearAll ns with value := g }
      ∧ ∀ v, f v = m.value v → g v = (m.hearAll ns).value v := by
  induction ns generalizing m f with
  | nil => exact ⟨f, rfl, fun v hv => hv⟩
  | cons n ns ih =>
    cases n with
    | value v x =>
      obtain ⟨g, hg, hsame⟩ := ih (m.hear (.value v x)) (Function.update f v x)
      refine ⟨g, hg, fun w hw => hsame w ?_⟩
      show Function.update f v x w = Function.update m.value v x w
      rw [Function.update_apply, Function.update_apply, hw]
    | lower v x => exact ih (m.hear (.lower v x)) f
    | upper v x => exact ih (m.hear (.upper v x)) f
    | resize k k' => exact ih m f

variable {α : Type} [Scalar α]

/-! ## §2.  Runs -/

/-- The operation goes on with the basis there is: it neither sets one up nor
    returns to another one. -/
def Operation.goesOn : Operation α → Bool
  | .setSize _ _ | .startFrom _ | .start | .restore _ => false
  | _ => true

namespace Tableau

variable {solved : Prop} {σ : Settings α} {t u : Tableau α}

/-- **One operation.** -/
theorem Reports.perform (ht : t.Shaped solved σ) (hb : t.hasBasis = true) {op : Operation α}
    {reply : Reply α} (hop : op.goesOn = true) (h : t.perform op = .ok (reply, u)) :
    Reports t u := by
  cases op with
  | setSize m n | startFrom vs | start | restore s => cases hop
  | setCoefficients xs => exact .of_sight (sight_setCoefficients (of_replyDone h))
  | setCoefficient i j x => exact .of_sight (sight_setCoefficient ht.state (of_replyDone h))
  | setRightHandSide xs => exact .of_sight (sight_setRightHandSide (of_replyDone h))
  | setRightHandSideAt i x => exact .of_sight (sight_setRightHandSideAt (of_replyDone h))
  | setLower v x => exact reports_setLower (of_replyDone h)
  | setUpper v x => exact reports_setUpper (of_replyDone h)
  | tightenLower v x => exact reports_tightenLower ht hb (of_replyDone h)
  | tightenUpper v x => exact reports_tightenUpper ht hb (of_replyDone h)
  | checkBounds v =>
    obtain ⟨⟨valid, w⟩, hw, h⟩ := Checked.bind_eq_ok.mp h
    cases h
    exact .of_sight (sight_checkBounds hw)
  | checkAllBounds =>
    obtain ⟨⟨valid, w⟩, hw, h⟩ := Checked.bind_eq_ok.mp h
    cases h
    exact .of_sight (sight_checkAllBounds hw)
  -- A tableau with a basis does not take rows by hand.
  | markBasic v =>
    obtain ⟨_, hnone, -⟩ := Checked.bind_eq_ok.mp (of_replyDone h)
    rw [requireNoBasis, Checked.require_eq_ok, hb] at hnone
    cases hnone
  | assignRow v i =>
    obtain ⟨_, hnone, -⟩ := Checked.bind_eq_ok.mp (of_replyDone h)
    rw [requireNoBasis, Checked.require_eq_ok, hb] at hnone
    cases hnone
  | refactor =>
    obtain ⟨r, hr, -⟩ := of_replyAttempt h
    exact .of_sight (sight_refactor hr)
  | addEquation e =>
    obtain ⟨r, hr, -⟩ := of_replyAttempt h
    exact reports_addEquation ht hr
  | merge source target =>
    obtain ⟨r, hr, -⟩ := of_replyAttempt h
    exact reports_merge ht hr
  | computeValues => exact reports_computeValues ht hb (of_replyDone h)
  | classifyAll => exact .of_sight (sight_classifyAll (of_replyDone h))
  | classify v => exact .of_sight (sight_classify (of_replyDone h))
  | classifyAt i => exact .of_sight (sight_classifyAt (of_replyDone h))
  | setSettled settled =>
    cases of_replyDone h
    exact .of_sight rfl
  | moveNonBasic v x follow => exact reports_moveNonBasic ht.state (ht.split hb) (of_replyDone h)
  | computePrices => exact .of_sight (sight_computePrices (of_replyDone h))
  | usePricing rule =>
    cases of_replyDone h
    exact .of_sight rfl
  | computeMultipliers costs => exact .of_sight (sight_computeMultipliers (of_replyDone h))
  | chooseEntering rule =>
    obtain ⟨⟨found, next, w⟩, hw, h⟩ := Checked.bind_eq_ok.mp h
    cases h
    exact .of_sight (sight_chooseEntering hw)
  | selectEntering j => exact .of_sight (sight_selectEntering (of_replyDone h))
  | selectLeaving i => exact .of_sight (sight_selectLeaving (of_replyDone h))
  | setDistance x => exact .of_sight (sight_setDistance (of_replyDone h))
  | setColumn column => exact .of_sight (sight_setColumn (of_replyDone h))
  | computeColumn => exact .of_sight (sight_computeColumn (of_replyDone h))
  | chooseLeaving => exact .of_sight (sight_chooseLeaving (of_replyDone h))
  | standardRatioTest => exact .of_sight (sight_standardRatioTest (of_replyDone h))
  | harrisRatioTest => exact .of_sight (sight_harrisRatioTest (of_replyDone h))
  | computeRow => exact .of_sight (sight_computeRow (of_replyDone h))
  | performPivot => exact reports_performPivot ht (of_replyDone h)
  | performDegenerate => exact reports_performDegenerate ht (of_replyDone h)
  | save =>
    obtain ⟨⟨s, w⟩, hw, h⟩ := Checked.bind_eq_ok.mp h
    cases h
    exact .of_sight (sight_save hw)

/-- **Any number of operations**, with failures on the way. -/
theorem Reports.run (ht : t.Shaped False σ) (hb : t.hasBasis = true) {ops : List (Operation α)}
    (hops : ∀ op ∈ ops, op.goesOn = true) (h : t.run ops = .ok u) :
    Reports t u ∧ u.Shaped False σ := by
  induction ops generalizing t with
  | nil =>
    cases h
    exact ⟨.refl _, ht⟩
  | cons op ops ih =>
    obtain ⟨reply, w, hw, h⟩ := run_cons.mp h
    have hop := hops op List.mem_cons_self
    have hfirst := Reports.perform ht hb hop hw
    have hshaped := (ht.perform (fun s hs => by subst hs; cases hop) hw).1
    obtain ⟨hrest, hu⟩ := ih hshaped (hfirst.basis.trans hb)
      (fun o ho => hops o (List.mem_cons_of_mem _ ho)) h
    exact ⟨hfirst.trans hrest, hu⟩

end Tableau

/-! ## §3.  Mirrors of a tableau -/

/-- The mirror shows the values of all variables that were not merged into
    others, and all bounds. -/
structure Mirror.Shows (m : Mirror α) (t : Tableau α) : Prop where
  value : ∀ v < t.varCount, t.merges.Stands v → t.value v = .ok (m.value v)
  lower : ∀ v < t.varCount, t.lowerBound v = .ok (m.lower v)
  upper : ∀ v < t.varCount, t.upperBound v = .ok (m.upper v)

/-- Every variable has a stored value. -/
theorem State.Shaped.storedValue_held {s : State α} (hs : s.Shaped)
    (hsplit : s.split.WellFormed s.rowCount s.varCount) {v : Nat} (hv : v < s.varCount) :
    s.storedValue v = .ok (s.held v) := by
  unfold State.storedValue State.held
  rw [hsplit.positionOf_eq hv]
  show (if s.split.isBasic v then _ else _) = _
  cases hb : s.split.isBasic v with
  | true =>
    obtain ⟨hi, -⟩ := hsplit.of_isBasic hv hb
    exact Checked.getAt_eq_getD (hs.basicValues.symm ▸ hi) 0
  | false =>
    obtain ⟨hj, -⟩ := hsplit.of_not_isBasic hv hb
    exact Checked.getAt_eq_getD (hs.nonBasicValues.symm ▸ hj) 0

namespace Tableau

variable {t u : Tableau α}

/-- The value of a variable that stands is the one it is held at. -/
theorem value_eq_held (ht : t.toState.Shaped) (hs : t.split.WellFormed t.rowCount t.varCount)
    {v : Nat} (hv : v < t.varCount) (hstands : t.merges.Stands v) : t.value v = .ok (t.held v) := by
  show (do
    t.requireVariable v
    t.storedValue (t.merges.resolve v)) = _
  rw [State.requireVariable, Checked.require_eq_ok (u := ()).mpr hv,
    show t.merges.resolve v = v from Merges.follow_of_stands hstands _]
  exact ht.storedValue_held hs hv

/-- Its lower bound can be read. -/
theorem lowerBound_eq_getD (ht : t.toState.Shaped) {v : Nat} (hv : v < t.varCount) :
    t.lowerBound v = .ok (t.bounds.lowers.getD v 0) := by
  unfold lowerBound
  rw [State.requireVariable, Checked.require_eq_ok (u := ()).mpr hv]
  exact Checked.getAt_eq_getD (ht.bounds.lowers.symm ▸ hv) 0

/-- So can its upper bound. -/
theorem upperBound_eq_getD (ht : t.toState.Shaped) {v : Nat} (hv : v < t.varCount) :
    t.upperBound v = .ok (t.bounds.uppers.getD v 0) := by
  unfold upperBound
  rw [State.requireVariable, Checked.require_eq_ok (u := ()).mpr hv]
  exact Checked.getAt_eq_getD (ht.bounds.uppers.symm ▸ hv) 0

/-- What there is to be seen is part of what is stored. -/
theorem shows_of_pictures (ht : t.toState.Shaped) (hs : t.split.WellFormed t.rowCount t.varCount)
    {m : Mirror α} (hm : m.Pictures t.toState) : m.Shows t where
  value v hv hstands := by rw [value_eq_held ht hs hv hstands, hm.value v hv]
  lower v hv := by rw [lowerBound_eq_getD ht hv, hm.lower v hv]
  upper v hv := by rw [upperBound_eq_getD ht hv, hm.upper v hv]

/-- The mirror, and what is stored for merged variables besides. -/
def completed (t : Tableau α) (m : Mirror α) : Mirror α :=
  { m with value := fun v => if v < t.varCount ∧ ¬t.merges.Stands v then t.held v else m.value v }

/-- What was shown can be completed to a picture of the state. -/
theorem completed_pictures (ht : t.toState.Shaped) (hs : t.split.WellFormed t.rowCount t.varCount)
    {m : Mirror α} (hm : m.Shows t) : (t.completed m).Pictures t.toState := by
  refine ⟨fun v hv => ?_, fun v hv => ?_, fun v hv => ?_⟩
  · by_cases hstands : t.merges.Stands v
    · have hshown := (hm.value v hv hstands).symm.trans (value_eq_held ht hs hv hstands)
      exact (if_neg fun h => h.2 hstands).trans (Except.ok.inj hshown)
    · exact if_pos ⟨hv, hstands⟩
  · exact Except.ok.inj ((hm.lower v hv).symm.trans (lowerBound_eq_getD ht hv))
  · exact Except.ok.inj ((hm.upper v hv).symm.trans (upperBound_eq_getD ht hv))

/-- **A mirror that showed the tableau** shows it again once it heard what was told.  What was
    stored for merged variables was not in the mirror, and is not seen in the end. -/
theorem Told.shows {ns : List (Notice α)} (h : Told ns t u) (ht : t.toState.Shaped)
    (hs : t.split.WellFormed t.rowCount t.varCount) (hu : u.toState.Shaped)
    (hs' : u.split.WellFormed u.rowCount u.varCount) {m : Mirror α} (hm : m.Shows t) :
    (m.hearAll ns).Shows u := by
  obtain ⟨g, hg, hsame⟩ := m.hearAll_withValue (t.completed m).value ns
  have hend := shows_of_pictures hu hs' (h.pictures _ (completed_pictures ht hs hm))
  rw [show t.completed m = { m with value := (t.completed m).value } from rfl, hg] at hend
  refine ⟨fun v hv hstands => ?_, hend.lower, hend.upper⟩
  rw [hend.value v hv hstands]
  exact congrArg Except.ok (hsame v (if_neg fun hmerged => hmerged.2 (h.merged v hstands)))

/-! ## §4.  The watchers of a run -/

/-- **Watchers miss nothing.**  From a tableau with a basis on, a watcher of all variables that
    writes down what it hears sees the values of all variables that are not merged into others, and
    all bounds, however many operations there were and whether they failed or not.  A watcher of one
    variable hears exactly that part of it which is about its variable. -/
theorem shows_of_run (ht : Operated anyStep t) (hb : t.hasBasis = true) {ops : List (Operation α)}
    (hops : ∀ op ∈ ops, op.goesOn = true) (h : t.run ops = .ok u) :
    ∃ notices, u.journal.notices = t.journal.notices ++ t.watchers.deliver notices
      ∧ (∀ name, t.watchers.ListensToAll name → ∀ m : Mirror α, m.Shows t →
        (m.hearAll (t.watchers.heard notices name)).Shows u)
      ∧ ∀ name v, t.watchers.ListensTo name v →
        t.watchers.heard notices name = notices.filter (Notice.isAbout v)
        ∧ ∀ other, t.watchers.ListensToAll other → t.watchers.heard notices name
          = (t.watchers.heard notices other).filter (Notice.isAbout v) := by
  obtain ⟨σ, hshaped⟩ := ht.shaped
  obtain ⟨⟨ns, htold⟩, hu⟩ := Reports.run hshaped hb hops h
  refine ⟨ns, htold.delivered, fun name hall m hm => ?_, fun name v hone =>
    ⟨hone.heard_eq ns, fun other hall => ?_⟩⟩
  · rw [hall.hearAll_heard]
    exact htold.shows hshaped.state (hshaped.split hb) hu.state (hu.split (htold.basis.trans hb)) hm
  · rw [hone.heard_eq, hall.filter_heard]

/-- In rounded arithmetic: a bound is tightened, a variable moves to its other bound, another one
    enters, an equation is added, and then a variable is merged. -/
theorem shows_after_merge :
    ∃ (t u : Tableau Float) (notices : List (Notice Float)) (m : Mirror Float), t.hasBasis = true
      ∧ t.watchers.ListensToAll "all" ∧ t.watchers.ListensTo "one" 1 ∧ m.Shows t
      ∧ u.varCount = 4 ∧ ¬u.merges.Stands 2
      ∧ u.journal.notices = t.journal.notices ++ t.watchers.deliver notices
      ∧ (m.hearAll (t.watchers.heard notices "all")).Shows u
      ∧ (t.watchers.heard notices "one").length = 2
      ∧ t.watchers.heard notices "one"
        = (t.watchers.heard notices "all").filter (Notice.isAbout 1) := by
  let ops : List (Operation Float) := [.tightenLower 0 1, .computePrices, .chooseEntering .first,
    .computeColumn, .chooseLeaving, .performPivot, .computePrices, .chooseEntering .first,
    .computeColumn, .chooseLeaving, .performPivot, .addEquation ⟨[⟨1, 0⟩, ⟨1, 1⟩], 3⟩, .merge 2 0]
  have hrun : (do
      let t ← (create (α := Float) {}).run [.setSize 1 3, .setCoefficients [1, 2, 1],
        .setRightHandSide [10], .setLower 0 0, .setUpper 0 4, .setLower 1 0, .setUpper 1 3,
        .setLower 2 0, .setUpper 2 5, .startFrom [2]]
      let u ← ((t.watchAll "all").watchVariable "one" 1).run ops
      Checked.require (t.hasBasis = true ∧ t.journal.notices.isEmpty = true
        ∧ ((t.watchAll "all").watchVariable "one" 1).watchers.ListensToAll "all"
        ∧ ((t.watchAll "all").watchVariable "one" 1).watchers.ListensTo "one" 1 ∧ u.varCount = 4
        ∧ ¬u.merges.Stands 2
        ∧ (u.journal.notices.filter fun (p : Watcher × Notice Float) => p.1 == "one").length = 2)
        .inconsistent) = .ok () := by decide +kernel
  obtain ⟨t, ht, hrun⟩ := Checked.bind_eq_ok.mp hrun
  obtain ⟨u, hu, hrun⟩ := Checked.bind_eq_ok.mp hrun
  obtain ⟨hb, hquiet, hall, hone, hvars, hmerged, htwice⟩ := Checked.require_eq_ok.mp hrun
  have hstart : Operated anyStep t := (Operated.created _).runForward (by simp) ht
  have hwatched : Operated anyStep ((t.watchAll "all").watchVariable "one" 1) :=
    hstart.attended _ _ _
  obtain ⟨σ, hshaped⟩ := hwatched.shaped
  obtain ⟨ns, htold, hshows, hears⟩ := shows_of_run hwatched hb
    (by simp [ops, Operation.goesOn]) hu
  have hm := shows_of_pictures hshaped.state (hshaped.split hb) (State.pictures_mirror _)
  refine ⟨(t.watchAll "all").watchVariable "one" 1, u, ns, _, hb, hall, hone, hm, hvars,
    hmerged, htold, hshows "all" hall _ hm, ?_, (hears "one" 1 hone).2 "all" hall⟩
  rw [htold, show ((t.watchAll "all").watchVariable "one" 1).journal.notices = [] from
    List.isEmpty_iff.mp hquiet, List.nil_append] at htwice
  rw [Watchers.heard, List.length_map]
  exact htwice

end Tableau

end BoundedSimplex
