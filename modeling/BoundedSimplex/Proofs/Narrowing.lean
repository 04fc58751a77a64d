/-
  BoundedSimplex.Proofs.Narrowing — a bound that was tightened stays in force.

  After a bound of a variable was tightened, iterations, tighter bounds and merges go on in any
  order.  The bound is kept by different means: the variable is basic and has a standing, or it is
  not and was moved onto its bound, or it was merged away and is read through a variable that took
  over its bounds.  Each step may change which of these it is, and hands the bound over.

  A merge takes over bounds, but does not move the variable that remains into those that it
  had already.  So it has to be at home for a merge to be safe, which it is if all variables
  were to begin with.

  Main results:
    * `Kept.prepare`, `Kept.pivot`, `Kept.tighten`, `Kept.merge` — each step hands the bound over;
    * `Narrowing.search` — the search of phase one consists of such steps;
    * `Narrowing.safe` — all merges are safe if all variables were at home;
    * `value_meets_tightened` — the value that is read meets the bound.
-/
import BoundedSimplex.PhaseOne
import BoundedSimplex.Proofs.Home
import Mathlib.Algebra.Field.Rat
import Mathlib.Algebra.Order.Ring.Rat

namespace BoundedSimplex

open Extended Tableau

variable {K : Type} [Field K] [LinearOrder K]

/-! ## §1.  Runs that do not loosen bounds -/

/-- The tableaux that are reached by iterations, tighter bounds, and merges that are allowed. -/
inductive Narrowing (allowed : Tableau (Extended K) → Nat → Nat → Prop)
    (t₀ : Tableau (Extended K)) :
    Tableau (Extended K) → Prop
  | started : Narrowing allowed t₀ t₀
  /-- Selections and prices. -/
  | prepared {t u : Tableau (Extended K)} {op : Operation (Extended K)} {reply : Reply (Extended K)}
      (before : Narrowing allowed t₀ t) (prepares : op.Prepares)
      (done : t.perform op = .ok (reply, u)) :
      Narrowing allowed t₀ u
  /-- A pivot, after a ratio test. -/
  | pivoted {t w u : Tableau (Extended K)} (before : Narrowing allowed t₀ t)
      (selected : Selected t w) (done : w.performPivot = .ok u) : Narrowing allowed t₀ u
  /-- A bound that is not looser than before. -/
  | tightened {t u : Tableau (Extended K)} {side : Side} {v : Nat} {x : Extended K}
      (before : Narrowing allowed t₀ t) (proper : side.Proper x)
      (stricter : side.Stricter x (side.bound t.bounds v)) (done : side.tighten t v x = .ok u) :
      Narrowing allowed t₀ u
  /-- A merge of two variables that were not merged away. -/
  | merged {t u : Tableau (Extended K)} {source target : Nat} (before : Narrowing allowed t₀ t)
      (stands : t.merges.Stands target) (fits : allowed t source target)
      (done : t.merge source target = .ok (.ok (), u)) : Narrowing allowed t₀ u

/-- A merge is safe for a bound of a variable: the variable that it is read through from
    then on is at home. -/
def SafeFor (side : Side) (v : Nat) (t : Tableau (Extended K)) (source target : Nat) : Prop :=
  t.merges.resolve v = source → Home side t.toState target

/-! ## §2.  The invariant -/

/-- A steady tableau that compares bounds exactly, and whose variables are read
    through variables. -/
structure InOrder (t : Tableau (Extended K)) : Prop where
  steady : t.Steady
  exact : t.settings.boundTolerance = fin 0
  grounded : t.merges.Grounded
  resolves : ∀ v < t.varCount, t.merges.resolve v < t.varCount

/-- The variable that `v` is read through has a bound that implies `x`, and is at home. -/
structure Kept (side : Side) (v : Nat) (x : Extended K) (t : Tableau (Extended K)) : Prop where
  lt : v < t.varCount
  implies : ∀ y : K, side.Met (side.bound t.bounds (t.merges.resolve v)) y → side.Met x y
  home : Home side t.toState (t.merges.resolve v)

section Steps

variable {side side' : Side} {t t₀ u w : Tableau (Extended K)} {v k : Nat} {x x' : Extended K}

namespace InOrder

/-- A start puts a tableau in order, with all variables at home. -/
theorem of_started (hs : Started t₀ t) (hτ : t₀.settings.boundTolerance = fin 0) :
    InOrder t ∧ ∀ side k, Home side t.toState k := by
  refine ⟨⟨hs.sound.steady, by rw [hs.settings]; exact hτ, ?_, ?_⟩,
    fun side k j hj hjk hvalid => ?_⟩
  · rw [hs.merges]
    exact Merges.grounded_none
  · rw [hs.merges]
    exact fun v hv => hv
  · subst hjk
    rw [hs.values j hj]
    exact Side.met_of_within
      (hs.sound.state.bounds.within_startOf (hs.sound.state.split.nonBasicVar_lt hj) hvalid)

/-- A change that leaves the system and the merges alone. -/
theorem keep (h : InOrder t) (hs : u.Steady) (hset : u.settings = t.settings)
    (hm : u.matrix = t.matrix) (hg : u.merges = t.merges) : InOrder u := by
  refine ⟨hs, by rw [hset]; exact h.exact, by rw [hg]; exact h.grounded, ?_⟩
  rw [hg, State.varCount, hm]
  exact h.resolves

theorem prepare (h : InOrder t) {op : Operation (Extended K)} (hop : op.Prepares)
    {reply : Reply (Extended K)} (hdone : t.perform op = .ok (reply, u)) : InOrder u := by
  obtain ⟨plan, pricing, multipliers, hsil⟩ := prepares_spec hop hdone
  have hsteady := h.steady.replan hsil
  obtain ⟨_, _, rfl⟩ := hsil
  exact h.keep hsteady rfl rfl rfl

theorem tighten (h : InOrder t) (htight : Tightened side v x t u) : InOrder u := by
  have hsteady := htight.steady
  obtain ⟨_, _, _, _, _, _, hu⟩ := htight.changes
  exact h.keep hsteady (by rw [hu]) (by rw [hu]) (by rw [hu])

variable [IsStrictOrderedRing K]

theorem pivot (h : InOrder t) (hsel : Selected t w) (hdone : w.performPivot = .ok u) :
    InOrder u := by
  obtain ⟨hs, hset, hm, -, hg⟩ := pivot_frame h.steady h.exact hsel hdone
  exact h.keep hs hset hm hg

theorem merge (h : InOrder t) {source target : Nat}
    (hdone : t.merge source target = .ok (.ok (), u)) : InOrder u := by
  have hm := merge_spec h.steady hdone
  obtain ⟨hgrounded, hresolve⟩ := Merges.resolve_record h.grounded hm.merges
  refine ⟨hm.sound.steady, by rw [hm.settings]; exact h.exact, hgrounded, fun v hv => ?_⟩
  rw [hm.varCount] at hv ⊢
  rw [hresolve]
  split
  · exact h.resolves _ hm.target_lt
  · exact h.resolves v hv

end InOrder

namespace Kept

/-- **Tightening** a bound of a variable that was not merged away is where it begins. -/
theorem start (h : InOrder t) (hv : t.merges.Stands v) (htight : Tightened side v x t u) :
    Kept side v x u := by
  have hbound := htight.bound
  have hhome := htight.home
  have hlt := htight.lt
  have hg := h.grounded
  obtain ⟨_, _, _, _, _, _, hu⟩ := htight.changes
  have hr : u.merges.resolve v = v := by
    rw [hu]
    exact hg.resolve_of_stands hv
  refine ⟨by rw [hu]; exact hlt, fun y hy => ?_, by rw [hr]; exact hhome⟩
  rw [hr, hbound, if_pos ⟨rfl, rfl⟩] at hy
  exact hy

theorem prepare (h : Kept side v x t) {op : Operation (Extended K)} (hop : op.Prepares)
    {reply : Reply (Extended K)} (hdone : t.perform op = .ok (reply, u)) : Kept side v x u := by
  obtain ⟨plan, pricing, multipliers, hsil⟩ := prepares_spec hop hdone
  obtain ⟨_, _, rfl⟩ := hsil
  exact ⟨h.lt, h.implies, h.home⟩

/-- A tighter bound of any variable, also of one that was merged away. -/
theorem tighten (h : Kept side v x t) (ht : InOrder t) (hx : side'.Proper x')
    (hstrict : side'.Stricter x' (side'.bound t.bounds k)) (htight : Tightened side' k x' t u) :
    Kept side v x u := by
  have hbound := htight.bound
  have hhome := h.home.tighten hstrict hx htight
  have hlt := h.lt
  obtain ⟨_, _, _, _, _, _, hu⟩ := htight.changes
  have hg : u.merges = t.merges := by rw [hu]
  refine ⟨by rw [hu]; exact hlt, fun y hy => h.implies y ?_, by rw [hg]; exact hhome⟩
  rw [hg, hbound] at hy
  split at hy
  · next hc =>
    -- the bound in question was replaced by a stricter one
    obtain ⟨rfl, hk⟩ := hc
    rw [hk]
    exact Side.Met.of_stricter hx
      (Side.proper_bound ht.steady.state.bounds (hk ▸ ht.resolves v h.lt)) hstrict hy
  · exact hy

variable [IsStrictOrderedRing K]

theorem pivot (h : Kept side v x t) (ht : InOrder t) (hsel : Selected t w)
    (hdone : w.performPivot = .ok u) : Kept side v x u := by
  obtain ⟨-, -, hm, hb, hg⟩ := pivot_frame ht.steady ht.exact hsel hdone
  have hhome := h.home.pivot ht.steady ht.exact hsel hdone
  refine ⟨?_, ?_, ?_⟩
  · rw [State.varCount, hm]
    exact h.lt
  · rw [hb, hg]
    exact h.implies
  · rw [hg]
    exact hhome

/-- **A merge** hands the bound over if it takes away the variable that `v` was read through. -/
theorem merge (h : Kept side v x t) (ht : InOrder t) {source target : Nat}
    (hstands : t.merges.Stands target) (hsafe : SafeFor side v t source target)
    (hdone : t.merge source target = .ok (.ok (), u)) : Kept side v x u := by
  have hm := merge_spec ht.steady hdone
  obtain ⟨-, hresolve⟩ := Merges.resolve_record ht.grounded hm.merges
  have hresolve := hresolve v
  have hlt : v < u.varCount := by
    rw [hm.varCount]
    exact h.lt
  by_cases hv : t.merges.resolve v = source
  · rw [if_pos hv, ht.grounded.resolve_of_stands hstands] at hresolve
    refine ⟨hlt, fun y hy => h.implies y ?_, ?_⟩
    · rw [hresolve] at hy
      rw [hv]
      exact (hm.bounds.met_target hy).2
    · rw [hresolve]
      exact (hsafe hv).merge ht.steady hm.distinct.symm hdone
  · rw [if_neg hv] at hresolve
    refine ⟨hlt, fun y hy => h.implies y ?_, ?_⟩
    · rw [hresolve] at hy
      exact hm.bounds.met_of_ne hv hy
    · rw [hresolve]
      exact h.home.merge ht.steady hv hdone

/-- **Reading the bound off**: where no basic variable violates a bound and no bounds contradict
    each other, the value of `v` meets it. -/
theorem value (h : Kept side v x t) (ht : InOrder t) (hvalid : t.bounds.allValid = true)
    (hin : t.existsOutOfBounds = false) : ∃ y : K, t.value v = .ok (fin y) ∧ side.Met x y := by
  have hr := ht.resolves v h.lt
  refine ⟨t.toState.stored (t.merges.resolve v), ?_,
    h.implies _ (met_of_home h.home ht.steady ht.exact hvalid hin hr)⟩
  show t.toState.value v = _
  unfold State.value State.requireVariable
  rw [Checked.require, if_pos h.lt]
  exact ht.steady.state.storedValue_eq hr

end Kept

/-! ## §3.  Runs -/

/-- An iteration of the search pivots after its selections. -/
theorem selected_of_leaveAndPivot {e : Tableau (Extended K)} {rule rule' : EnteringRule}
    {found : Bool} {withRow : Bool} {iteration : Iteration (Extended K)}
    (henter : t.chooseEntering rule = .ok (found, rule', e))
    (hleave : e.leaveAndPivot withRow = .ok (iteration, u)) :
    ∃ w, Selected t w ∧ w.performPivot = .ok u := by
  obtain ⟨c, hcolumn, hleave⟩ := Checked.bind_eq_ok.mp hleave
  obtain ⟨l, htest, hleave⟩ := Checked.bind_eq_ok.mp hleave
  obtain ⟨_, -, hleave⟩ := Checked.bind_eq_ok.mp hleave
  have h₁ : t.perform (.chooseEntering rule) = .ok (.selected found rule', e) :=
    Checked.bind_eq_ok.mpr ⟨_, henter, rfl⟩
  have h₂ : e.perform .computeColumn = .ok (.done, c) := Checked.bind_eq_ok.mpr ⟨_, hcolumn, rfl⟩
  have h₃ : c.perform .chooseLeaving = .ok (.done, l) := Checked.bind_eq_ok.mpr ⟨_, htest, rfl⟩
  have hrun {ops : List (Operation (Extended K))} {w : Tableau (Extended K)}
    (h : l.run ops = .ok w) :
      t.run (.chooseEntering rule :: .computeColumn :: .chooseLeaving :: ops) = .ok w :=
    run_cons.mpr ⟨_, _, h₁, run_cons.mpr ⟨_, _, h₂, run_cons.mpr ⟨_, _, h₃, h⟩⟩⟩
  split at hleave
  · obtain ⟨w, hrow, hleave⟩ := Checked.bind_eq_ok.mp hleave
    obtain ⟨_, hpivot, hleave⟩ := Checked.bind_eq_ok.mp hleave
    cases hleave
    have h₄ : l.perform .computeRow = .ok (.done, w) := Checked.bind_eq_ok.mpr ⟨_, hrow, rfl⟩
    have hlast : l.run [.computeRow] = .ok w := run_cons.mpr ⟨_, _, h₄, rfl⟩
    exact ⟨w, ⟨.chooseEntering rule, .chooseLeaving, trivial, trivial, .inr (hrun hlast)⟩, hpivot⟩
  · obtain ⟨_, hsame, hleave⟩ := Checked.bind_eq_ok.mp hleave
    cases hsame
    obtain ⟨_, hpivot, hleave⟩ := Checked.bind_eq_ok.mp hleave
    cases hleave
    exact ⟨l, ⟨.chooseEntering rule, .chooseLeaving, trivial, trivial, .inl (hrun rfl)⟩, hpivot⟩

/-- **The search of phase one** is such a run, and no basic variable violates a bound where it says
    that it found an assignment. -/
theorem Narrowing.search {allowed : Tableau (Extended K) → Nat → Nat → Prop} {withRow : Bool}
    {limit : Nat} {rule : EnteringRule} {result : SearchResult (Extended K)}
    (h : Narrowing allowed t₀ t) (hdone : t.search withRow limit rule = .ok result) :
    Narrowing allowed t₀ result.tableau
      ∧ (result.verdict = .feasible → result.tableau.existsOutOfBounds = false) := by
  induction limit generalizing t rule result with
  | zero =>
    cases hdone
    exact ⟨h, nofun⟩
  | succ limit ih =>
    unfold Tableau.search at hdone
    split at hdone
    · obtain ⟨p, hprices, hdone⟩ := Checked.bind_eq_ok.mp hdone
      have hp : Narrowing allowed t₀ p := by
        unfold Tableau.ensurePrices at hprices
        split at hprices
        · exact h.prepared (show Operation.Prepares .computePrices from trivial)
            (Checked.bind_eq_ok.mpr ⟨_, hprices, rfl⟩)
        · cases hprices
          exact h
      obtain ⟨⟨found, rule', e⟩, henter, hdone⟩ := Checked.bind_eq_ok.mp hdone
      cases found with
      | true =>
        obtain ⟨⟨iteration, u⟩, hleave, hdone⟩ := Checked.bind_eq_ok.mp hdone
        obtain ⟨rest, hrest, hdone⟩ := Checked.bind_eq_ok.mp hdone
        cases hdone
        obtain ⟨w, hsel, hpivot⟩ := selected_of_leaveAndPivot henter hleave
        have hend := ih (hp.pivoted hsel hpivot) hrest
        exact ⟨hend.1, hend.2⟩
      | false =>
        cases hdone
        exact ⟨hp.prepared (show Operation.Prepares (.chooseEntering rule) from trivial)
          (Checked.bind_eq_ok.mpr ⟨_, henter, rfl⟩), nofun⟩
    · next hin =>
      cases hdone
      exact ⟨h, fun _ => by simpa using hin⟩

section Runs

variable [IsStrictOrderedRing K] {allowed : Tableau (Extended K) → Nat → Nat → Prop}

/-- **Every run** stays in order. -/
theorem Narrowing.inOrder (h : Narrowing allowed t₀ t) (h₀ : InOrder t₀) : InOrder t := by
  induction h with
  | started => exact h₀
  | prepared _ hop hdone ih => exact ih.prepare hop hdone
  | pivoted _ hsel hdone ih => exact ih.pivot hsel hdone
  | tightened _ hx _ hdone ih => exact ih.tighten (ih.steady.tighten hx hdone)
  | merged _ _ _ hdone ih => exact ih.merge hdone

/-- **Every run** keeps variables at home that were not merged away. -/
theorem Narrowing.home (h : Narrowing allowed t₀ t) (h₀ : InOrder t₀)
    (hhome : ∀ k, t₀.merges.Stands k → Home side t₀.toState k) :
    ∀ k, t.merges.Stands k → Home side t.toState k := by
  induction h with
  | started => exact hhome
  | prepared _ hop hdone ih =>
    obtain ⟨plan, pricing, multipliers, hsil⟩ := prepares_spec hop hdone
    obtain ⟨_, _, rfl⟩ := hsil
    exact ih
  | pivoted h hsel hdone ih =>
    have ht := h.inOrder h₀
    obtain ⟨-, -, -, -, hg⟩ := pivot_frame ht.steady ht.exact hsel hdone
    rw [hg]
    exact fun k hstands => (ih k hstands).pivot ht.steady ht.exact hsel hdone
  | tightened h hx hstrict hdone ih =>
    have htight := (h.inOrder h₀).steady.tighten hx hdone
    have hkeep (k : Nat) (hk : Home side _ k) := hk.tighten hstrict hx htight
    obtain ⟨_, _, _, _, _, _, hu⟩ := htight.changes
    have hg := congrArg (fun t => t.merges) hu
    rw [hg]
    exact fun k hstands => hkeep k (ih k hstands)
  | merged h _ _ hdone ih =>
    have ht := h.inOrder h₀
    have hm := merge_spec ht.steady hdone
    intro k hstands
    have hrecord := Merges.target?_record k hm.merges
    rw [show _ = none from hstands] at hrecord
    split at hrecord
    · cases hrecord
    · next hne => exact (ih k hrecord.symm).merge ht.steady hne hdone

/-- **All merges are safe** if all variables were at home. -/
theorem Narrowing.safe (h : Narrowing allowed t₀ t) (h₀ : InOrder t₀)
    (hhome : ∀ k, t₀.merges.Stands k → Home side t₀.toState k) :
    Narrowing (SafeFor side v) t₀ t := by
  induction h with
  | started => exact .started
  | prepared _ hop hdone ih => exact ih.prepared hop hdone
  | pivoted _ hsel hdone ih => exact ih.pivoted hsel hdone
  | tightened _ hx hstrict hdone ih => exact ih.tightened hx hstrict hdone
  | merged h hstands _ hdone ih =>
    exact ih.merged hstands (fun _ => h.home h₀ hhome _ hstands) hdone

/-- **Every run** keeps a bound in force if its merges are safe for it. -/
theorem Narrowing.kept (h : Narrowing (SafeFor side v) t₀ t) (h₀ : InOrder t₀)
    (hkept : Kept side v x t₀) : Kept side v x t := by
  induction h with
  | started => exact hkept
  | prepared _ hop hdone ih => exact ih.prepare hop hdone
  | pivoted h hsel hdone ih => exact ih.pivot (h.inOrder h₀) hsel hdone
  | tightened h hx hstrict hdone ih =>
    have ht := h.inOrder h₀
    exact ih.tighten ht hx hstrict (ht.steady.tighten hx hdone)
  | merged h hstands hsafe hdone ih => exact ih.merge (h.inOrder h₀) hstands hsafe hdone

/-- **No tightening is lost.**  After a bound of a variable that was not merged away was tightened,
    to whatever value, and after any run whose merges are safe for it, the value that is read for
    the variable meets the bound wherever no basic variable violates a bound and no bounds
    contradict each other.

    All merges of a run are safe if no variable violated its bounds on that side when the bound was
    tightened.  This is so after every start, and after every run from there. -/
theorem value_meets_tightened {t₁ : Tableau (Extended K)} (h₀ : InOrder t₀)
    (hstands : t₀.merges.Stands v) (hx : side.Proper x) (h₁ : side.tighten t₀ v x = .ok t₁) :
    (∀ t, Narrowing (SafeFor side v) t₁ t → t.bounds.allValid = true → t.existsOutOfBounds = false →
      ∃ y : K, t.value v = .ok (fin y) ∧ side.Met x y)
    ∧ (∀ allowed t, (∀ k, t₀.merges.Stands k → Home side t₀.toState k) →
        Narrowing allowed t₁ t → Narrowing (SafeFor side v) t₁ t)
    ∧ ∀ allowed (r s : Tableau (Extended K)) (vs : List Nat), r.Prepared →
        r.settings.boundTolerance = fin 0 → r.startFrom vs = .ok (.ok (), s) →
        Narrowing allowed s t₀ → ∀ k, t₀.merges.Stands k → Home side t₀.toState k := by
  have htight := h₀.steady.tighten hx h₁
  have ht₁ := h₀.tighten htight
  refine ⟨fun t h hvalid hin => ?_, fun allowed t hhome h => ?_,
    fun allowed r s vs hr hτ hs h => ?_⟩
  · exact (h.kept ht₁ (.start h₀ hstands htight)).value (h.inOrder ht₁) hvalid hin
  · refine h.safe ht₁ fun k hk => ?_
    have hkept := fun hk => (hhome k hk).tighten_same htight
    obtain ⟨_, _, _, _, _, _, hu⟩ := htight.changes
    rw [show t₁.merges = t₀.merges by rw [hu]] at hk
    exact hkept hk
  · obtain ⟨hord, hhome⟩ := InOrder.of_started (startFrom_spec hr hs) hτ
    exact h.home hord fun k _ => hhome side k

end Runs

end Steps

/-- In `x + y + z = 10`, `x ≥ 2` is tightened, `x` is merged into `y`, and `z ≥ 2` makes `y` basic:
    the value of `x` is that of `y`, which keeps the bound. -/
theorem bound_of_merged_basic : ∃ t₀ t₁ t : Tableau (Extended ℚ), InOrder t₀
    ∧ t₀.merges.Stands 0 ∧ Side.lower.tighten t₀ 0 (fin 2) = .ok t₁
    ∧ (∀ k, t₀.merges.Stands k → Home .lower t₀.toState k) ∧ Narrowing (SafeFor .lower 0) t₁ t
    ∧ t.bounds.allValid = true ∧ t.existsOutOfBounds = false
    ∧ t.merges.resolve 0 = 1 ∧ t.split.isBasic 1 = true
    ∧ ∃ y : ℚ, t.value 0 = .ok (fin y) ∧ Side.lower.Met (fin 2) y := by
  have hrun : (do
      let t ← (create (α := Extended ℚ) { boundTolerance := 0 }).run [.setSize 1 3,
        .setCoefficients [fin 1, fin 1, fin 1], .setRightHandSide [fin 10], .setUpper 0 (fin 5),
        .setUpper 1 (fin 5), .setLower 2 (fin (-10)), .setUpper 2 (fin 10)]
      let (r, s) ← t.startFrom [2]
      let a ← Side.lower.tighten s 0 (fin 2)
      let (r', b) ← a.merge 0 1
      let c ← Side.lower.tighten b 2 (fin 2)
      let (_, d) ← c.perform .computePrices
      let w ← d.run [.chooseEntering .first, .computeColumn, .chooseLeaving]
      let e ← w.performPivot
      Checked.require (r = Except.ok () ∧ r' = Except.ok () ∧ t.settings.boundTolerance = fin 0
        ∧ s.merges.Stands 0 ∧ a.merges.Stands 1
        ∧ Side.lower.Stricter (fin 2) (Side.lower.bound b.bounds 2)
        ∧ e.bounds.allValid = true ∧ e.existsOutOfBounds = false ∧ e.merges.resolve 0 = 1
        ∧ e.split.isBasic 1 = true) .inconsistent) = .ok () := by decide +kernel
  obtain ⟨t, ht, hrun⟩ := Checked.bind_eq_ok.mp hrun
  obtain ⟨⟨r, s⟩, hs, hrun⟩ := Checked.bind_eq_ok.mp hrun
  obtain ⟨a, ha, hrun⟩ := Checked.bind_eq_ok.mp hrun
  obtain ⟨⟨r', b⟩, hb, hrun⟩ := Checked.bind_eq_ok.mp hrun
  obtain ⟨c, hc, hrun⟩ := Checked.bind_eq_ok.mp hrun
  obtain ⟨⟨reply, d⟩, hd, hrun⟩ := Checked.bind_eq_ok.mp hrun
  obtain ⟨w, hw, hrun⟩ := Checked.bind_eq_ok.mp hrun
  obtain ⟨e, he, hrun⟩ := Checked.bind_eq_ok.mp hrun
  obtain ⟨rfl, rfl, hτ, hstands, htarget, hstrict, hvalid, hin, hread, hbasic⟩ :=
    Checked.require_eq_ok.mp hrun
  have hconf : t.Configured := (Configured.created _).run (by decide +kernel) ht
  have hs₀ := (InOrder.of_started (startFrom_spec hconf.prepared hs) hτ).1
  have hselected : Selected d w :=
    ⟨.chooseEntering .first, .chooseLeaving, trivial, trivial, .inl hw⟩
  have hproper := Side.lower.proper_fin (2 : ℚ)
  obtain ⟨hvalue, hsafe, hstart⟩ := value_meets_tightened hs₀ hstands hproper ha
  have hrun : Narrowing (fun _ _ _ => True) a e :=
    (((Narrowing.started.merged htarget trivial hb).tightened hproper hstrict hc).prepared
      (show Operation.Prepares .computePrices from trivial) hd).pivoted hselected he
  have hhome := hstart (fun _ _ _ => True) t s [2] hconf.prepared hτ hs .started
  have hnarrowing := hsafe _ e hhome hrun
  exact ⟨s, a, e, hs₀, hstands, ha, hhome, hnarrowing, hvalid, hin, hread, hbasic,
    hvalue e hnarrowing hvalid hin⟩

/-- Both conditions are needed.  In `x + y + z = 10`, `y ≥ 0` is not at home after it was moved to
    `-1`, and a bound `x ≥ 0` is lost when `x` is merged into `y`.  And after `x` was merged into
    `y`, a bound `x ≥ 3` says nothing about `y`. -/
theorem bounds_lost_at_merge :
    (∃ t₀ t₁ t : Tableau (Extended ℚ), InOrder t₀ ∧ t₀.isConsistent 0 = .ok true
      ∧ t₀.merges.Stands 0 ∧ Side.lower.tighten t₀ 0 (fin 0) = .ok t₁
      ∧ Narrowing (fun _ _ _ => True) t₁ t ∧ t.bounds.allValid = true ∧ t.existsOutOfBounds = false
      ∧ ¬∃ y : ℚ, t.value 0 = .ok (fin y) ∧ Side.lower.Met (fin 0) y)
    ∧ ∃ t₀ t₁ t : Tableau (Extended ℚ), InOrder t₀ ∧ t₀.isConsistent 0 = .ok true
      ∧ (∀ k, t₀.merges.Stands k → Home .lower t₀.toState k)
      ∧ Side.lower.tighten t₀ 0 (fin 3) = .ok t₁
      ∧ Narrowing (fun _ _ _ => True) t₁ t ∧ t.bounds.allValid = true ∧ t.existsOutOfBounds = false
      ∧ ¬∃ y : ℚ, t.value 0 = .ok (fin y) ∧ Side.lower.Met (fin 3) y := by
  have hrun : (do
      let t ← (create (α := Extended ℚ) { boundTolerance := 0 }).run [.setSize 1 3,
        .setCoefficients [fin 1, fin 1, fin 1], .setRightHandSide [fin 10], .setUpper 0 (fin 5),
        .setLower 1 (fin 0), .setUpper 1 (fin 5), .setLower 2 (fin 0), .setUpper 2 (fin 20)]
      let (r, s) ← t.startFrom [2]
      -- `y` is moved away from its bounds before the merge
      let a ← s.moveNonBasic 1 (fin (-1)) true
      let consistent ← a.isConsistent 0
      let b ← Side.lower.tighten a 0 (fin 0)
      let (r', c) ← b.merge 0 1
      let x ← c.value 0
      -- `x` is tightened after the merge
      let (r'', d) ← s.merge 0 1
      let consistent' ← d.isConsistent 0
      let e ← Side.lower.tighten d 0 (fin 3)
      let y ← e.value 0
      Checked.require (r = Except.ok () ∧ r' = Except.ok () ∧ r'' = Except.ok ()
        ∧ t.settings.boundTolerance = fin 0) .inconsistent
      Checked.require (consistent = true ∧ a.merges.Stands 0 ∧ b.merges.Stands 1
        ∧ c.bounds.allValid = true ∧ c.existsOutOfBounds = false ∧ x = fin (-1)) .inconsistent
      Checked.require (consistent' = true ∧ e.bounds.allValid = true
        ∧ e.existsOutOfBounds = false ∧ y = fin 0) .inconsistent) = .ok () := by decide +kernel
  obtain ⟨t, ht, hrun⟩ := Checked.bind_eq_ok.mp hrun
  obtain ⟨⟨r, s⟩, hs, hrun⟩ := Checked.bind_eq_ok.mp hrun
  obtain ⟨a, ha, hrun⟩ := Checked.bind_eq_ok.mp hrun
  obtain ⟨consistent, hcons, hrun⟩ := Checked.bind_eq_ok.mp hrun
  obtain ⟨b, hb, hrun⟩ := Checked.bind_eq_ok.mp hrun
  obtain ⟨⟨r', c⟩, hc, hrun⟩ := Checked.bind_eq_ok.mp hrun
  obtain ⟨x, hx, hrun⟩ := Checked.bind_eq_ok.mp hrun
  obtain ⟨⟨r'', d⟩, hd, hrun⟩ := Checked.bind_eq_ok.mp hrun
  obtain ⟨consistent', hcons', hrun⟩ := Checked.bind_eq_ok.mp hrun
  obtain ⟨e, he, hrun⟩ := Checked.bind_eq_ok.mp hrun
  obtain ⟨y, hy, hrun⟩ := Checked.bind_eq_ok.mp hrun
  obtain ⟨_, hdone, hrun⟩ := Checked.bind_eq_ok.mp hrun
  obtain ⟨_, hfirst, hsecond⟩ := Checked.bind_eq_ok.mp hrun
  obtain ⟨rfl, rfl, rfl, hτ⟩ := Checked.require_eq_ok.mp hdone
  obtain ⟨rfl, hstands, htarget, hvalid, hin, rfl⟩ := Checked.require_eq_ok.mp hfirst
  obtain ⟨rfl, hvalid', hin', rfl⟩ := Checked.require_eq_ok.mp hsecond
  have hconf : t.Configured := (Configured.created _).run (by decide +kernel) ht
  have hstarted := startFrom_spec hconf.prepared hs
  obtain ⟨hs₀, hhome⟩ := InOrder.of_started hstarted hτ
  have hfree : s.merges.Stands 1 := by
    rw [hstarted.merges]
    rfl
  have ha₀ : InOrder a := by
    obtain ⟨-, -, _, _, ⟨_, _, rfl⟩, hsteady, -⟩ := hs₀.steady.moveNonBasic_follow ha
    exact hs₀.keep hsteady rfl rfl rfl
  have hmerged : Narrowing (fun _ _ _ => True) s d := .merged .started hfree trivial hd
  refine ⟨⟨a, b, c, ha₀, hcons, hstands, hb, .merged .started htarget trivial hc, hvalid, hin, ?_⟩,
    ⟨d, e, e, hs₀.merge hd, hcons', hmerged.home hs₀ fun k _ => hhome .lower k, he,
      .started, hvalid', hin', ?_⟩⟩
  · rintro ⟨z, hz, hmet⟩
    rw [hx] at hz
    cases hz
    exact absurd hmet (by decide +kernel)
  · rintro ⟨z, hz, hmet⟩
    rw [hy] at hz
    cases hz
    exact absurd hmet (by decide +kernel)

end BoundedSimplex
