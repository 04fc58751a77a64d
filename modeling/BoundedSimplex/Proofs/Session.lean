/-
  BoundedSimplex.Proofs.Session — whatever is done to a tableau with a basis, it stays in order.

  A session starts with a basis that was accepted, and goes on with pivots, degenerate pivots, moves
  of non-basic variables, tightened bounds, computations of the assignment, fresh starts of the
  representation, new equations, merges, and returns to snapshots, in any order.

  The equations need not hold exactly at all times: a non-basic variable may be moved alone, and
  a leaving variable that is near its bound lands on it.  A ledger that is kept beside the
  tableau records, by row, how far the moves took the left-hand side, and how much the landings
  may have contributed.

  Main results:
    * `Step.valid` — every step keeps the session valid;
    * `Session.standings_answers_residuals` — in every state of every session the recorded standings
      are those of the values, the representation solves the systems of the present basis, and the
      residual is what the ledger says.
-/
import BoundedSimplex.Proofs.Tableau.Growth
import BoundedSimplex.Proofs.Tableau.Merging
import BoundedSimplex.Proofs.Tableau.Selection
import BoundedSimplex.Proofs.Tableau.Setup
import BoundedSimplex.Proofs.Tableau.Snapshot
import Mathlib.Algebra.Field.Rat
import Mathlib.Algebra.Order.Ring.Rat

namespace BoundedSimplex

open Extended Matrix Tableau

variable {K : Type} [Field K] [LinearOrder K]

/-! ## §1.  The ledger -/

/-- By row, where the residual is expected to be, and by how much it may be off. -/
structure Ledger (K : Type) where
  /-- What the moves that the basic variables did not follow added to the left-hand side. -/
  moved : Nat → K
  /-- A bound on what the landings added. -/
  slack : Nat → K

namespace Ledger

/-- Nothing to report. -/
def clear : Ledger K := ⟨fun _ => 0, fun _ => 0⟩

/-- A variable moves alone. -/
def move (l : Ledger K) (s : State (Extended K)) (v : Nat) (x : K) : Ledger K :=
  { l with moved := fun i => l.moved i + s.matrix.coeff i v * (x - s.stored v) }

/-- How much a row can change when the leaving variable lands on a bound that it is near to. -/
def slip (t : Tableau (Extended K)) (τ : K) (i : Nat) : K :=
  match t.plan.leaving with
  | some (.basic p) => |t.matrix.coeff i (t.split.basicVar p)| * |τ|
  | _ => 0

/-- A pivot is performed. -/
def land (l : Ledger K) (t : Tableau (Extended K)) (τ : K) : Ledger K :=
  { l with slack := fun i => l.slack i + slip t τ i }

/-- A row is added. -/
def openRow (l : Ledger K) (m : Nat) : Ledger K :=
  ⟨Function.update l.moved m 0, Function.update l.slack m 0⟩

end Ledger

/-- The residuals of a state are what the ledger says.  Only moves that were not followed unsettle a
    state, and only a tolerance lets a variable land beside its value. -/
structure Tallies (τ : K) (s : State (Extended K)) (l : Ledger K) : Prop where
  near : ∀ i < s.rowCount, |s.residual i - l.moved i| ≤ l.slack i
  followed : s.settled = true → ∀ i < s.rowCount, l.moved i = 0
  exact : τ = 0 → ∀ i < s.rowCount, l.slack i = 0

namespace Tallies

variable {τ : K} {s s' : State (Extended K)} {l : Ledger K}

/-- The residuals did not change. -/
theorem keep (h : Tallies τ s l) (hrow : s'.rowCount = s.rowCount) (hset : s'.settled = s.settled)
    (hres : ∀ i < s.rowCount, s'.residual i = s.residual i) : Tallies τ s' l := by
  refine ⟨fun i hi => ?_, fun hs i hi => ?_, fun hτ i hi => ?_⟩
  · rw [hrow] at hi
    rw [hres i hi]
    exact h.near i hi
  · exact h.followed (hset ▸ hs) i (hrow ▸ hi)
  · exact h.exact hτ i (hrow ▸ hi)

/-- A variable moved alone. -/
theorem move (h : Tallies τ s l) {v : Nat} {x : K} (hrow : s'.rowCount = s.rowCount)
    (hset : s'.settled = false)
    (hres : ∀ i, s'.residual i = s.residual i + s.matrix.coeff i v * (x - s.stored v)) :
    Tallies τ s' (l.move s v x) := by
  refine ⟨fun i hi => ?_, fun hs => ?_, fun hτ i hi => h.exact hτ i (hrow ▸ hi)⟩
  · show |s'.residual i - (l.moved i + s.matrix.coeff i v * (x - s.stored v))| ≤ l.slack i
    rw [hres i, add_sub_add_right_eq_sub]
    exact h.near i (hrow ▸ hi)
  · rw [hset] at hs
    cases hs

variable [IsStrictOrderedRing K]

/-- The assignment was computed. -/
theorem cleared (hres : ∀ i < s.rowCount, s.residual i = 0) : Tallies τ s (.clear : Ledger K) := by
  refine ⟨fun i hi => ?_, fun _ _ _ => rfl, fun _ _ _ => rfl⟩
  show |s.residual i - 0| ≤ 0
  rw [hres i hi, sub_zero, abs_zero]

/-- A pivot was performed. -/
theorem land (h : Tallies τ s l) {t : Tableau (Extended K)} (hrow : s'.rowCount = s.rowCount)
    (hset : s'.settled = s.settled)
    (hres : ∀ i < s.rowCount, |s'.residual i - s.residual i| ≤ Ledger.slip t τ i) :
    Tallies τ s' (l.land t τ) := by
  have hexact (hτ : τ = 0) (i : Nat) : Ledger.slip t τ i = 0 := by
    unfold Ledger.slip
    split
    · rw [hτ, abs_zero, mul_zero]
    · rfl
  refine ⟨fun i hi => ?_, fun hs i hi => h.followed (hset ▸ hs) i (hrow ▸ hi), fun hτ i hi => ?_⟩
  · rw [hrow] at hi
    -- What the state is off by now is what it was off by, and what landing on a bound slipped.
    calc |s'.residual i - l.moved i|
        = |(s.residual i - l.moved i) + (s'.residual i - s.residual i)| := by congr 1; ring
      _ ≤ |s.residual i - l.moved i| + |s'.residual i - s.residual i| := abs_add_le _ _
      _ ≤ l.slack i + Ledger.slip t τ i := add_le_add (h.near i hi) (hres i hi)
  · show l.slack i + Ledger.slip t τ i = 0
    rw [h.exact hτ i (hrow ▸ hi), hexact hτ i, add_zero]

/-- A row was added. -/
theorem openRow (h : Tallies τ s l) (he : Extends s s') : Tallies τ s' (l.openRow s.rowCount) := by
  have hold (f : Nat → K) (i : Nat) (hi : i < s.rowCount) :
      Function.update f s.rowCount 0 i = f i :=
    Function.update_of_ne (by omega) 0 f
  have hnew (f : Nat → K) : Function.update f s.rowCount 0 s.rowCount = 0 :=
    Function.update_self s.rowCount 0 f
  -- a row of the longer system is an old one or the last one
  have hrow (i : Nat) (hi : i < s'.rowCount) : i < s.rowCount ∨ i = s.rowCount := by
    rw [he.rowCount] at hi
    omega
  refine ⟨fun i hi => ?_, fun hs i hi => ?_, fun hτ i hi => ?_⟩
  · show |s'.residual i - Function.update l.moved s.rowCount 0 i|
      ≤ Function.update l.slack s.rowCount 0 i
    rcases hrow i hi with hi | rfl
    · rw [hold _ i hi, hold _ i hi, he.residual i hi]
      exact h.near i hi
    · rw [hnew, hnew, he.newResidual, sub_zero, abs_zero]
  · show Function.update l.moved s.rowCount 0 i = 0
    rcases hrow i hi with hi | rfl
    · rw [hold _ i hi]
      exact h.followed (he.settled ▸ hs) i hi
    · exact hnew _
  · show Function.update l.slack s.rowCount 0 i = 0
    rcases hrow i hi with hi | rfl
    · rw [hold _ i hi]
      exact h.exact hτ i hi
    · exact hnew _

end Tallies

/-! ## §2.  Sessions -/

/-- A tableau in use, its ledger, and the snapshots that were taken of it, each with the
    ledger of its time. -/
structure Session (K : Type) [Field K] [LinearOrder K] where
  tableau : Tableau (Extended K)
  ledger : Ledger K
  saved : List (State (Extended K) × Ledger K)

/-- One step of a session in which bounds are compared with tolerance `τ`. -/
inductive Step (τ : K) : Session K → Session K → Prop
  /-- Selections, columns, rows and prices are changed. -/
  | prepared {t u : Tableau (Extended K)} {l : Ledger K}
      {saved : List (State (Extended K) × Ledger K)} {op : Operation (Extended K)}
      {reply : Reply (Extended K)} (prepares : op.Prepares) (done : t.perform op = .ok (reply, u)) :
      Step τ ⟨t, l, saved⟩ ⟨u, l, saved⟩
  /-- A pivot, after a ratio test. -/
  | pivoted {t w u : Tableau (Extended K)} {l : Ledger K}
      {saved : List (State (Extended K) × Ledger K)} (selected : Selected t w)
      (keeps : w.KeepsColumn) (done : w.performPivot = .ok u) :
      Step τ ⟨t, l, saved⟩ ⟨u, l.land w τ, saved⟩
  /-- A degenerate pivot, with a computed column. -/
  | exchanged {t w u : Tableau (Extended K)} {l : Ledger K}
      {saved : List (State (Extended K) × Ledger K)} (chosen : Chosen t w) (keeps : w.KeepsColumn)
      (done : w.performDegenerate = .ok u) : Step τ ⟨t, l, saved⟩ ⟨u, l, saved⟩
  | tightenedLower {t u : Tableau (Extended K)} {l : Ledger K}
      {saved : List (State (Extended K) × Ledger K)} {v : Nat} {x : Extended K}
      (below : x < Scalar.infinity) (done : t.tightenLower v x = .ok u) :
      Step τ ⟨t, l, saved⟩ ⟨u, l, saved⟩
  | tightenedUpper {t u : Tableau (Extended K)} {l : Ledger K}
      {saved : List (State (Extended K) × Ledger K)} {v : Nat} {x : Extended K}
      (above : -Scalar.infinity < x) (done : t.tightenUpper v x = .ok u) :
      Step τ ⟨t, l, saved⟩ ⟨u, l, saved⟩
  /-- A non-basic variable moves and the basic ones follow. -/
  | moved {t u : Tableau (Extended K)} {l : Ledger K} {saved : List (State (Extended K) × Ledger K)}
      {v : Nat} {x : K} (done : t.moveNonBasic v (fin x) true = .ok u) :
      Step τ ⟨t, l, saved⟩ ⟨u, l, saved⟩
  /-- A non-basic variable moves alone. -/
  | movedAlone {t u : Tableau (Extended K)} {l : Ledger K}
      {saved : List (State (Extended K) × Ledger K)} {v : Nat} {x : K}
      (done : t.moveNonBasic v (fin x) false = .ok u) :
      Step τ ⟨t, l, saved⟩ ⟨u, l.move t.toState v x, saved⟩
  | computed {t u : Tableau (Extended K)} {l : Ledger K}
      {saved : List (State (Extended K) × Ledger K)} (done : t.computeValues = .ok u) :
      Step τ ⟨t, l, saved⟩ ⟨u, .clear, saved⟩
  | refactored {t u : Tableau (Extended K)} {l : Ledger K}
      {saved : List (State (Extended K) × Ledger K)} {r : Except Failure Unit}
      (done : t.refactor = .ok (r, u)) : Step τ ⟨t, l, saved⟩ ⟨u, l, saved⟩
  | extended {t u : Tableau (Extended K)} {l : Ledger K}
      {saved : List (State (Extended K) × Ledger K)} {e : LinearEquation (Extended K)} {aux : Nat}
      (finite : e.IsFinite) (done : t.addEquation e = .ok (.ok aux, u)) :
      Step τ ⟨t, l, saved⟩ ⟨u, l.openRow t.rowCount, saved⟩
  | merged {t u : Tableau (Extended K)} {l : Ledger K}
      {saved : List (State (Extended K) × Ledger K)} {source target : Nat}
      (done : t.merge source target = .ok (.ok (), u)) :
      Step τ ⟨t, l, saved⟩ ⟨u, .clear, saved⟩
  | saved {t u : Tableau (Extended K)} {l : Ledger K} {saved : List (State (Extended K) × Ledger K)}
      {s : State (Extended K)} (done : t.save = .ok (s, u)) :
      Step τ ⟨t, l, saved⟩ ⟨u, l, (s, l) :: saved⟩
  /-- A return to a snapshot. -/
  | restored {t u : Tableau (Extended K)} {l l' : Ledger K}
      {saved : List (State (Extended K) × Ledger K)} {s : State (Extended K)}
      (mem : (s, l') ∈ saved) (done : t.restore s = .ok (.ok (), u)) :
      Step τ ⟨t, l, saved⟩ ⟨u, l', saved⟩
  /-- A return that was refused. -/
  | stayed {t u : Tableau (Extended K)} {l l' : Ledger K}
      {saved : List (State (Extended K) × Ledger K)} {s : State (Extended K)}
      (mem : (s, l') ∈ saved) {cause : Failure} (done : t.restore s = .ok (.error cause, u)) :
      Step τ ⟨t, l, saved⟩ ⟨u, l, saved⟩

/-- The sessions that start with an accepted basis and go on step by step. -/
inductive Reachable (τ : K) : Session K → Prop
  | started {t u : Tableau (Extended K)} (configured : t.Configured)
      (tolerance : t.settings.boundTolerance = fin τ) (done : t.start = .ok (.ok (), u)) :
      Reachable τ ⟨u, .clear, []⟩
  | startedFrom {t u : Tableau (Extended K)} {vs : List Nat} (configured : t.Configured)
      (tolerance : t.settings.boundTolerance = fin τ) (done : t.startFrom vs = .ok (.ok (), u)) :
      Reachable τ ⟨u, .clear, []⟩
  | step {σ σ' : Session K} (before : Reachable τ σ) (step : Step τ σ σ') : Reachable τ σ'

/-! ## §3.  The invariant -/

/-- The tableau is sound, and it and all snapshots have the residuals of their ledgers. -/
structure Session.Valid (τ : K) (σ : Session K) : Prop where
  sound : σ.tableau.Sound
  tolerance : σ.tableau.settings.boundTolerance = fin τ
  tallies : Tallies τ σ.tableau.toState σ.ledger
  saved : ∀ p ∈ σ.saved, p.1.WellFormed ∧ p.1.standings = freshStandings p.1 (fin τ)
    ∧ Tallies τ p.1 p.2

section Steps

variable {τ : K} {t u w : Tableau (Extended K)} {l : Ledger K}

variable [IsStrictOrderedRing K]

/-- **A pivot** changes no row by more than its slip. -/
theorem Tableau.Pivoted.tallies {j : Nat} (hl : Tallies τ t.toState l) (h : Pivoted t u τ j) :
    u.Sound ∧ u.settings = t.settings ∧ Tallies τ u.toState (l.land t τ) := by
  -- where nothing lands, the residuals stay
  have hstay (i : Nat) (he : u.toState.residual i = t.toState.residual i) :
      |u.toState.residual i - t.toState.residual i| ≤ Ledger.slip t τ i := by
    rw [he, sub_self, abs_zero]
    unfold Ledger.slip
    split
    · exact mul_nonneg (abs_nonneg _) (abs_nonneg _)
    · exact le_rfl
  cases h with
  | ignored hs hc =>
    have hstate : u.toState = t.toState := hc.toState
    refine ⟨hs, hc.settings, hl.land (by rw [hstate]) (by rw [hstate]) fun i _ => hstay i ?_⟩
    rw [hstate]
  | jumped hs hc hr _ =>
    obtain ⟨_, _, rfl⟩ := hc
    exact ⟨hs, rfl, hl.land rfl rfl fun i hi => hstay i (hr i hi)⟩
  | @exchanged p y e hleaving hx hnear _ =>
    obtain ⟨hp, -, ⟨xs, ss, inverse, pricing, -, _, _, rfl⟩, hs, hr⟩ := hx
    refine ⟨hs, rfl, hl.land rfl rfl fun i hi => ?_⟩
    show _ ≤ match t.plan.leaving with
      | some (.basic p) => |t.matrix.coeff i (t.split.basicVar p)| * |τ|
      | _ => 0
    rw [hr i hi, hleaving, add_sub_cancel_left, abs_mul]
    exact mul_le_mul_of_nonneg_left hnear (abs_nonneg _)

namespace Session.Valid

variable {σ σ' : Session K} {saved : List (State (Extended K) × Ledger K)}

omit [IsStrictOrderedRing K] in
/-- A tableau that is still sound, and whose residuals are those of the new ledger. -/
theorem advance (h : Valid τ ⟨t, l, saved⟩) {l' : Ledger K} (hs : u.Sound)
    (hset : u.settings = t.settings) (hl : Tallies τ u.toState l') : Valid τ ⟨u, l', saved⟩ := by
  refine ⟨hs, ?_, hl, h.saved⟩
  show u.settings.boundTolerance = fin τ
  rw [hset]
  exact h.tolerance

/-- **Every step keeps a session valid.** -/
theorem step (h : Valid τ σ) (hstep : Step τ σ σ') : Valid τ σ' := by
  cases hstep with
  | prepared hop hdone =>
    obtain ⟨plan, pricing, multipliers, hsil⟩ := prepares_spec hop hdone
    have hs := h.sound.replan hsil
    have hstate := hsil.toState
    refine h.advance hs hsil.settings (h.tallies.keep ?_ ?_ fun i _ => ?_)
    all_goals rw [hstate]
  | pivoted hsel hkeeps hdone =>
    -- selecting is silent, so the tallies of the selected tableau are those of this one
    obtain ⟨j, plan, -, hw, -, hplanned⟩ := selected_spec h.sound.steady hsel
    have hplanned := hplanned h.sound.toSolvable
    have hstate : _ = _ := Silent.toState hw
    have hset : _ = _ := hw.settings
    have hτ := h.tolerance
    obtain ⟨hs, hset', hl⟩ :=
      (performPivot_spec (hw.sound h.sound) (by rw [hset]; exact hτ) hplanned
      hkeeps hdone).tallies (h.tallies.keep (by rw [hstate]) (by rw [hstate]) fun i _ => by
        rw [hstate])
    exact h.advance hs (hset'.trans hset) hl
  | exchanged hchosen hkeeps hdone =>
    obtain ⟨j, plan, hready, hw⟩ := chosen_spec h.sound hchosen
    obtain ⟨p, -, hx⟩ := performDegenerate_spec (hw.sound h.sound) hready hkeeps hdone
    obtain ⟨_, _, rfl⟩ := hw
    obtain ⟨-, -, ⟨xs, ss, inverse, pricing, -, _, _, rfl⟩, hs, hr⟩ := hx
    -- an exchange by a step of zero moves nothing
    refine h.advance hs rfl (h.tallies.keep rfl rfl fun i hi => ?_)
    rw [hr i hi, mul_zero, add_zero]
  | tightenedLower hx hdone =>
    obtain ⟨-, bounds, -, w, ys, ss, pricing, ⟨_, _, rfl⟩, hx⟩ := h.sound.tightenLower hx hdone
    obtain ⟨xs, _, _, rfl⟩ := hx.changes
    exact h.advance hx.sound rfl (h.tallies.keep rfl rfl hx.residual)
  | tightenedUpper hx hdone =>
    obtain ⟨-, bounds, -, w, ys, ss, pricing, ⟨_, _, rfl⟩, hx⟩ := h.sound.tightenUpper hx hdone
    obtain ⟨xs, _, _, rfl⟩ := hx.changes
    exact h.advance hx.sound rfl (h.tallies.keep rfl rfl hx.residual)
  | moved hdone =>
    obtain ⟨-, -, xs, ss, ⟨_, _, rfl⟩, hs, hr⟩ := h.sound.moveNonBasic_follow hdone
    exact h.advance hs rfl (h.tallies.keep rfl rfl hr)
  | movedAlone hdone =>
    obtain ⟨-, -, ⟨_, _, rfl⟩, hs, hr⟩ := h.sound.moveNonBasic_alone hdone
    exact h.advance hs rfl (h.tallies.move rfl rfl hr)
  | computed hdone =>
    obtain ⟨hs, hset, hr, xs, ss, hstate⟩ := h.sound.computeValues_state h.sound.hasBasis hdone
    refine h.advance hs hset (.cleared ?_)
    have hrow := congrArg State.rowCount hstate
    rw [show (_ : State (Extended K)).rowCount = _ from hrow]
    exact hr
  | refactored hdone =>
    obtain ⟨inverse, ⟨_, _, rfl⟩, hs⟩ := h.sound.refactor hdone
    exact h.advance hs rfl (h.tallies.keep rfl rfl fun _ _ => rfl)
  | extended hfin hdone =>
    obtain ⟨hs, hext, hset⟩ := addEquation_spec h.sound hfin hdone
    exact h.advance hs hset (h.tallies.openRow hext)
  | merged hdone =>
    have hm := merge_spec h.sound.steady hdone
    refine h.advance hm.sound hm.settings (.cleared fun i hi => hm.residual i ?_)
    rw [← hm.rowCount]
    exact hi
  | saved hdone =>
    obtain ⟨rfl, hsil⟩ := save_spec hdone
    have hstate := hsil.toState
    refine ⟨hsil.sound h.sound, ?_, ?_, fun p hp => ?_⟩
    · show _ = fin τ
      rw [hsil.settings]
      exact h.tolerance
    · exact h.tallies.keep (by rw [hstate]) (by rw [hstate]) fun i _ => by rw [hstate]
    · -- what was saved is remembered together with its tallies
      rcases List.mem_cons.mp hp with rfl | hp
      · refine ⟨h.sound.state, ?_, h.tallies⟩
        have hst := h.sound.standings
        rw [h.tolerance] at hst
        exact hst
      · exact h.saved p hp
  | restored hmem hdone =>
    obtain ⟨hs, hst, hl⟩ := h.saved _ hmem
    rw [← h.tolerance] at hst
    rcases restore_spec hs hst hdone with ⟨⟨cause, hc⟩, -⟩ | ⟨-, hu, hstate, hset⟩
    · cases hc
    · refine h.advance hu hset ?_
      rw [hstate]
      exact hl
  | stayed hmem hdone =>
    obtain ⟨hs, hst, -⟩ := h.saved _ hmem
    rw [← h.tolerance] at hst
    rcases restore_spec hs hst hdone with ⟨-, hsil⟩ | ⟨hc, -⟩
    · have hstate := hsil.toState
      exact h.advance (hsil.sound h.sound) hsil.settings
        (h.tallies.keep (by rw [hstate]) (by rw [hstate]) fun i _ => by rw [hstate])
    · cases hc

/-- A start leaves nothing to tally. -/
theorem of_started (hs : Started t u) (hτ : t.settings.boundTolerance = fin τ) :
    Valid τ ⟨u, .clear, []⟩ := by
  refine ⟨hs.sound, ?_, .cleared hs.residual, fun p hp => absurd hp List.not_mem_nil⟩
  show _ = fin τ
  rw [hs.settings]
  exact hτ

end Session.Valid

/-- Every session that can be reached is valid. -/
theorem Reachable.valid {σ : Session K} (h : Reachable τ σ) : σ.Valid τ := by
  induction h with
  | started hc hτ hdone => exact .of_started (start_spec hc.prepared hdone) hτ
  | startedFrom hc hτ hdone => exact .of_started (startFrom_spec hc.prepared hdone) hτ
  | step _ hstep ih => exact ih.step hstep

/-- **What holds in every state of every session.**  The recorded standings are those of the values
    and the bounds; both systems of the present basis have exactly one solution for every right-hand
    side, which is what the representation answers; every variable has a value, and the left-hand
    side of a row misses the right-hand side by what the ledger says: with an exact comparison of
    bounds by what unfollowed moves added, and not at all once the state is settled. -/
theorem Session.standings_answers_residuals {σ : Session K} (h : Reachable τ σ) :
    σ.tableau.allStandings σ.tableau.settings.boundTolerance = .ok σ.tableau.standings
      ∧ (∀ y : Fin σ.tableau.rowCount → K, ∃ x, σ.tableau.inverse.solveColumn (embed y)
          = .ok (embed x)
          ∧ ∀ z, σ.tableau.basis *ᵥ z = y ↔ z = x)
      ∧ (∀ y : Fin σ.tableau.rowCount → K, ∃ x, σ.tableau.inverse.solveRow (embed y) = .ok (embed x)
          ∧ ∀ z, z ᵥ* σ.tableau.basis = y ↔ z = x)
      ∧ (∀ v < σ.tableau.varCount, σ.tableau.storedValue v = .ok (fin (σ.tableau.stored v)))
      ∧ (∀ i < σ.tableau.rowCount, |σ.tableau.residual i - σ.ledger.moved i| ≤ σ.ledger.slack i)
      ∧ (τ = 0 → ∀ i < σ.tableau.rowCount, σ.tableau.residual i = σ.ledger.moved i)
      ∧ (σ.tableau.settled = true → ∀ i < σ.tableau.rowCount, σ.ledger.moved i = 0) := by
  have hv := h.valid
  refine ⟨?_, hv.sound.solveColumn_eq, hv.sound.solveRow_eq, fun v hv' => ?_, hv.tallies.near,
    fun hτ i hi => ?_, hv.tallies.followed⟩
  · rw [hv.sound.standings]
    exact hv.sound.state.allStandings_eq _
  · exact hv.sound.state.storedValue_eq hv'
  -- With tolerance zero the slack is zero, so near is equal.
  · have hnear := hv.tallies.near i hi
    rw [hv.tallies.exact hτ i hi] at hnear
    exact sub_eq_zero.mp (abs_nonpos_iff.mp hnear)

end Steps

/-- A session with the equation `x + 2 y + z = 10`: after a pivot `x` moves alone by 2, and the
    equation is off by that. -/
theorem Session.residual_of_unfollowed_move : ∃ σ : Session ℚ, Reachable 0 σ
    ∧ σ.tableau.basicValues = [fin 3] ∧ σ.tableau.standings = [.atUpper]
    ∧ σ.tableau.residual 0 = 2 := by
  have hrun : (do
      let t ← (create (α := Extended ℚ) { boundTolerance := 0 }).run [.setSize 1 3,
        .setCoefficients [fin 1, fin 2, fin 1], .setRightHandSide [fin 10],
        .setLower 0 (fin 0), .setUpper 0 (fin 4), .setLower 1 (fin 0), .setUpper 1 (fin 3),
        .setLower 2 (fin 0), .setUpper 2 (fin 5)]
      let (r, a) ← t.startFrom [2]
      let w ← a.run [.selectEntering 1, .computeColumn, .standardRatioTest]
      let b ← w.performPivot
      let c ← b.moveNonBasic 0 (fin 2) false
      let d ← c.tightenUpper 2 (fin 4)
      Checked.require (r = Except.ok () ∧ t.settings.boundTolerance = fin 0 ∧ w.KeepsColumn
        ∧ b.matrix.coeff 0 0 = 1 ∧ b.stored 0 = 0 ∧ 0 < d.rowCount ∧ d.basicValues = [fin 3]
        ∧ d.standings = [Standing.atUpper]) .inconsistent) = .ok () := by decide +kernel
  obtain ⟨t, ht, hrun⟩ := Checked.bind_eq_ok.mp hrun
  obtain ⟨⟨r, a⟩, ha, hrun⟩ := Checked.bind_eq_ok.mp hrun
  obtain ⟨w, hw, hrun⟩ := Checked.bind_eq_ok.mp hrun
  obtain ⟨b, hb, hrun⟩ := Checked.bind_eq_ok.mp hrun
  obtain ⟨c, hc, hrun⟩ := Checked.bind_eq_ok.mp hrun
  obtain ⟨d, hd, hrun⟩ := Checked.bind_eq_ok.mp hrun
  obtain ⟨rfl, hτ, hkeeps, hcoeff, hstored, hrow, hbasic, hstandings⟩ :=
    Checked.require_eq_ok.mp hrun
  have hconf : t.Configured := (Configured.created _).run (by decide +kernel) ht
  have hstart : Reachable 0 ⟨a, .clear, []⟩ := .startedFrom hconf hτ ha
  -- Entering 1, by the textbook test.
  have hsel : Selected a w := ⟨.selectEntering 1, .standardRatioTest, trivial, trivial, .inl hw⟩
  have hreach := ((hstart.step (.pivoted hsel hkeeps hb)).step (.movedAlone hc)).step
    (.tightenedUpper (by decide +kernel) hd)
  refine ⟨_, hreach, hbasic, hstandings, ?_⟩
  rw [(Session.standings_answers_residuals hreach).2.2.2.2.2.1 rfl 0 hrow]
  -- The move was not followed, so the row is off by it.
  show 0 + b.matrix.coeff 0 0 * (2 - b.stored 0) = 2
  rw [hcoeff, hstored]
  norm_num

end BoundedSimplex
