/-
  BoundedSimplex.Proofs.Parallel — the form of the inverse and its age cannot be seen.

  Two new tableaux differ in the form of their inverses and in the thresholds for fresh starts, and
  are asked for the same in exact arithmetic.  Their inverses stand for the same matrix throughout,
  although one may start over after every pivot and the other one never.

  A fresh start makes the inverse that of the present basis.  It was that before, unless the caller
  replaced coefficients of a basis or provided a change column of his own; so a pivot that makes
  only one of the two inverses due has to come upon them in step with the basis.

  Main results:
    * `Alike.finish_of_inverts` — a fresh start of one inverse alone;
    * `indistinct_of_parallel` — nothing but age, log and the number of fresh starts differs, and
      the next request has the same outcome on both;
    * `refresh_seen_after_own_column` — a provided change column that is not the true one shows.
-/
import BoundedSimplex.Proofs.Basis.Twins
import BoundedSimplex.Proofs.Requests
import BoundedSimplex.Proofs.Tableau.Selection
import BoundedSimplex.Proofs.Tableau.Setup
import Mathlib.Data.List.Infix

namespace BoundedSimplex

open Extended Matrix

/-! ## §1.  Counters -/

namespace Statistics

/-- The counts of everything but fresh starts. -/
def others (s : Statistics) : List (Counter × Nat) :=
  s.events.filter fun e => e.1 ≠ .refactorizations

/-- Counting adds one to its own counter, if there is one. -/
theorem others_increment (s : Statistics) (c : Counter) :
    (s.increment c).others = s.others.map fun e => (e.1, if e.1 = c then e.2 + 1 else e.2) := by
  unfold others increment
  rw [List.filter_map]
  rfl

/-- A refactorization is not among the other events. -/
theorem others_refreshed (s : Statistics) : (s.increment .refactorizations).others = s.others := by
  rw [others_increment]
  conv_rhs => rw [← List.map_id s.others]
  refine List.map_congr_left fun e he => ?_
  have hne : e.1 ≠ .refactorizations := by simpa [others] using (List.mem_filter.mp he).2
  rw [if_neg hne]
  rfl

/-- The count of an event other than a fresh start. -/
theorem get_eq_of_others {s s' : Statistics} (h : s.others = s'.others) {c : Counter}
    (hc : c ≠ .refactorizations) : s.get c = s'.get c := by
  -- Dropping the counter of refactorizations does not hide the others from a lookup.
  have hlookup (es : List (Counter × Nat)) :
      es.lookup c = (es.filter fun e => e.1 ≠ .refactorizations).lookup c := by
    induction es with
    | nil => rfl
    | cons e es ih =>
      obtain ⟨d, k⟩ := e
      rw [List.lookup_cons, List.filter_cons]
      by_cases hd : d = .refactorizations
      · subst hd
        rw [if_neg (by simp), beq_false_of_ne hc]
        exact ih
      · rw [if_pos (by simpa using hd), List.lookup_cons]
        cases c == d
        · exact ih
        · rfl
  unfold get
  rw [hlookup s.events, hlookup s'.events]
  exact congrArg (fun es => (List.lookup c es).getD 0) h

end Statistics

variable {K : Type} [Field K] [LinearOrder K] [IsStrictOrderedRing K]

/-- Representations of one matrix answer alike about finite numbers. -/
def Likeness.represented (K : Type) [Field K] [LinearOrder K] [IsStrictOrderedRing K] :
    Likeness (Extended K) where
  numbers := .finite K
  follows := Substantial
  inverse := BasisInverse.Twins
  statistics := fun s s' => s.map Statistics.others = s'.map Statistics.others
  first := .empty
  second := .empty
  size := BasisInverse.Twins.size
  solveColumn := fun h hy => h.solveColumn hy
  solveRow := fun h hy => h.solveRow hy
  update := fun h hc hs hi => h.update hc hs hi
  refresh := fun _ => BasisInverse.Twins.refresh
  count := fun {s s'} c h => by
    have hmap (o : Option Statistics) : (o.map (·.increment c)).map Statistics.others
        = (o.map Statistics.others).map
            (List.map fun e => (e.1, if e.1 = c then e.2 + 1 else e.2)) := by
      cases o with
      | none => rfl
      | some s => exact congrArg some (s.others_increment c)
    rw [hmap, hmap, h]
  restart := rfl

namespace Tableau

variable {t u v w : Tableau (Extended K)}

/-! ## §2.  Due inverses -/

/-- The inverse is due for a fresh start once the selected pivot is performed. -/
def dueAfterPivot {α : Type} [Scalar α] (t : Tableau α) : Bool :=
  decide (t.inverse.threshold ≤ t.inverse.exchanges + if t.isFake then 0 else 1)

/-- What an exchange does to coefficients, split and inverse. -/
structure Swaps {α : Type} [Scalar α] (t v : Tableau α) (j i : Nat) : Prop where
  matrix : v.matrix = t.matrix
  split : ∃ names, t.split.swap j i = .ok (names, v.split)
  inverse : t.inverse.update i t.plan.column = .ok v.inverse
  pivot : ∃ element, t.pivotElement i = .ok element

section Frames

variable {α : Type} [Scalar α] {t u v w : Tableau α}

/-- The parts that fresh starts depend on. -/
structure SameBasis (t u : Tableau α) : Prop where
  matrix : u.matrix = t.matrix
  split : u.split = t.split
  inverse : u.inverse = t.inverse

/-- Steps that keep the basis can be chained. -/
theorem SameBasis.trans (h : SameBasis t u) (h' : SameBasis u v) : SameBasis t v :=
  ⟨h'.matrix.trans h.matrix, h'.split.trans h.split, h'.inverse.trans h.inverse⟩

/-- Notices and counters keep it. -/
theorem Silent.sameBasis (h : Silent t u) : SameBasis t u := by
  obtain ⟨_, _, rfl⟩ := h
  exact ⟨rfl, rfl, rfl⟩

/-- Recording statuses keeps it. -/
theorem sameBasis_of_classifyAll (h : t.classifyAll = .ok u) : SameBasis t u := by
  obtain ⟨_, -, rfl⟩ := of_classifyAll h
  exact ⟨rfl, rfl, rfl⟩

/-- So does recording one of them. -/
theorem sameBasis_of_classifyAt {i : Nat} (h : t.classifyAt i = .ok u) : SameBasis t u := by
  obtain ⟨_, -, h⟩ := Checked.bind_eq_ok.mp h
  obtain ⟨_, -, h⟩ := Checked.bind_eq_ok.mp h
  cases h
  exact ⟨rfl, rfl, rfl⟩

/-- And a fake pivot, which moves values only. -/
theorem sameBasis_of_performFake {j : Nat} (h : t.performFake j = .ok u) : SameBasis t u := by
  unfold performFake at h
  split at h
  · obtain ⟨k, -, h⟩ := Checked.bind_eq_ok.mp h
    obtain ⟨x, -, h⟩ := Checked.bind_eq_ok.mp h
    obtain ⟨l, -, h⟩ := Checked.bind_eq_ok.mp h
    obtain ⟨b, -, h⟩ := Checked.bind_eq_ok.mp h
    obtain ⟨w, hw, h⟩ := Checked.bind_eq_ok.mp h
    obtain ⟨pairs, -, h⟩ := Checked.bind_eq_ok.mp h
    cases h
    have hw := sameBasis_of_classifyAll hw
    have htold := (silent_tellValues (w.invalidatePrices.tellValue k
      (if t.plan.enteringFalls then l else b)) pairs).sameBasis
    exact ⟨htold.matrix.trans hw.matrix, htold.split.trans hw.split, htold.inverse.trans hw.inverse⟩
  · cases h
    exact ⟨rfl, rfl, rfl⟩

/-- Exchanging places swaps two roles and updates the representation with the pivot element. -/
theorem swaps_of_exchangePlaces {j i : Nat} {x y : α} {names : Nat × Nat} {element : α}
    (he : t.pivotElement i = .ok element) (h : t.exchangePlaces j i x y = .ok (names, u)) :
    Swaps t u j i := by
  obtain ⟨⟨names', split⟩, hsplit, h⟩ := Checked.bind_eq_ok.mp h
  obtain ⟨_, -, h⟩ := Checked.bind_eq_ok.mp h
  obtain ⟨_, -, h⟩ := Checked.bind_eq_ok.mp h
  obtain ⟨inverse, hinverse, h⟩ := Checked.bind_eq_ok.mp h
  cases h
  exact ⟨rfl, ⟨_, hsplit⟩, hinverse, _, he⟩

/-- What keeps the basis can follow an exchange. -/
theorem Swaps.sameBasis {j i : Nat} (h : Swaps t u j i) (h' : SameBasis u v) : Swaps t v j i :=
  ⟨h'.matrix.trans h.matrix, h'.split ▸ h.split, h'.inverse ▸ h.inverse, h.pivot⟩

/-- Following an exchange changes costs only. -/
theorem sameBasis_of_followExchange {j i : Nat} {element : α}
    (h : t.followExchange j i element = .ok u) : SameBasis t u := by
  unfold followExchange at h
  split at h
  · split at h
    · obtain ⟨⟨pricing, changed⟩, -, h⟩ := Checked.bind_eq_ok.mp h
      cases h
      have hremark := (silent_remarkIf { t with
        pricing
        journal := if t.pricing.records then t.journal.addExchange ⟨j, i, element⟩ else t.journal }
        changed .basicCostChanged).sameBasis
      exact ⟨hremark.matrix, hremark.split, hremark.inverse⟩
    · cases h
      exact ⟨rfl, rfl, rfl⟩
  · cases h
    exact ⟨rfl, rfl, rfl⟩

/-- An exchange at a pivot swaps two roles. -/
theorem swaps_of_performExchange {j i : Nat} (h : t.performExchange j i = .ok u) :
    Swaps t u j i := by
  obtain ⟨element, he, h⟩ := Checked.bind_eq_ok.mp h
  obtain ⟨leaving, -, h⟩ := Checked.bind_eq_ok.mp h
  obtain ⟨standing, -, h⟩ := Checked.bind_eq_ok.mp h
  obtain ⟨l, -, h⟩ := Checked.bind_eq_ok.mp h
  obtain ⟨b, -, h⟩ := Checked.bind_eq_ok.mp h
  obtain ⟨x, -, h⟩ := Checked.bind_eq_ok.mp h
  obtain ⟨⟨⟨entering, _⟩, v⟩, hv, h⟩ := Checked.bind_eq_ok.mp h
  obtain ⟨w, hw, h⟩ := Checked.bind_eq_ok.mp h
  obtain ⟨y, hy, h⟩ := Checked.bind_eq_ok.mp h
  obtain ⟨pairs, -, h⟩ := Checked.bind_eq_ok.mp h
  have hswaps : Swaps { t with basicValues := shift t.change t.basicValues t.plan.column } v j i :=
    swaps_of_exchangePlaces he hv
  have hrest := ((silent_remark v _).sameBasis.trans (sameBasis_of_classifyAll hw)).trans
    (sameBasis_of_followExchange hy)
  have htold := hrest.trans ((silent_tellValues y pairs).trans (silent_tellValue _ leaving
    (landing standing t.plan.leavingRises l b))).sameBasis
  have hsame : SameBasis v u := by
    split at h
    · cases h
      exact htold.trans ((silent_count _ _).trans (silent_count _ _)).sameBasis
    · cases h
      exact htold.trans (silent_count _ _).sameBasis
  have hend := hswaps.sameBasis hsame
  exact ⟨hend.matrix, hend.split, hend.inverse, element, he⟩

/-- A pivot leaves the basis alone or exchanges two variables. -/
def Turns (t u : Tableau α) : Prop :=
  (t.plan.leaving = some .entering ∧ SameBasis t u)
    ∨ ∃ j i, t.plan.entering = some j ∧ t.plan.leaving = some (.basic i) ∧ Swaps t u j i

/-- A degenerate pivot turns at most one pair of roles around. -/
theorem turns_of_turnDegenerate (h : t.turnDegenerate = .ok u) : Turns t u := by
  obtain ⟨_, -, h⟩ := Checked.bind_eq_ok.mp h
  obtain ⟨j, hj, h⟩ := Checked.bind_eq_ok.mp h
  obtain ⟨i, hi, h⟩ := Checked.bind_eq_ok.mp h
  obtain ⟨standing, -, h⟩ := Checked.bind_eq_ok.mp h
  obtain ⟨_, -, h⟩ := Checked.bind_eq_ok.mp h
  obtain ⟨element, he, h⟩ := Checked.bind_eq_ok.mp h
  obtain ⟨x, -, h⟩ := Checked.bind_eq_ok.mp h
  obtain ⟨y, -, h⟩ := Checked.bind_eq_ok.mp h
  obtain ⟨⟨⟨entering, leaving⟩, v⟩, hv, h⟩ := Checked.bind_eq_ok.mp h
  obtain ⟨w, hw, h⟩ := Checked.bind_eq_ok.mp h
  obtain ⟨z, hz, h⟩ := Checked.bind_eq_ok.mp h
  cases h
  have hrest := ((silent_remark v _).sameBasis.trans (sameBasis_of_classifyAt hw)).trans
    (sameBasis_of_followExchange hz)
  exact .inr ⟨j, i, enteringIndex_eq_ok.mp hj, leavingRow_eq_ok hi,
    (swaps_of_exchangePlaces he hv).sameBasis
      (hrest.trans ((silent_count _ _).trans (silent_count _ _)).sameBasis)⟩

/-- So does any pivot. -/
theorem turns_of_turn (h : t.turn = .ok u) : Turns t u := by
  obtain ⟨_, -, h⟩ := Checked.bind_eq_ok.mp h
  obtain ⟨j, hj, h⟩ := Checked.bind_eq_ok.mp h
  split at h
  · next hl => exact .inl ⟨hl, sameBasis_of_performFake h⟩
  · next i hl => exact .inr ⟨j, i, enteringIndex_eq_ok.mp hj, hl, swaps_of_performExchange h⟩
  · cases h

/-- Pivots leave the matrix alone. -/
theorem Turns.matrix (h : Turns t u) : u.matrix = t.matrix := by
  rcases h with ⟨-, h⟩ | ⟨_, _, -, -, h⟩ <;> exact h.matrix

/-- The inverse is due at the end of a pivot if that could be told before. -/
theorem Turns.isDue (h : Turns t u) : u.inverse.isDue = t.dueAfterPivot := by
  unfold BasisInverse.isDue dueAfterPivot isFake
  rcases h with ⟨hl, hsame⟩ | ⟨j, i, -, hl, hswaps⟩
  · rw [hsame.inverse, hl]
    rfl
  · obtain ⟨hthreshold, hexchanges⟩ := BasisInverse.exchanges_of_update hswaps.inverse
    rw [hthreshold, hexchanges, hl]
    rfl

/-- A representation that is not due is kept. -/
theorem finish_of_not_due (h : v.inverse.isDue = false) : v.finish = .ok v.clearPlan :=
  if_neg (by rw [show v.clearPlan.inverse.isDue = v.inverse.isDue from rfl, h]; decide)

end Frames

/-! ## §3.  In step with the basis -/

/-- The inverse is that of the basis. -/
def Inverts (v : Tableau (Extended K)) : Prop :=
  ∃ s : State (Extended K), s.WellFormed ∧ s.matrix = v.matrix ∧ s.split = v.split
    ∧ IsUnit s.basis ∧ v.inverse.Represents s.basis⁻¹

/-- The selected pivot comes upon an inverse that is that of the basis, and if it is an exchange,
    with the change column of the entering variable. -/
structure PivotFits (t : Tableau (Extended K)) : Prop where
  solvable : t.Solvable
  ready : ∀ i, t.plan.leaving = some (.basic i) → ∃ j, t.Ready j

omit [IsStrictOrderedRing K] in
/-- A pivot that fits leaves the inverse that of the basis. -/
theorem PivotFits.inverts (ht : t.PivotFits) (hs : Substantial t.plan.column) (h : Turns t u) :
    Inverts u := by
  rcases h with ⟨-, hsame⟩ | ⟨j, i, hj, hi, hswaps⟩
  · exact ⟨t.toState, ht.solvable.state, hsame.matrix.symm, hsame.split.symm, ht.solvable.unit,
      hsame.inverse ▸ ht.solvable.inverse⟩
  · obtain ⟨j', hr⟩ := ht.ready i hi
    obtain rfl : j = j' := Option.some.inj (hj.symm.trans hr.entering)
    obtain ⟨element, he⟩ := hswaps.pivot
    obtain ⟨names, hsplit⟩ := hswaps.split
    have hnum := hr.column.1
    obtain ⟨hlt, hd, -⟩ := pivotElement_spec hnum he
    -- the values that the two variables bring along do not matter
    have hplaces : t.exchangePlaces j i (fin 0) (fin 0) = .ok (names, { t with
        split := u.split
        basicValues := t.basicValues.set i (fin 0)
        nonBasicValues := t.nonBasicValues.set j (fin 0)
        inverse := u.inverse }) := by
      have hx : Checked.setAt t.basicValues i (fin 0) = .ok (t.basicValues.set i (fin 0)) :=
        Checked.setAt_eq_ok.mpr ⟨by rw [ht.solvable.state.basic.length]; exact hlt, rfl⟩
      have hy : Checked.setAt t.nonBasicValues j (fin 0) = .ok (t.nonBasicValues.set j (fin 0)) :=
        Checked.setAt_eq_ok.mpr ⟨by rw [ht.solvable.state.nonBasic.length]; exact hr.lt, rfl⟩
      unfold exchangePlaces
      rw [hsplit, hx, hy, hswaps.inverse]
      rfl
    obtain ⟨-, -, hsolvable, -⟩ := exchangePlaces_spec ht.solvable.answering hr.primed hd hplaces
    have hafter := hsolvable ⟨ht.solvable, hr, fun _ =>
      BasisInverse.considers_of_substantial hnum.finite hnum.length hs _⟩
    exact ⟨_, hafter.state, hswaps.matrix.symm, rfl, hafter.unit, hafter.inverse⟩

/-- **A fresh start of an inverse that is that of the basis** leaves it a representation of the same
    matrix. -/
theorem Inverts.finish (h : v.Inverts) (hdue : v.inverse.isDue = true) :
    ∃ f j s, v.finish = .ok { v.clearPlan with inverse := f, journal := j, statistics := s }
      ∧ (∀ g, v.inverse.Twins g → f.Twins g)
      ∧ s.map Statistics.others = v.statistics.map Statistics.others
      ∧ j.notices = v.journal.notices ∧ j.exchanges = v.journal.exchanges := by
  obtain ⟨s, hs, hmatrix, hsplit, hunit, hrep⟩ := h
  -- The representation of the basis it has is refreshed with the columns of that basis.
  obtain ⟨columns, hc, -, -, -⟩ := hs.basisColumns_eq
  have hcolumns : v.clearPlan.basisColumns = .ok columns := by
    rw [← hc]
    unfold State.basisColumns
    rw [hmatrix, hsplit]
    rfl
  unfold Tableau.finish refactorIfDue
  rw [if_pos (show v.clearPlan.inverse.isDue = true from hdue), refactor_eq_refresh, hcolumns]
  cases hf : v.clearPlan.inverse.refresh columns with
  | error cause =>
    simp only [bind, Except.bind, hf]
    exact ⟨v.inverse, _, _, rfl, fun _ hg => hg, rfl, rfl, rfl⟩
  | ok f =>
    simp only [bind, Except.bind, hf]
    refine ⟨f, _, _, rfl, fun g hg => ?_, ?_, rfl, rfl⟩
    · exact ⟨_, _, (represents_of_refresh hs hc hf).2, hg.represents hrep⟩
    · show (v.statistics.map fun s => s.increment .refactorizations).map _ = _
      rw [Option.map_map]
      exact congrArg (fun f => v.statistics.map f) (funext Statistics.others_refreshed)

omit [IsStrictOrderedRing K] in
/-- A twin of an inverse of the basis is one as well. -/
theorem Inverts.of_twins (h : v.Inverts) (hmatrix : w.matrix = v.matrix)
    (hsplit : w.split = v.split) (htwins : v.inverse.Twins w.inverse) : w.Inverts := by
  obtain ⟨s, hs, hm, hp, hunit, hrep⟩ := h
  exact ⟨s, hs, hm.trans hmatrix.symm, hp.trans hsplit.symm, hunit, htwins.represents hrep⟩

/-! ## §4.  Two tableaux side by side -/

/-- **The end of a pivot.**  An inverse that starts over alone has to be that of the basis. -/
theorem Alike.finish_of_inverts (h : Alike (.represented K) v w) (hv : v.matrix.Over (.finite K))
    (hinverts : v.inverse.isDue ≠ w.inverse.isDue → v.Inverts) :
    Agree (Alike (.represented K)) v.finish w.finish := by
  by_cases hdue : w.inverse.isDue = v.inverse.isDue
  -- Only one of both refreshes: what it gets is a twin of what the other keeps.
  · exact h.finish hv hdue
  have hone := hinverts (Ne.symm hdue)
  have htwins : v.inverse.Twins w.inverse := h.inverse
  have hother : w.Inverts := hone.of_twins (by rw [h.same]) (by rw [h.same]) htwins
  have hclear := h.clearPlan
  cases hd : v.inverse.isDue with
  | true =>
    obtain ⟨f, j, s, hfinish, hf, hs, hnotices, hexchanges⟩ := hone.finish hd
    rw [hfinish, finish_of_not_due (by simpa [hd] using hdue)]
    refine .ok ⟨?_, hf _ htwins, hs.trans h.statistics, ?_⟩
    · rw [hclear.same]
    · obtain ⟨⟨told, ht, hu⟩, ⟨records, he, hr⟩⟩ := h.journal
      exact ⟨⟨told, hnotices.trans ht, hu⟩, ⟨records, hexchanges.trans he, hr⟩⟩
  | false =>
    obtain ⟨f, j, s, hfinish, hf, hs, hnotices, hexchanges⟩ :=
      hother.finish (by simpa [hd] using hdue)
    rw [hfinish, finish_of_not_due hd]
    refine .ok ⟨?_, (hf _ htwins.symm).symm, h.statistics.trans hs.symm, ?_⟩
    · rw [hclear.same]
    · obtain ⟨⟨told, ht, hu⟩, ⟨records, he, hr⟩⟩ := h.journal
      exact ⟨⟨told, ht, hnotices.trans hu⟩, ⟨records, he, hexchanges.trans hr⟩⟩

/-- All numbers are those of the field, and the change column has no entry so small that a form of
    the inverse may drop it. -/
structure Precise (t : Tableau (Extended K)) : Prop where
  numbers : t.Over (.finite K)
  substantial : Substantial t.plan.column

instance (t : Tableau (Extended K)) : Decidable t.Precise :=
  decidable_of_iff (t.Over (.finite K) ∧ Substantial t.plan.column)
    ⟨fun h => ⟨h.1, h.2⟩, fun h => ⟨h.1, h.2⟩⟩

/-- What a request to two tableaux has to respect: the arithmetic is exact, and a pivot that makes
    one inverse alone due for a fresh start fits the basis. -/
structure Allowed (t u : Tableau (Extended K)) (r : Request (Extended K)) : Prop where
  precise : t.Precise
  brings : r.Over (.finite K)
  fits : r = .perform .performPivot ∨ r = .perform .performDegenerate →
    t.dueAfterPivot ≠ u.dueAfterPivot → t.PivotFits

/-- Two new tableaux, with inverses of any forms and thresholds, after the same requests. -/
inductive Parallel : Tableau (Extended K) → Tableau (Extended K) → Prop
  | created (settings : Settings (Extended K)) {f g : BasisInverse (Extended K)} (first : f.IsNew)
      (second : g.IsNew) : Parallel (withInverse settings f) (withInverse settings g)
  | served {t u t' u' : Tableau (Extended K)} {r : Request (Extended K)}
      {reply reply' : Reply (Extended K)} (before : Parallel t u) (allowed : Allowed t u r)
      (first : t.serve r = .ok (reply, t')) (second : u.serve r = .ok (reply', u')) :
      Parallel t' u'

/-- The second tableau is the first one, but for the representation of the inverse, the log, and the
    number of fresh starts. -/
structure Indistinct (t u : Tableau (Extended K)) : Prop where
  same : u = { t with inverse := u.inverse, journal := u.journal, statistics := u.statistics }
  inverse : t.inverse.Twins u.inverse
  notices : u.journal.notices = t.journal.notices
  exchanges : u.journal.exchanges = t.journal.exchanges
  counters : ∀ c ≠ .refactorizations, u.statistics.map (·.get c) = t.statistics.map (·.get c)

omit [IsStrictOrderedRing K] in
/-- If only one of both is due after a pivot, the inverse is one of the new basis. -/
theorem Alike.inverts_of_turns (hturns : Turns t v) (hturns' : Turns u w)
    (hs : Substantial t.plan.column) (hfits : t.dueAfterPivot ≠ u.dueAfterPivot → t.PivotFits) :
    v.inverse.isDue ≠ w.inverse.isDue → v.Inverts := fun hdue =>
  (hfits (by rwa [hturns.isDue, hturns'.isDue] at hdue)).inverts hs hturns

/-- **One request** to tableaux that are alike. -/
theorem Alike.serve_of_allowed {r : Request (Extended K)} (h : Alike (.represented K) t u)
    (ha : Allowed t u r) : Agree (AlikeWith (.represented K)) (t.serve r) (u.serve r) := by
  refine h.serve r fun op hop => ?_
  subst hop
  refine h.perform ha.precise.numbers ha.brings (fun _ _ => ha.precise.substantial) ?_ ?_
  · rintro rfl v w hv hw hvw
    refine hvw.finish_of_inverts ?_ (Alike.inverts_of_turns (turns_of_turn hv) (turns_of_turn hw)
      ha.precise.substantial (ha.fits (.inl rfl)))
    exact (turns_of_turn hv).matrix ▸ ha.precise.numbers.matrix
  · rintro rfl v w hv hw hvw
    refine hvw.finish_of_inverts ?_ (Alike.inverts_of_turns (turns_of_turnDegenerate hv)
      (turns_of_turnDegenerate hw) ha.precise.substantial (ha.fits (.inr rfl)))
    exact (turns_of_turnDegenerate hv).matrix ▸ ha.precise.numbers.matrix

/-- Parallel runs are alike up to twins. -/
theorem Parallel.alike (h : Parallel t u) : Alike (.represented K) t u := by
  induction h with
  | created settings first second =>
    exact ⟨rfl, BasisInverse.twins_of_isNew first second, rfl, .refl _ _⟩
  | served _ allowed first second ih =>
    have hserve := ih.serve_of_allowed allowed
    rw [first, second] at hserve
    exact (Agree.ok_iff.mp hserve).2

/-- What is alike cannot be told apart by what is shown. -/
theorem Alike.indistinct (h : Alike (.represented K) t u) :
    Indistinct t u where
  same := h.same
  inverse := h.inverse
  notices := by
    obtain ⟨told, ht, hu⟩ := h.journal.notices
    rw [ht, hu]
    rfl
  exchanges := by
    obtain ⟨records, ht, hu⟩ := h.journal.exchanges
    rw [ht, hu]
    rfl
  counters := fun c hc => by
    have hstat : t.statistics.map Statistics.others = u.statistics.map Statistics.others :=
      h.statistics
    cases ht : t.statistics with
    | none => cases hu : u.statistics with
      | none => rfl
      | some s' => simp [ht, hu] at hstat
    | some s => cases hu : u.statistics with
      | none => simp [ht, hu] at hstat
      | some s' =>
        rw [ht, hu] at hstat
        exact congrArg some (Statistics.get_eq_of_others (Option.some.inj hstat) hc).symm

/-- **A conversation** of requests that are allowed. -/
theorem Parallel.converse (h : Parallel t u) {requests : List (Request (Extended K))}
    (allowed : ∀ p r q, requests = p ++ r :: q → ∀ a b, t.converse p = .ok a →
        u.converse p = .ok b →
      Allowed a.2 b.2 r) :
    Agree (fun p q => p.1 = q.1 ∧ Parallel p.2 q.2) (t.converse requests)
    (u.converse requests) := by
  induction requests generalizing t u with
  | nil => exact .ok ⟨rfl, h⟩
  | cons r rs ih =>
    -- The first request is allowed, and after it both are parallel again.
    have hfirst : Allowed t u r := allowed [] r rs rfl ([], t) ([], u) rfl rfl
    refine (h.alike.serve_of_allowed hfirst).bind fun a b ha hb hab => ?_
    have hrest := ih (h.served hfirst ha hb) fun p r' q hsplit c d hc hd => by
      exact allowed (r :: p) r' q (by rw [hsplit]; rfl) (a.1 :: c.1, c.2) (b.1 :: d.1, d.2)
        (converse_cons ha hc) (converse_cons hb hd)
    exact hrest.bind fun c d _ _ hcd => .ok ⟨by rw [hab.1, hcd.1], hcd.2⟩

/-- **The form of the inverse and its age cannot be seen.**  Two new tableaux whose inverses differ
    in form and threshold are asked for the same.  Nothing but the representation of the inverse,
    the log and the number of fresh starts ever differs, and the next request that is allowed has
    the same reply on both, or breaks the same contract. -/
theorem indistinct_of_parallel (h : Parallel t u) :
    Indistinct t u ∧ ∀ r, Allowed t u r →
      Agree (fun p q => p.1 = q.1 ∧ Indistinct p.2 q.2) (t.serve r) (u.serve r) :=
  ⟨h.alike.indistinct, fun _ ha =>
    (h.alike.serve_of_allowed ha).mono fun _ _ hpq => ⟨hpq.1, hpq.2.indistinct⟩⟩

/-- One equation in two variables with bounds. -/
def pairSetup : List (Operation (Extended ℚ)) :=
  [.setSize 1 2, .setCoefficients [1, fin 2], .setRightHandSide [fin 10], .setLower 0 0,
    .setUpper 0 (fin 10), .setLower 1 0, .setUpper 1 (fin 20)]

/-- The selection of an exchange of the two variables. -/
def pairPivot : List (Operation (Extended ℚ)) :=
  [.selectEntering 0, .selectLeaving 0, .setDistance (fin 2), .computeColumn]

/-- A pivot makes the first inverse due for a fresh start, but not the second one, which has another
    form. -/
theorem indistinct_after_lone_refresh : ∃ t u : Tableau (Extended ℚ), Parallel t u
    ∧ t.inverse.exchanges = 0 ∧ u.inverse.exchanges = 1 ∧ t.value 0 = .ok (fin 2)
    ∧ Indistinct t u ∧ ∀ r, Allowed t u r →
      Agree (fun p q => p.1 = q.1 ∧ Indistinct p.2 q.2) (t.serve r) (u.serve r) := by
  let ops : List (Operation (Extended ℚ)) := pairSetup ++ .startFrom [1] :: pairPivot
  have hrun : (do
      let a ← (create (α := Extended ℚ) { refreshThreshold := 1 }).run pairSetup
      let (reply, b) ← a.startFrom [1]
      let t₁ ← b.run pairPivot
      let t ← t₁.performPivot
      Checked.require (reply = Except.ok () ∧ t₁.Precise ∧ t.inverse.exchanges = 0
        ∧ t.value 0 = Except.ok (fin 2)) .inconsistent) = .ok () := by decide +kernel
  have hother : (do
      let u₁ ← (withInverse { refreshThreshold := 1 } (.explicit (.identity 0 100))).run ops
      let u ← u₁.performPivot
      Checked.require (u.inverse.exchanges = 1) .inconsistent) = .ok () := by decide +kernel
  have hprecise : ∀ p ∈ (ops.map Request.perform).inits, (do
      let v ← (create (α := Extended ℚ) { refreshThreshold := 1 }).converse p
      Checked.require v.2.Precise .inconsistent) = .ok () := by decide +kernel
  have hbrings : ∀ r ∈ ops.map Request.perform, r.Over (.finite ℚ)
      ∧ ¬(r = .perform .performPivot ∨ r = .perform .performDegenerate) := by
    simp [ops, pairSetup, pairPivot, Request.Over, Operation.Over]
  obtain ⟨a, ha, hrun⟩ := Checked.bind_eq_ok.mp hrun
  obtain ⟨⟨reply, b⟩, hb, hrun⟩ := Checked.bind_eq_ok.mp hrun
  obtain ⟨t₁, ht₁, hrun⟩ := Checked.bind_eq_ok.mp hrun
  obtain ⟨t, ht, hrun⟩ := Checked.bind_eq_ok.mp hrun
  obtain ⟨rfl, hnow, hyoung, hvalue⟩ := Checked.require_eq_ok.mp hrun
  obtain ⟨u₁, hu₁, hother⟩ := Checked.bind_eq_ok.mp hother
  obtain ⟨u, hu, hother⟩ := Checked.bind_eq_ok.mp hother
  have hage := Checked.require_eq_ok.mp hother
  -- up to the pivot, the requests are allowed whatever the forms and ages
  have hops : (create { refreshThreshold := 1 }).run ops = .ok t₁ := by
    rw [run_append, ha]
    exact run_cons.mpr ⟨.done, b, by rw [perform, hb]; rfl, ht₁⟩
  obtain ⟨replies, ht₀⟩ := converse_of_run hops
  obtain ⟨replies', hu₀⟩ := converse_of_run hu₁
  have hnew : Parallel (create (α := Extended ℚ) { refreshThreshold := 1 })
      (withInverse { refreshThreshold := 1 } (.explicit (.identity 0 100))) :=
    .created _ ⟨1, .inl rfl⟩ ⟨100, .inr rfl⟩
  have hrequests (w : List (Reply (Extended ℚ)) × Tableau (Extended ℚ)) : ∀ p r q,
      ops.map Request.perform = p ++ r :: q → ∀ v,
        converse (create { refreshThreshold := 1 }) p = .ok v → Allowed v.2 w.2 r := by
    intro p r q hsplit v hv
    obtain ⟨v', hv', hp⟩ := Checked.bind_eq_ok.mp
      (hprecise p ((List.mem_inits p _).mpr ⟨r :: q, hsplit.symm⟩))
    obtain rfl := Except.ok.inj (hv'.symm.trans hv)
    obtain ⟨hover, hplain⟩ := hbrings r (by rw [hsplit]; simp)
    exact ⟨Checked.require_eq_ok.mp hp, hover, fun h => absurd h hplain⟩
  have hagree := hnew.converse fun p r q hsplit v w hv _ => hrequests w p r q hsplit v hv
  rw [ht₀, hu₀] at hagree
  have hbefore : Parallel t₁ u₁ := (Agree.ok_iff.mp hagree).2
  -- the pivot comes upon the inverse of the basis and the column of the entering variable
  have hconf : a.Configured := (Configured.created _).run (by decide +kernel) ha
  have hsolvable : b.Solvable := (startFrom_spec hconf.prepared hb).sound.toSolvable
  have hfits : t₁.PivotFits := by
    obtain ⟨_, c, hc, hselect⟩ := run_cons.mp ht₁
    obtain ⟨_, d, hd, hselect⟩ := run_cons.mp hselect
    obtain ⟨_, e, he, hselect⟩ := run_cons.mp hselect
    obtain ⟨_, f, hf, hselect⟩ := run_cons.mp hselect
    cases hselect
    obtain ⟨-, rfl⟩ := selectEntering_spec (of_replyDone hc)
    obtain ⟨-, rfl⟩ := selectLeaving_spec (of_replyDone hd)
    obtain ⟨_, -, he⟩ := Checked.bind_eq_ok.mp (of_replyDone he)
    cases he
    have hplanned : Solvable { b with plan := { b.plan with
        entering := some 0
        leaving := some (.basic 0)
        distance := fin 2 } } := ⟨hsolvable.state, hsolvable.unit, hsolvable.inverse⟩
    obtain ⟨column, j, rfl, -, hready⟩ := computeColumn_spec hplanned.answering (of_replyDone hf)
    exact ⟨⟨hsolvable.state, hsolvable.unit, hsolvable.inverse⟩, fun _ _ => ⟨j, hready hplanned⟩⟩
  have hallowed : Allowed t₁ u₁ (.perform .performPivot) := ⟨hnow, trivial, fun _ _ => hfits⟩
  have hserve : t₁.serve (.perform .performPivot) = .ok (.done, t) := by
    rw [serve, perform, ht]
    rfl
  have hserve' : u₁.serve (.perform .performPivot) = .ok (.done, u) := by
    rw [serve, perform, hu]
    rfl
  have hafter : Parallel t u := hbefore.served hallowed hserve hserve'
  exact ⟨t, u, hafter, hyoung, hage, hvalue, indistinct_of_parallel hafter⟩

/-- A setup, and a pivot with a change column that is twice the true one. -/
def ownColumn : List (Request (Extended ℚ)) :=
  [.perform (.setSize 1 2), .perform (.setCoefficients [1, 1]),
    .perform (.setRightHandSide [fin 10]), .perform (.setLower 0 0),
    .perform (.setUpper 0 (fin 10)), .perform (.setLower 1 0), .perform (.setUpper 1 (fin 20)),
    .perform (.startFrom [1]), .perform (.selectEntering 0), .perform (.setColumn [fin 2]),
    .perform (.selectLeaving 0), .perform (.setDistance 0), .perform .performPivot,
    .perform .computeValues]

/-- **A provided change column that is not the true one shows.**  It turns the inverse into that of
    no basis; only a fresh start undoes that. -/
theorem refresh_seen_after_own_column :
    ∃ t u, BasisInverse.IsNew (K := ℚ) (.product (.identity 0 1))
    ∧ BasisInverse.IsNew (K := ℚ) (.product (.identity 0 100))
    ∧ (∀ r ∈ ownColumn, r.Over (.finite ℚ))
    ∧ (∀ p ∈ ownColumn.inits, ∃ v v',
        (withInverse {} (.product (.identity 0 1))).converse p = .ok v ∧ v.2.Precise
          ∧ (withInverse {} (.product (.identity 0 100))).converse p = .ok v' ∧ v'.2.Precise)
    ∧ (withInverse {} (.product (.identity 0 1))).converse ownColumn = .ok t
    ∧ (withInverse {} (.product (.identity 0 100))).converse ownColumn = .ok u
    ∧ t.2.value 0 = .ok (fin 10) ∧ u.2.value 0 = .ok (fin 5) := by
  -- Both runs are exact at every prefix; only the ends differ.
  have hprefixes : ∀ p ∈ ownColumn.inits, (do
      let v ← (withInverse {} (.product (.identity 0 1))).converse p
      let v' ← (withInverse {} (.product (.identity 0 100))).converse p
      Checked.require (v.2.Precise ∧ v'.2.Precise) .inconsistent) = .ok () := by
    decide +kernel
  have hends : (do
      let t ← (withInverse {} (.product (.identity 0 1))).converse ownColumn
      let u ← (withInverse {} (.product (.identity 0 100))).converse ownColumn
      Checked.require (t.2.value 0 = Except.ok (fin (10 : ℚ)) ∧ u.2.value 0 = Except.ok (fin 5))
        .inconsistent) = .ok () := by
    decide +kernel
  obtain ⟨t, ht, hends⟩ := Checked.bind_eq_ok.mp hends
  obtain ⟨u, hu, hends⟩ := Checked.bind_eq_ok.mp hends
  obtain ⟨hvalue, hvalue'⟩ := Checked.require_eq_ok.mp hends
  refine ⟨t, u, ⟨1, .inl rfl⟩, ⟨100, .inl rfl⟩, ?_, fun p hp => ?_, ht, hu, hvalue, hvalue'⟩
  · simp [ownColumn, Request.Over, Operation.Over]
  · obtain ⟨v, hv, h⟩ := Checked.bind_eq_ok.mp (hprefixes p hp)
    obtain ⟨v', hv', h⟩ := Checked.bind_eq_ok.mp h
    obtain ⟨hprecise, hprecise'⟩ := Checked.require_eq_ok.mp h
    exact ⟨v, v', hv, hprecise, hv', hprecise'⟩

end Tableau

end BoundedSimplex
