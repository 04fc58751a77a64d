/-
  BoundedSimplex.Proofs.Mirror — a picture of a tableau that is kept by listening.

  A watcher of all variables writes down every value and every bound that it is told, over what it
  wrote before.  An operation reports itself if that keeps the picture right: whatever changed was
  told, and what was told last is what is there in the end.

  Main results:
    * `Reports.trans` — operations that report themselves, one after the other;
    * `Reports.of_sight` — an operation that changes nothing that is watched;
    * `reports_values` — values that were told after they changed.
-/
import BoundedSimplex.Proofs.Merges
import BoundedSimplex.Proofs.Tableau.Shape

namespace BoundedSimplex

variable {α : Type}

/-! ## §1.  Notices and those who are told -/

/-- The notice is about the variable. -/
def Notice.isAbout (v : Nat) : Notice α → Bool
  | .value w _ | .lower w _ | .upper w _ => w == v
  | .resize _ _ => false

namespace Watchers

/-- Those who are told a notice. -/
def audience (w : Watchers) : Notice α → List Watcher
  | .value v _ | .lower v _ | .upper v _ => w.of v
  | .resize _ _ => w.dimensions

/-- Every notice is told to its audience. -/
def deliver (w : Watchers) (notices : List (Notice α)) : List (Watcher × Notice α) :=
  notices.flatMap fun n => (w.audience n).map fun name => (name, n)

/-- Deliveries are made in the order of the notices. -/
theorem deliver_append (w : Watchers) (ns ns' : List (Notice α)) :
    w.deliver (ns ++ ns') = w.deliver ns ++ w.deliver ns' := List.flatMap_append

/-- One notice is delivered to its audience. -/
theorem deliver_singleton (w : Watchers) (n : Notice α) :
    w.deliver [n] = (w.audience n).map fun name => (name, n) := List.flatMap_singleton _ _

end Watchers

/-! ## §2.  Mirrors -/

/-- What a watcher wrote down. -/
structure Mirror (α : Type) where
  value : Nat → α
  lower : Nat → α
  upper : Nat → α

namespace Mirror

/-- A notice is written over what was there before. -/
def hear (m : Mirror α) : Notice α → Mirror α
  | .value v x => { m with value := Function.update m.value v x }
  | .lower v x => { m with lower := Function.update m.lower v x }
  | .upper v x => { m with upper := Function.update m.upper v x }
  | .resize _ _ => m

/-- Notices in their order. -/
def hearAll (m : Mirror α) (notices : List (Notice α)) : Mirror α := notices.foldl hear m

/-- Hearing two journals one after the other. -/
theorem hearAll_append (m : Mirror α) (ns ns' : List (Notice α)) :
    m.hearAll (ns ++ ns') = (m.hearAll ns).hearAll ns' := List.foldl_append

/-- Values say nothing about bounds. -/
theorem hearAll_values (m : Mirror α) (ps : List (Nat × α)) :
    (m.hearAll (ps.map fun p => .value p.1 p.2)).lower = m.lower
      ∧ (m.hearAll (ps.map fun p => .value p.1 p.2)).upper = m.upper := by
  induction ps generalizing m with
  | nil => exact ⟨rfl, rfl⟩
  | cons p ps ih => exact ih (m.hear (.value p.1 p.2))

/-- Values that are told as they are, and were known as they are unless they were told. -/
theorem value_hearAll_values {held : Nat → α} {v : Nat} (m : Mirror α) (ps : List (Nat × α))
    (told : ∀ p ∈ ps, p.1 = v → held v = p.2) (known : (∀ p ∈ ps, p.1 ≠ v) → m.value v = held v) :
    (m.hearAll (ps.map fun p => .value p.1 p.2)).value v = held v := by
  induction ps generalizing m with
  | nil => exact known fun p hp => absurd hp List.not_mem_nil
  | cons p ps ih =>
    refine ih (m.hear (.value p.1 p.2)) (fun q hq => told q (List.mem_cons_of_mem _ hq))
      fun hrest => ?_
    by_cases hp : p.1 = v
    · subst hp
      rw [told p List.mem_cons_self rfl]
      exact Function.update_self ..
    -- A notice about another variable does not count.
    · have hkept : (m.hear (.value p.1 p.2)).value v = m.value v :=
        Function.update_of_ne (Ne.symm hp) ..
      rw [hkept]
      refine known fun q hq => ?_
      rcases List.mem_cons.mp hq with rfl | hq
      · exact hp
      · exact hrest q hq

end Mirror

/-! ## §3.  Pictures -/

variable [Scalar α]

namespace State

/-- The value stored for a variable that has one. -/
def held (s : State α) (v : Nat) : α :=
  if s.split.isBasic v then s.basicValues.getD (s.split.place v) 0
  else s.nonBasicValues.getD (s.split.place v) 0

variable {s : State α} {m n : Nat}

/-- A basic variable is held at its value in the basis. -/
theorem held_basicVar (h : s.split.WellFormed m n) {i : Nat} (hi : i < m) :
    s.held (s.split.basicVar i) = s.basicValues.getD i 0 := by
  rw [held, if_pos (h.isBasic_basicVar hi), h.place_basicVar hi]

/-- A non-basic variable is held at its recorded value. -/
theorem held_nonBasicVar (h : s.split.WellFormed m n) {j : Nat} (hj : j < n - m) :
    s.held (s.split.nonBasicVar j) = s.nonBasicValues.getD j 0 := by
  rw [held, if_neg (by rw [h.isBasic_nonBasicVar hj]; exact Bool.false_ne_true),
    h.place_nonBasicVar hj]

end State

/-- The mirror shows every value and every bound. -/
structure Mirror.Pictures (m : Mirror α) (s : State α) : Prop where
  value : ∀ v < s.varCount, m.value v = s.held v
  lower : ∀ v < s.varCount, m.lower v = s.bounds.lowers.getD v 0
  upper : ∀ v < s.varCount, m.upper v = s.bounds.uppers.getD v 0

/-- A mirror that was filled in at once. -/
def State.mirror (s : State α) : Mirror α :=
  ⟨s.held, fun v => s.bounds.lowers.getD v 0, fun v => s.bounds.uppers.getD v 0⟩

/-- The mirror of a state is a picture of it. -/
theorem State.pictures_mirror (s : State α) : s.mirror.Pictures s :=
  ⟨fun _ _ => rfl, fun _ _ => rfl, fun _ _ => rfl⟩

namespace Tableau

variable {t u w : Tableau α}

/-- Everything that watchers are told about, with what they were told and what it depends on. -/
def sight (t : Tableau α) :
    (Watchers × List (Watcher × Notice α)) × (BasisSplit × List α × List α) × (List α × List α)
      × (Nat × Merges × Bool) :=
  ((t.watchers, t.journal.notices), (t.split, t.basicValues, t.nonBasicValues),
    (t.bounds.lowers, t.bounds.uppers), (t.varCount, t.merges, t.hasBasis))

/-- The notices of an operation, which keep pictures right.  A variable that was
    merged stays merged. -/
structure Told (notices : List (Notice α)) (t u : Tableau α) : Prop where
  watchers : u.watchers = t.watchers
  basis : u.hasBasis = t.hasBasis
  merged : ∀ v, u.merges.Stands v → t.merges.Stands v
  delivered : u.journal.notices = t.journal.notices ++ t.watchers.deliver notices
  pictures : ∀ m : Mirror α, m.Pictures t.toState → (m.hearAll notices).Pictures u.toState

/-- An operation that reports itself. -/
def Reports (t u : Tableau α) : Prop := ∃ notices, Told notices t u

/-- Reports of two steps in a row are reports of both. -/
theorem Reports.trans (h : Reports t u) (h' : Reports u w) : Reports t w := by
  obtain ⟨ns, hw, hb, hg, hn, hp⟩ := h
  obtain ⟨ns', hw', hb', hg', hn', hp'⟩ := h'
  refine ⟨ns ++ ns', hw'.trans hw, hb'.trans hb, fun v hv => hg v (hg' v hv), ?_, fun m hm => ?_⟩
  · rw [hn', hn, hw, Watchers.deliver_append, List.append_assoc]
  · rw [Mirror.hearAll_append]
    exact hp' _ (hp m hm)

/-- The basis is set only where this was reported. -/
theorem Reports.basis (h : Reports t u) : u.hasBasis = t.hasBasis := by
  obtain ⟨_, h⟩ := h
  exact h.basis

/-- **Nothing that is watched changes.** -/
theorem Reports.of_sight (h : u.sight = t.sight) : Reports t u := by
  simp only [sight, Prod.mk.injEq] at h
  obtain ⟨⟨hw, hn⟩, ⟨hs, hx, hy⟩, ⟨hl, hu⟩, hv, hg, hb⟩ := h
  refine ⟨[], hw, hb, fun v hv => hg ▸ hv, by rw [hn]; exact (List.append_nil _).symm, fun m hm =>
    ⟨fun v hlt => ?_, fun v hlt => ?_, fun v hlt => ?_⟩⟩
  · rw [State.held, hs, hx, hy]
    exact hm.value v (hv ▸ hlt)
  · rw [hl]
    exact hm.lower v (hv ▸ hlt)
  · rw [hu]
    exact hm.upper v (hv ▸ hlt)

/-- Nothing happened, so nothing has to be reported. -/
theorem Reports.refl (t : Tableau α) : Reports t t := .of_sight rfl

/-- Telling values one after the other is telling all of them. -/
theorem tellValues_notices (t : Tableau α) (ps : List (Nat × α)) :
    (t.tellValues ps).journal.notices
      = t.journal.notices ++ t.watchers.deliver (ps.map fun p => .value p.1 p.2) := by
  unfold Tableau.tellValues
  induction ps generalizing t with
  | nil => exact (List.append_nil _).symm
  | cons p ps ih =>
    rw [List.foldl_cons, ih, List.map_cons]
    show (t.journal.notices ++ (t.watchers.of p.1).map _) ++ t.watchers.deliver _ = _
    rw [List.append_assoc]
    rfl

/-- Watchers, bounds, dimensions and merges stay. -/
structure Framed (t u : Tableau α) : Prop where
  watchers : u.watchers = t.watchers
  basis : u.hasBasis = t.hasBasis
  merges : u.merges = t.merges
  lowers : u.bounds.lowers = t.bounds.lowers
  uppers : u.bounds.uppers = t.bounds.uppers
  vars : u.varCount = t.varCount

/-- What is not seen does not matter to the frame. -/
theorem Framed.of_sight (h : Framed t u) (hw : w.sight = u.sight) : Framed t w := by
  simp only [sight, Prod.mk.injEq] at hw
  obtain ⟨⟨hwatchers, -⟩, -, ⟨hl, hu⟩, hv, hg, hb⟩ := hw
  exact ⟨hwatchers.trans h.watchers, hb.trans h.basis, hg.trans h.merges, hl.trans h.lowers,
    hu.trans h.uppers, hv.trans h.vars⟩

/-- Telling values changes nothing but the journal. -/
theorem Framed.tellValues (h : Framed t u) (ps : List (Nat × α)) : Framed t (u.tellValues ps) := by
  obtain ⟨_, _, hu⟩ := silent_tellValues u ps
  rw [hu]
  exact ⟨h.watchers, h.basis, h.merges, h.lowers, h.uppers, h.vars⟩

/-- A notice about a value does not change the frame. -/
theorem Framed.tellValue (h : Framed t u) (v : Nat) (x : α) : Framed t (u.tellValue v x) :=
  ⟨h.watchers, h.basis, h.merges, h.lowers, h.uppers, h.vars⟩

/-- Values, and nothing else, were told to those who watch them. -/
def TellsValues (t u : Tableau α) (ps : List (Nat × α)) : Prop :=
  u.journal.notices = t.journal.notices ++ t.watchers.deliver (ps.map fun p => .value p.1 p.2)

/-- Without notices no values are told. -/
theorem tellsValues_nil (h : u.journal.notices = t.journal.notices) : TellsValues t u [] :=
  h.trans (List.append_nil _).symm

/-- One more notice about a value. -/
theorem tellsValues_tellValue {ps : List (Nat × α)} (h : TellsValues t u ps)
    (hwatchers : u.watchers = t.watchers) (v : Nat) (x : α) :
    TellsValues t (u.tellValue v x) (ps ++ [(v, x)]) := by
  rw [TellsValues, List.map_append, Watchers.deliver_append, List.map_singleton,
    Watchers.deliver_singleton, ← List.append_assoc]
  show u.journal.notices ++ (u.watchers.of v).map _ = _
  rw [h, hwatchers]
  rfl

/-- A list of notices about values. -/
theorem tellsValues_tellValues (h : u.journal.notices = t.journal.notices)
    (hwatchers : u.watchers = t.watchers) (ps : List (Nat × α)) :
    TellsValues t (u.tellValues ps) ps := by
  rw [TellsValues, tellValues_notices, h, hwatchers]

/-- **Values that were told after they changed.**  Every value told is the one held in the end, and
    every value that was not told is the one held before. -/
theorem reports_values {ps : List (Nat × α)} (hframe : Framed t u) (htells : TellsValues t u ps)
    (told : ∀ p ∈ ps, u.held p.1 = p.2)
    (kept : ∀ v < u.varCount, (∀ p ∈ ps, p.1 ≠ v) → u.held v = t.held v) : Reports t u := by
  refine ⟨_, hframe.watchers, hframe.basis, fun v hv => hframe.merges ▸ hv, htells, fun m hm => ?_⟩
  obtain ⟨hlower, hupper⟩ := m.hearAll_values ps
  refine ⟨fun v hv => ?_, fun v hv => ?_, fun v hv => ?_⟩
  · refine m.value_hearAll_values ps (fun p hp hpv => hpv ▸ told p hp) fun hnot => ?_
    rw [kept v hv hnot]
    exact hm.value v (hframe.vars ▸ hv)
  · rw [hlower, hframe.lowers]
    exact hm.lower v (hframe.vars ▸ hv)
  · rw [hupper, hframe.uppers]
    exact hm.upper v (hframe.vars ▸ hv)

end Tableau

end BoundedSimplex
