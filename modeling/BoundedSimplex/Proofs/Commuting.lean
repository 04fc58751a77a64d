/-
  BoundedSimplex.Proofs.Commuting — the order in which variables are moved and bounds are tightened.

  A sound tableau is determined by its bounds, by the values of the non-basic variables and by how
  far it is from the equations: the basic values are the only solution, and the standings are
  theirs.  So moves of distinct variables may be made in any order, with the basic variables
  following each of them or computed once at the end, and bounds of distinct variables may be
  tightened in any order.

  Whoever prices is told of a new bound iff it disturbs the assignment.  A bound that does not
  disturb it leaves it alone, so that the next one disturbs it iff it did so before.

  Main results:
    * `Reassigned.determined` — what determines a sound tableau;
    * `exists_moved`, `exists_tightenedAll` — what runs of moves and of tighter bounds lead to;
    * `moves_and_bounds_commute` — the order is immaterial.
-/
import BoundedSimplex.Proofs.Consistent
import BoundedSimplex.Proofs.Home
import BoundedSimplex.Proofs.Roles
import BoundedSimplex.Proofs.Tableau.Following
import BoundedSimplex.Proofs.Tableau.Progress

namespace BoundedSimplex

open Extended Matrix Tableau

variable {K : Type} [Field K] [LinearOrder K]

/-! ## §1.  What determines a tableau -/

/-- Bounds with an exact record are given by their numbers. -/
theorem Bounds.Shaped.ext {n : Nat} {b c : Bounds (Extended K)} (hb : b.Shaped n) (hc : c.Shaped n)
    (h : ∀ side v, v < n → Side.bound side b v = Side.bound side c v) : b = c := by
  have hproper : ¬(Scalar.infinity : Extended K) < -Scalar.infinity := Bool.false_ne_true
  have hlowers : b.lowers = c.lowers := by
    refine List.ext_getElem (hb.lowers.trans hc.lowers.symm) fun v hv hv' => ?_
    simpa [Side.bound, Bounds.lowerOf, List.getD_eq_getElem?_getD, hv, hv']
      using h .lower v (hb.lowers ▸ hv)
  have huppers : b.uppers = c.uppers := by
    refine List.ext_getElem (hb.uppers.trans hc.uppers.symm) fun v hv hv' => ?_
    simpa [Side.bound, Bounds.upperOf, List.getD_eq_getElem?_getD, hv, hv']
      using h .upper v (hb.uppers ▸ hv)
  have hrecord : b.contradictory = c.contradictory := by
    refine IndexSet.ext_contains fun v => Bool.eq_iff_iff.mpr ?_
    rw [hb.exact hproper, hc.exact hproper, hlowers, huppers]
  obtain ⟨_, _, _⟩ := b
  obtain ⟨_, _, _⟩ := c
  cases hlowers
  cases huppers
  cases hrecord
  rfl

/-- The tableau `u` is sound and in shape, and differs from `t` in bounds, values,
    standings and prices only. -/
structure Reassigned (t u : Tableau (Extended K)) : Prop where
  sound : u.Sound
  shaped : u.Shaped False t.settings
  matrix : u.matrix = t.matrix
  rightHandSide : u.rightHandSide = t.rightHandSide
  split : u.split = t.split
  merges : u.merges = t.merges

namespace Reassigned

variable {t u w : Tableau (Extended K)}

/-- Nothing changed. -/
theorem refl (ht : t.Shaped False t.settings) (hs : t.Sound) : Reassigned t t :=
  ⟨hs, ht, rfl, rfl, rfl, rfl⟩

theorem settings (h : Reassigned t u) : u.settings = t.settings := h.shaped.settings

theorem rowCount (h : Reassigned t u) : u.rowCount = t.rowCount := by
  rw [State.rowCount, h.matrix, State.rowCount]

theorem varCount (h : Reassigned t u) : u.varCount = t.varCount := by
  rw [State.varCount, h.matrix, State.varCount]

theorem nonBasicCount (h : Reassigned t u) : u.nonBasicCount = t.nonBasicCount := by
  rw [State.nonBasicCount, h.varCount, h.rowCount, State.nonBasicCount]

/-- One change after the other. -/
theorem trans (h : Reassigned t u) (h' : Reassigned u w) : Reassigned t w where
  sound := h'.sound
  shaped := h.settings ▸ h'.shaped
  matrix := h'.matrix.trans h.matrix
  rightHandSide := h'.rightHandSide.trans h.rightHandSide
  split := h'.split.trans h.split
  merges := h'.merges.trans h.merges

/-- The value of a non-basic variable is where it was. -/
theorem stored_nonBasic (h : Reassigned t u) {v : Nat} (hb : t.split.isBasic v = false) :
    u.toState.stored v = coord u.nonBasicValues (t.split.place v) := by
  rw [State.stored, h.split, if_neg (by rw [hb]; exact Bool.false_ne_true)]

/-- The values of the non-basic variables determine the list of them. -/
theorem nonBasicValues_eq (h : Reassigned t u) (h' : Reassigned t w)
    (hvalues : ∀ v < t.varCount, t.split.isBasic v = false →
        u.toState.stored v = w.toState.stored v) :
    u.nonBasicValues = w.nonBasicValues := by
  have hnon := h.sound.state.nonBasic
  have hnon' := h'.sound.state.nonBasic
  rw [h.nonBasicCount] at hnon
  rw [h'.nonBasicCount] at hnon'
  have hsplit : t.split.WellFormed t.rowCount t.varCount := by
    rw [← h.rowCount, ← h.varCount, ← h.split]
    exact h.sound.state.split
  refine hnon.ext hnon' fun j hj => ?_
  have hvalue := hvalues _ (hsplit.nonBasicVar_lt hj) (hsplit.isBasic_nonBasicVar hj)
  rwa [h.stored_nonBasic (hsplit.isBasic_nonBasicVar hj),
    h'.stored_nonBasic (hsplit.isBasic_nonBasicVar hj), hsplit.place_nonBasicVar hj] at hvalue

/-- The residual of a row after a change, from the values. -/
theorem residual_eq (h : Reassigned t u) (i : Nat) : u.toState.residual i
    = ∑ k ∈ Finset.range t.rowCount, t.matrix.coeff i (t.split.basicVar k) * coord u.basicValues k
      + ∑ j ∈ Finset.range t.nonBasicCount,
          t.matrix.coeff i (t.split.nonBasicVar j) * coord u.nonBasicValues j
      - coord t.rightHandSide i := by
  rw [h.sound.state.residual_eq, h.rowCount, h.nonBasicCount, h.matrix, h.split, h.rightHandSide]

/-- **Equal residuals** leave no choice for the basic values. -/
theorem basicValues_eq (h : Reassigned t u) (h' : Reassigned t w)
    (hnon : u.nonBasicValues = w.nonBasicValues)
    (hres : ∀ i < t.rowCount, u.toState.residual i = w.toState.residual i) :
    u.basicValues = w.basicValues := by
  have hbasic := h.sound.state.basic
  have hbasic' := h'.sound.state.basic
  rw [h'.rowCount, ← h.rowCount] at hbasic'
  have hsame (i : Nat) (hi : i < t.rowCount) :
      ∑ k ∈ Finset.range t.rowCount, t.matrix.coeff i (t.split.basicVar k) * coord u.basicValues k
        = ∑ k ∈ Finset.range t.rowCount,
          t.matrix.coeff i (t.split.basicVar k) * coord w.basicValues k := by
    have heq := hres i hi
    rwa [h.residual_eq, h'.residual_eq, hnon, sub_left_inj, add_left_inj] at heq
  -- the basis maps both lists to the same left-hand sides
  have hmul : u.toState.basis *ᵥ (fun k : Fin u.rowCount => coord u.basicValues k)
      = u.toState.basis *ᵥ fun k : Fin u.rowCount => coord w.basicValues k := by
    funext i
    have heq := hsame i (h.rowCount ▸ i.isLt)
    rw [← h.rowCount, ← h.matrix, ← h.split, Finset.sum_range, Finset.sum_range] at heq
    exact heq
  refine hbasic.ext hbasic' fun k hk => ?_
  exact congrFun (mulVec_injective_of_isUnit h.sound.unit hmul) ⟨k, hk⟩

/-- **A sound tableau is determined** by its bounds, by the values of the non-basic variables, by
    how far it is from the equations and by what it claims. -/
theorem determined (h : Reassigned t u) (h' : Reassigned t w) (hbounds : u.bounds = w.bounds)
    (hnon : u.nonBasicValues = w.nonBasicValues) (hsettled : u.settled = w.settled)
    (hres : ∀ i < t.rowCount, u.toState.residual i = w.toState.residual i) :
    u.toState = w.toState := by
  have hbasic := h.basicValues_eq h' hnon hres
  have hstandings : u.standings = w.standings := by
    rw [h.sound.standings, h'.sound.standings, h.rowCount, h'.rowCount, h.settings, h'.settings]
    refine List.map_congr_left fun i _ => ?_
    rw [State.standing, State.standing, hbasic, hbounds, h.split, h'.split]
  refine State.mk.injEq .. ▸ ⟨?_, ?_, hbounds, ?_, hbasic, hnon, hstandings, hsettled, ?_⟩
  · rw [h.matrix, h'.matrix]
  · rw [h.rightHandSide, h'.rightHandSide]
  · rw [h.split, h'.split]
  · rw [h.merges, h'.merges]

end Reassigned

/-! ## §2.  Moves -/

/-- The move of a variable to a value, which the basic variables follow or not. -/
def moveOf (follow : Bool) (p : Nat × K) : Operation (Extended K) :=
  .moveNonBasic p.1 (fin p.2) follow

/-- What moves lead to: the variables have the values asked for, and the others the ones that they
    had.  If the basic variables followed, the equations hold as well as before. -/
structure Moved (follow : Bool) (moves : List (Nat × K)) (t u : Tableau (Extended K)) : Prop
    extends Reassigned t u where
  bounds : u.bounds = t.bounds
  taken : ∀ p ∈ moves, u.toState.stored p.1 = p.2
  kept : ∀ v < t.varCount, t.split.isBasic v = false → (∀ p ∈ moves, p.1 ≠ v) →
    u.toState.stored v = t.toState.stored v
  residual : follow = true →
    u.settled = t.settled ∧ ∀ i < t.rowCount, u.toState.residual i = t.toState.residual i

section Moves

variable {t u w : Tableau (Extended K)} {follow : Bool} {moves order : List (Nat × K)} {p : Nat × K}

/-- The stored values of non-basic variables after the value of one of them was replaced. -/
theorem stored_of_set (ht : t.toState.WellFormed) {v : Nat} (hv : v < t.varCount)
    (hb : t.split.isBasic v = false) {x : K} {s : State (Extended K)} (hsplit : s.split = t.split)
    (hs : s.nonBasicValues = t.nonBasicValues.set (t.split.place v) (fin x)) :
    s.stored v = x ∧ ∀ l < t.varCount, t.split.isBasic l = false → v ≠ l →
      s.stored l = t.toState.stored l := by
  have hstored (l : Nat) (hl : t.split.isBasic l = false) :
      s.stored l = if t.split.place l = t.split.place v then x
        else coord t.nonBasicValues (t.split.place l) := by
    rw [State.stored, hsplit, if_neg (by rw [hl]; exact Bool.false_ne_true), hs,
      coord_set_place ht hv hb]
  constructor
  · rw [hstored v hb, if_pos rfl]
  · intro l hl hlb hne
    rw [hstored l hlb, if_neg, State.stored, if_neg (by rw [hlb]; exact Bool.false_ne_true)]
    intro hplace
    -- a place is that of one variable
    have hv' := (ht.split.of_not_isBasic hv hb).2
    rw [← hplace, (ht.split.of_not_isBasic hl hlb).2] at hv'
    exact hne hv'.symm

/-- **One move.** -/
theorem moved_of_moveNonBasic (ht : t.Shaped False t.settings) (hs : t.Sound)
    (h : t.moveNonBasic p.1 (fin p.2) follow = .ok u) : Moved follow [p] t u := by
  have hshaped : u.Shaped False t.settings := by
    obtain ⟨w, hw, rfl⟩ := moveNonBasic_moves ht.state h
    exact (hw.shaped ht).invalidate
  cases follow with
  | true =>
    obtain ⟨hv, hb, xs, ss, ⟨_, _, hu⟩, hsound, hres⟩ := hs.moveNonBasic_follow h
    obtain ⟨htaken, hkept⟩ :=
      stored_of_set (s := u.toState) hs.state hv hb (by rw [hu]) (by rw [hu])
    exact ⟨⟨hsound, hshaped, by rw [hu], by rw [hu], by rw [hu], by rw [hu]⟩, by rw [hu],
      by simpa using htaken, fun l hl hlb hne => hkept l hl hlb (hne p List.mem_cons_self),
      fun _ => ⟨by rw [hu], hres⟩⟩
  | false =>
    obtain ⟨hv, hb, ⟨_, _, hu⟩, hsound, -⟩ := hs.moveNonBasic_alone h
    obtain ⟨htaken, hkept⟩ :=
      stored_of_set (s := u.toState) hs.state hv hb (by rw [hu]) (by rw [hu])
    exact ⟨⟨hsound, hshaped, by rw [hu], by rw [hu], by rw [hu], by rw [hu]⟩, by rw [hu],
      by simpa using htaken, fun l hl hlb hne => hkept l hl hlb (hne p List.mem_cons_self),
      fun hfollow => absurd hfollow Bool.false_ne_true⟩

/-- **Another move first**, of a variable that is not moved again. -/
theorem Moved.cons (h : Moved follow [p] t u) (h' : Moved follow moves u w) (hp : p.1 < t.varCount)
    (hb : t.split.isBasic p.1 = false) (hnew : ∀ q ∈ moves, q.1 ≠ p.1) :
    Moved follow (p :: moves) t w where
  toReassigned := h.toReassigned.trans h'.toReassigned
  bounds := h'.bounds.trans h.bounds
  taken q hq := by
    rcases List.mem_cons.mp hq with rfl | hq
    · rw [h'.kept q.1 (h.varCount.symm ▸ hp) (h.split.symm ▸ hb) hnew]
      exact h.taken q List.mem_cons_self
    · exact h'.taken q hq
  kept v hv hvb hne := by
    rw [h'.kept v (h.varCount.symm ▸ hv) (h.split.symm ▸ hvb) fun q hq =>
      hne q (List.mem_cons_of_mem p hq)]
    exact h.kept v hv hvb fun q hq => hne q (List.mem_singleton.mp hq ▸ List.mem_cons_self)
  residual hfollow := by
    obtain ⟨hsettled, hres⟩ := h.residual hfollow
    obtain ⟨hsettled', hres'⟩ := h'.residual hfollow
    exact ⟨hsettled'.trans hsettled, fun i hi => (hres' i (h.rowCount.symm ▸ hi)).trans (hres i hi)⟩

/-- **Moves of distinct variables** can be made one after the other. -/
theorem exists_moved (follow : Bool) (ht : t.Shaped False t.settings) (hs : t.Sound)
    (hnodup : (moves.map Prod.fst).Nodup)
    (hmoves : ∀ p ∈ moves, p.1 < t.varCount ∧ t.split.isBasic p.1 = false) :
    ∃ u, t.run (moves.map (moveOf follow)) = .ok u ∧ Moved follow moves t u := by
  induction moves generalizing t with
  | nil =>
    refine ⟨t, rfl, ⟨.refl ht hs, rfl, ?_, fun _ _ _ _ => rfl, fun _ => ⟨rfl, fun _ _ => rfl⟩⟩⟩
    exact fun p hp => absurd hp List.not_mem_nil
  | cons p moves ih =>
    obtain ⟨hp, hb⟩ := hmoves p List.mem_cons_self
    rw [List.map_cons, List.nodup_cons] at hnodup
    obtain ⟨u, hu⟩ := exists_moveNonBasic ht hs.hasBasis hs.inverse.size hp hb (fin p.2) follow
    have hmoved := moved_of_moveNonBasic ht hs hu
    obtain ⟨w, hrun, hw⟩ := ih (hmoved.settings.symm ▸ hmoved.shaped) hmoved.sound hnodup.2
      fun q hq => by
        rw [hmoved.varCount, hmoved.split]
        exact hmoves q (List.mem_cons_of_mem p hq)
    refine ⟨w, ?_, hmoved.cons hw hp hb fun q hq heq => hnodup.1 (heq ▸ List.mem_map_of_mem hq)⟩
    rw [List.map_cons, run, moveOf, perform, replyDone, hu]
    exact hrun

/-- **Computing the basic values** makes up for moves that they did not follow. -/
theorem Moved.computeValues (h : Moved follow moves t u)
    (hmoves : ∀ p ∈ moves, t.split.isBasic p.1 = false) (hsettled : t.settled = true)
    (hzero : ∀ i < t.rowCount, t.toState.residual i = 0) (hw : u.computeValues = .ok w) :
    Moved true moves t w := by
  have hshaped : w.Shaped False t.settings := by
    obtain ⟨v, hv, rfl⟩ := computeValues_moves h.shaped.state h.shaped.inverse hw
    exact (hv.shaped h.shaped).invalidate
  obtain ⟨hsound, -, hres, xs, ss, hstate⟩ := h.sound.computeValues_state h.sound.hasBasis hw
  -- computing the basic values leaves the other ones alone
  have hstored (v : Nat) (hb : t.split.isBasic v = false) :
      w.toState.stored v = u.toState.stored v := by
    have hub : ¬u.split.isBasic v = true := by
      rw [h.split, hb]
      exact Bool.false_ne_true
    rw [hstate, State.stored, State.stored, if_neg hub, if_neg hub]
  have hreassigned : Reassigned u w := ⟨hsound, h.settings.symm ▸ hshaped, by rw [hstate],
    by rw [hstate], by rw [hstate], by rw [hstate]⟩
  refine ⟨h.toReassigned.trans hreassigned, (congrArg State.bounds hstate).trans h.bounds, ?_, ?_,
    ?_⟩
  · intro p hp
    exact (hstored p.1 (hmoves p hp)).trans (h.taken p hp)
  · intro v hv hb hne
    exact (hstored v hb).trans (h.kept v hv hb hne)
  · intro _
    refine ⟨(congrArg State.settled hstate).trans hsettled.symm, fun i hi => ?_⟩
    rw [hres i (h.rowCount.symm ▸ hi), hzero i hi]

/-- **The order of moves is immaterial.** -/
theorem Moved.unique (h : Moved true moves t u) (h' : Moved true order t w)
    (hperm : order.Perm moves) :
    u.toState = w.toState := by
  obtain ⟨hsettled, hres⟩ := h.residual rfl
  obtain ⟨hsettled', hres'⟩ := h'.residual rfl
  refine h.determined h'.toReassigned (h.bounds.trans h'.bounds.symm) ?_
    (hsettled.trans hsettled'.symm) fun i hi => (hres i hi).trans (hres' i hi).symm
  refine h.nonBasicValues_eq h'.toReassigned fun v hv hb => ?_
  by_cases hmoved : ∃ p ∈ moves, p.1 = v
  · obtain ⟨p, hp, rfl⟩ := hmoved
    rw [h.taken p hp, h'.taken p (hperm.mem_iff.mpr hp)]
  · have hne (p : Nat × K) (hp : p ∈ moves) : p.1 ≠ v := fun heq => hmoved ⟨p, hp, heq⟩
    rw [h.kept v hv hb hne, h'.kept v hv hb fun p hp => hne p (hperm.mem_iff.mp hp)]

end Moves

/-! ## §3.  Bounds that disturb the assignment -/

/-- A tighter bound of a variable. -/
structure Tightening (K : Type) where
  side : Side
  var : Nat
  bound : Extended K

namespace Tightening

/-- The call that puts the bound in place. -/
def operation (c : Tightening K) : Operation (Extended K) :=
  match c.side with
  | .lower => .tightenLower c.var c.bound
  | .upper => .tightenUpper c.var c.bound

/-- The standing that the value of the variable has under the new bound. -/
def standing (c : Tightening K) (t : Tableau (Extended K)) : Standing :=
  match c.side with
  | .lower => .classify (fin (t.toState.stored c.var)) c.bound (t.bounds.upperOf c.var)
      t.settings.boundTolerance
  | .upper => .classify (fin (t.toState.stored c.var)) (t.bounds.lowerOf c.var) c.bound
      t.settings.boundTolerance

/-- The bound disturbs the assignment: a basic variable has another standing on record than the one
    that it has under the bound, and a non-basic one violates it. -/
def Disturbs (c : Tightening K) (t : Tableau (Extended K)) : Prop :=
  if t.split.isBasic c.var = true then t.standings[t.split.place c.var]? ≠ some (c.standing t)
  else ¬c.side.Met c.bound (t.toState.stored c.var)

end Tightening

section Disturbs

variable {t u w : Tableau (Extended K)} {c d : Tightening K}

/-- **Enforcing a bound** of a variable that disturbs the assignment makes the prices stale.
    Otherwise nothing changes. -/
theorem enforce_disturbs (disturbs : Prop) (ht : t.Shaped False t.settings)
    (hs : t.toState.WellFormed) (hb : t.hasBasis = true) {v : Nat} {bound : Extended K}
    {violated : Extended K → Bool} (h : t.enforce v bound violated = .ok u)
    (hbasic : t.split.isBasic v = true → (disturbs ↔ t.standings[t.split.place v]?
      ≠ some (t.toState.standing t.settings.boundTolerance (t.split.place v))))
    (hnon : t.split.isBasic v = false →
      (disturbs ↔ violated (fin (t.toState.stored v)) = true)) :
    (disturbs → u.pricing = t.pricing.invalidate) ∧ (¬disturbs → Silent t u) := by
  unfold enforce at h
  dsimp only at h
  rw [if_pos (show (t.count .boundTightenings).hasBasis = true from hb)] at h
  obtain ⟨i, hi, h⟩ := Checked.bind_eq_ok.mp h
  obtain ⟨hv, rfl⟩ := hs.split.lt_of_positionOf hi
  cases hrole : t.split.isBasic v with
  | true =>
    -- a basic variable is classified anew, and prices are let go if that finds another standing
    rw [if_pos (show (t.count .boundTightenings).split.isBasic v = true from hrole)] at h
    obtain ⟨-, pricing, rfl, hp⟩ := restand_spec (t := t.count .boundTightenings) hs h
    rw [hbasic hrole]
    rcases hp with ⟨hpricing, hsame, hset⟩ | ⟨hpricing, hne⟩
    · refine ⟨fun hne => absurd hsame hne, fun _ => ?_⟩
      rw [hpricing, hset]
      exact silent_count t _
    · exact ⟨fun _ => hpricing, fun hsame => absurd hne hsame⟩
  | false =>
    -- a non-basic one is moved onto the bound if it violates it
    rw [if_neg (show ¬(t.count .boundTightenings).split.isBasic v = true from
      fun hc => Bool.false_ne_true (hrole.symm.trans hc))] at h
    obtain ⟨x, hx, h⟩ := Checked.bind_eq_ok.mp h
    rw [show (t.count .boundTightenings).nonBasicValues = t.nonBasicValues from rfl,
      Checked.getAt_eq_ok, hs.nonBasic.getElem? (hs.split.of_not_isBasic hv hrole).1] at hx
    obtain rfl : fin (t.toState.stored v) = x := by
      rw [State.stored, if_neg (by rw [hrole]; exact Bool.false_ne_true)]
      exact Option.some.inj hx
    rw [hnon hrole]
    split at h
    next hviolated =>
      refine ⟨fun _ => ?_, fun hmet => absurd hviolated hmet⟩
      obtain ⟨w, hw, rfl⟩ := moveNonBasic_moves ((silent_count t _).shaped ht).state h
      exact congrArg Pricing.invalidate hw.pricing
    next hmet =>
      cases h
      exact ⟨fun hviolated => absurd hviolated hmet, fun _ => silent_count t _⟩

/-- The same once the bound is in place. -/
theorem disturbs_of_enforce (ht : t.Shaped False t.settings) (hs : t.Sound)
    (hv : c.var < t.varCount) {bounds : Bounds (Extended K)} (hshaped : bounds.Shaped t.varCount)
    (hwf : bounds.WellFormed t.varCount) (hbounds : ∀ side v, Side.bound side bounds v
      = if side = c.side ∧ v = c.var then c.bound else Side.bound side t.bounds v)
    (hw : Silent { t with bounds } w) {violated : Extended K → Bool}
    (hviolated : ∀ y : K, violated (fin y) = true ↔ ¬c.side.Met c.bound y)
    (h : w.enforce c.var c.bound violated = .ok u) :
    (c.Disturbs t → u.pricing = t.pricing.invalidate)
      ∧ (¬c.Disturbs t → Silent { t with bounds } u) := by
  have hstate : w.toState = { t.toState with bounds } := hw.toState
  have hsplit : w.split = t.split := (congrArg State.split hstate :)
  have hstored : w.toState.stored c.var = t.toState.stored c.var := by
    rw [hstate]
    rfl
  have hwshaped : w.Shaped False w.settings := by
    rw [hw.settings]
    exact hw.shaped (ht.rebound hshaped)
  have hwbasis : w.hasBasis = true ∧ w.pricing = t.pricing := by
    obtain ⟨_, _, rfl⟩ := hw
    exact ⟨hs.hasBasis, rfl⟩
  have hwstate := (hw.solvable (hs.toSolvable.rebound hwf)).state
  have hbasic (hrole : w.split.isBasic c.var = true) : c.Disturbs t
    ↔ w.standings[w.split.place c.var]?
      ≠ some (w.toState.standing w.settings.boundTolerance (w.split.place c.var)) := by
    rw [hsplit] at hrole
    have hvar := (hs.state.split.of_isBasic hv hrole).2
    have hstanding : c.standing t
        = w.toState.standing w.settings.boundTolerance (w.split.place c.var) := by
      have hlower : bounds.lowerOf c.var = _ := hbounds .lower c.var
      have hupper : bounds.upperOf c.var = _ := hbounds .upper c.var
      rw [hw.settings, hstate]
      show c.standing t = .classify (fin (coord t.basicValues (t.split.place c.var)))
        (bounds.lowerOf (t.split.basicVar (t.split.place c.var)))
        (bounds.upperOf (t.split.basicVar (t.split.place c.var))) t.settings.boundTolerance
      rw [hvar, hlower, hupper, Tightening.standing, State.stored, if_pos hrole]
      cases c.side with
      | lower => simp [Side.bound]
      | upper => simp [Side.bound]
    rw [Tightening.Disturbs, if_pos hrole, hstanding, hstate]
  -- a variable that is not basic is disturbed if it has to move
  have hnon (hrole : w.split.isBasic c.var = false) :
      c.Disturbs t ↔ violated (fin (w.toState.stored c.var)) = true := by
    rw [hsplit] at hrole
    rw [Tightening.Disturbs, if_neg (by rw [hrole]; exact Bool.false_ne_true), hviolated, hstored]
  obtain ⟨hdisturbed, hquiet⟩ := enforce_disturbs _ hwshaped hwstate hwbasis.1 h hbasic hnon
  exact ⟨fun hc => hwbasis.2 ▸ hdisturbed hc, fun hc => hw.trans (hquiet hc)⟩

/-- **Whoever prices is told of a tighter bound** iff it disturbs the assignment.  A bound that does
    not changes nothing else. -/
theorem disturbs_of_tighten (ht : t.Shaped False t.settings) (hs : t.Sound)
    (hx : c.side.Proper c.bound) (h : c.side.tighten t c.var c.bound = .ok u) :
    (c.Disturbs t → u.pricing = t.pricing.invalidate)
      ∧ (¬c.Disturbs t → Silent { t with bounds := u.bounds } u) := by
  -- only the bounds of the result matter
  have hown {bounds : Bounds (Extended K)} (hu : Silent { t with bounds } u) :
      Silent { t with bounds := u.bounds } u := by
    obtain ⟨j, st, rfl⟩ := hu
    exact ⟨j, st, rfl⟩
  obtain ⟨side, v, x⟩ := c
  cases side with
  | lower =>
    obtain ⟨w, hw, h⟩ := Checked.bind_eq_ok.mp h
    obtain ⟨bounds, hb, hw⟩ := setLower_spec hw
    obtain ⟨hv, hwf, hlow, hupp⟩ := hs.state.bounds.setLower hx hb
    have hbounds (side : Side) (l : Nat) : side.bound bounds l
        = if side = .lower ∧ l = v then x else side.bound t.bounds l := by
      cases side with
      | lower => simpa [Side.bound] using hlow l
      | upper => simpa [Side.bound] using hupp l
    have hviolated (y : K) : decide ((fin y : Extended K) < x) = true ↔ ¬Side.lower.Met x y := by
      rw [decide_eq_true_iff, Side.Met, lower_le_iff hx, not_not]
    have hspec :=
      disturbs_of_enforce (c := ⟨.lower, v, x⟩) ht hs hv (ht.state.bounds.setLower hb) hwf
      hbounds (Silent.trans ⟨_, _, rfl⟩ hw) hviolated h
    exact ⟨hspec.1, fun hc => hown (hspec.2 hc)⟩
  | upper =>
    obtain ⟨w, hw, h⟩ := Checked.bind_eq_ok.mp h
    obtain ⟨bounds, hb, hw⟩ := setUpper_spec hw
    obtain ⟨hv, hwf, hlow, hupp⟩ := hs.state.bounds.setUpper hx hb
    have hbounds (side : Side) (l : Nat) : side.bound bounds l
        = if side = .upper ∧ l = v then x else side.bound t.bounds l := by
      cases side with
      | lower => simpa [Side.bound] using hlow l
      | upper => simpa [Side.bound] using hupp l
    have hviolated (y : K) : decide ((fin y : Extended K) > x) = true ↔ ¬Side.upper.Met x y := by
      rw [decide_eq_true_iff, Side.Met, le_upper_iff hx, not_not]
    have hspec :=
      disturbs_of_enforce (c := ⟨.upper, v, x⟩) ht hs hv (ht.state.bounds.setUpper hb) hwf
      hbounds (Silent.trans ⟨_, _, rfl⟩ hw) hviolated h
    exact ⟨hspec.1, fun hc => hown (hspec.2 hc)⟩

/-- Whether a bound disturbs the assignment is for the values, the standings and the other bound of
    its variable to say. -/
theorem disturbs_congr {bounds : Bounds (Extended K)} (hu : Silent { t with bounds } u)
    (hbounds : ∀ side, Side.bound side bounds d.var = Side.bound side t.bounds d.var) :
    d.Disturbs u ↔ d.Disturbs t := by
  obtain ⟨_, _, rfl⟩ := hu
  have hlower : bounds.lowerOf d.var = t.bounds.lowerOf d.var := hbounds .lower
  have hupper : bounds.upperOf d.var = t.bounds.upperOf d.var := hbounds .upper
  simp only [Tightening.Disturbs, Tightening.standing, State.stored, hlower, hupper]

end Disturbs

/-! ## §4.  Tighter bounds -/

/-- What tighter bounds lead to: they are in place, and the non-basic variables that violated them
    are on them.  The prices are stale if one of them disturbed the assignment; if none did, the
    assignment is what it was. -/
structure TightenedAll (calls : List (Tightening K)) (t u : Tableau (Extended K)) : Prop
    extends Reassigned t u where
  settled : u.settled = t.settled
  residual : ∀ i < t.rowCount, u.toState.residual i = t.toState.residual i
  placed : ∀ c ∈ calls, ∀ side : Side, side.bound u.bounds c.var
    = if side = c.side then c.bound else side.bound t.bounds c.var
  boundsKept : ∀ (side : Side) v, (∀ c ∈ calls, c.var ≠ v) →
    side.bound u.bounds v = side.bound t.bounds v
  taken : ∀ c ∈ calls, t.split.isBasic c.var = false → fin (u.toState.stored c.var)
    = if c.side.Met c.bound (t.toState.stored c.var) then fin (t.toState.stored c.var) else c.bound
  kept : ∀ v < t.varCount, t.split.isBasic v = false → (∀ c ∈ calls, c.var ≠ v) →
    u.toState.stored v = t.toState.stored v
  disturbed : (∃ c ∈ calls, c.Disturbs t) → u.pricing = t.pricing.invalidate
  undisturbed : (∀ c ∈ calls, ¬c.Disturbs t) → Silent { t with bounds := u.bounds } u

section Tightenings

variable {t u w : Tableau (Extended K)} {c : Tightening K} {calls order : List (Tightening K)}

/-- **One bound.** -/
theorem tightenedAll_of_tighten (ht : t.Shaped False t.settings) (hs : t.Sound)
    (hx : c.side.Proper c.bound) (h : c.side.tighten t c.var c.bound = .ok u) :
    TightenedAll [c] t u := by
  have hshaped : u.Shaped False t.settings := by
    cases hside : c.side with
    | lower =>
      rw [hside] at h
      exact ht.tightenLower h
    | upper =>
      rw [hside] at h
      exact ht.tightenUpper h
  have htight := hs.steady.tighten hx h
  obtain ⟨hsolv, hres⟩ := htight.solvable hs.toSolvable
  obtain ⟨hdisturbed, hquiet⟩ := disturbs_of_tighten ht hs hx h
  have hbound := htight.bound
  have hvalues := htight.values
  obtain ⟨_, _, _, _, _, _, hu⟩ := htight.changes
  have hreassigned : Reassigned t u := ⟨htight.steady.sound hsolv, hshaped, by rw [hu], by rw [hu],
    by rw [hu], by rw [hu]⟩
  -- a non-basic variable has a place, where its value is found before and after
  have hvalue (v : Nat) (hv : v < t.varCount) (hb : t.split.isBasic v = false) :
      u.toState.stored v = t.toState.stored v
          ∧ (v = c.var → c.side.Met c.bound (t.toState.stored v))
        ∨ v = c.var ∧ fin (u.toState.stored v) = c.bound := by
    obtain ⟨hplace, hvar⟩ := hs.state.split.of_not_isBasic hv hb
    have hcase := hvalues _ hplace
    rwa [hvar, ← hreassigned.stored_nonBasic hb,
      ← (Reassigned.refl ht hs).stored_nonBasic hb] at hcase
  refine ⟨hreassigned, by rw [hu], hres, ?_, ?_, ?_, ?_, ?_, ?_⟩
  · intro d hd side
    obtain rfl := List.mem_singleton.mp hd
    rw [hbound]
    simp only [and_true]
  · intro side v hne
    rw [hbound, if_neg]
    rintro ⟨-, rfl⟩
    exact hne c List.mem_cons_self rfl
  · intro d hd hb
    obtain rfl := List.mem_singleton.mp hd
    split
    next hmet =>
      -- a bound that is met moves nothing
      have hsame : ¬d.Disturbs t := by
        rw [Tightening.Disturbs, if_neg (by rw [hb]; exact Bool.false_ne_true)]
        exact not_not.mpr hmet
      rw [(hquiet hsame).toState]
      rfl
    next hunmet =>
      rcases hvalue d.var htight.lt hb with ⟨-, hmet⟩ | ⟨-, hmoved⟩
      · exact absurd (hmet rfl) hunmet
      · exact hmoved
  · intro v hv hb hne
    rcases hvalue v hv hb with ⟨hsame, -⟩ | ⟨rfl, -⟩
    · exact hsame
    · exact absurd rfl (hne c List.mem_cons_self)
  · rintro ⟨d, hd, hdisturbs⟩
    obtain rfl := List.mem_singleton.mp hd
    exact hdisturbed hdisturbs
  · intro hnone
    exact hquiet (hnone c List.mem_cons_self)

/-- A bound that does not disturb the assignment has no influence on whether others do. -/
theorem TightenedAll.disturbs_iff (h : TightenedAll [c] t u) (hc : ¬c.Disturbs t) {d : Tightening K}
    (hne : d.var ≠ c.var) : d.Disturbs u ↔ d.Disturbs t := by
  refine disturbs_congr (h.undisturbed fun e he => List.mem_singleton.mp he ▸ hc) fun side => ?_
  exact h.boundsKept side d.var fun e he => List.mem_singleton.mp he ▸ hne.symm

/-- **Another bound first**, of a variable none of whose bounds is tightened again. -/
theorem TightenedAll.cons (h : TightenedAll [c] t u) (h' : TightenedAll calls u w)
    (hc : c.var < t.varCount) (hcalls : ∀ d ∈ calls, d.var < t.varCount)
    (hnew : ∀ d ∈ calls, d.var ≠ c.var) : TightenedAll (c :: calls) t w where
  toReassigned := h.toReassigned.trans h'.toReassigned
  settled := h'.settled.trans h.settled
  residual i hi := (h'.residual i (h.rowCount.symm ▸ hi)).trans (h.residual i hi)
  placed d hd side := by
    rcases List.mem_cons.mp hd with rfl | hd
    · rw [h'.boundsKept side d.var hnew]
      exact h.placed d List.mem_cons_self side
    · rw [h'.placed d hd, h.boundsKept side d.var]
      exact fun e he => List.mem_singleton.mp he ▸ (hnew d hd).symm
  boundsKept side v hne := by
    rw [h'.boundsKept side v fun d hd => hne d (List.mem_cons_of_mem c hd)]
    exact h.boundsKept side v fun d hd => hne d (List.mem_singleton.mp hd ▸ List.mem_cons_self)
  taken d hd hb := by
    rcases List.mem_cons.mp hd with rfl | hd
    · rw [h'.kept d.var (h.varCount.symm ▸ hc) (h.split.symm ▸ hb) hnew]
      exact h.taken d List.mem_cons_self hb
    · rw [h'.taken d hd (h.split.symm ▸ hb), h.kept d.var (hcalls d hd) hb]
      exact fun e he => List.mem_singleton.mp he ▸ (hnew d hd).symm
  kept v hv hb hne := by
    rw [h'.kept v (h.varCount.symm ▸ hv) (h.split.symm ▸ hb) fun d hd =>
      hne d (List.mem_cons_of_mem c hd)]
    exact h.kept v hv hb fun d hd => hne d (List.mem_singleton.mp hd ▸ List.mem_cons_self)
  disturbed hany := by
    -- if the first bound does not disturb, the later ones disturb what they would have disturbed
    by_cases hfirst : c.Disturbs t
    · have hstale := h.disturbed ⟨c, List.mem_cons_self, hfirst⟩
      by_cases hlater : ∃ d ∈ calls, d.Disturbs u
      · rw [h'.disturbed hlater, hstale]
        rfl
      · rw [(h'.undisturbed fun d hd hdisturbs => hlater ⟨d, hd, hdisturbs⟩).moves.pricing]
        exact hstale
    · obtain ⟨d, hd, hdisturbs⟩ := hany
      rcases List.mem_cons.mp hd with rfl | hd
      · exact absurd hdisturbs hfirst
      · rw [h'.disturbed ⟨d, hd, (h.disturbs_iff hfirst (hnew d hd)).mpr hdisturbs⟩,
          (h.undisturbed fun e he => List.mem_singleton.mp he ▸ hfirst).moves.pricing]
  undisturbed hnone := by
    have hfirst := hnone c List.mem_cons_self
    obtain ⟨_, _, hu⟩ := h.undisturbed fun e he => List.mem_singleton.mp he ▸ hfirst
    obtain ⟨j, st, hw⟩ := h'.undisturbed fun d hd hdisturbs => hnone d (List.mem_cons_of_mem c hd)
      ((h.disturbs_iff hfirst (hnew d hd)).mp hdisturbs)
    refine ⟨j, st, hw.trans ?_⟩
    rw [hu]

/-- **Bounds of distinct variables** can be tightened one after the other. -/
theorem exists_tightenedAll (ht : t.Shaped False t.settings) (hs : t.Sound)
    (hnodup : (calls.map Tightening.var).Nodup)
    (hcalls : ∀ c ∈ calls, c.var < t.varCount ∧ c.side.Proper c.bound) :
    ∃ u, t.run (calls.map Tightening.operation) = .ok u ∧ TightenedAll calls t u := by
  induction calls generalizing t with
  | nil =>
    refine ⟨t, rfl, ⟨.refl ht hs, rfl, fun _ _ => rfl, ?_, fun _ _ _ => rfl, ?_,
      fun _ _ _ _ => rfl, ?_, fun _ => .refl t⟩⟩
    · exact fun c hc => absurd hc List.not_mem_nil
    · exact fun c hc => absurd hc List.not_mem_nil
    · rintro ⟨c, hc, -⟩
      exact absurd hc List.not_mem_nil
  | cons c calls ih =>
    obtain ⟨hc, hx⟩ := hcalls c List.mem_cons_self
    rw [List.map_cons, List.nodup_cons] at hnodup
    obtain ⟨u, hu⟩ : ∃ u, c.side.tighten t c.var c.bound = .ok u := by
      cases c.side with
      | lower => exact exists_tightenLower ht hs.hasBasis hs.inverse.size hc c.bound
      | upper => exact exists_tightenUpper ht hs.hasBasis hs.inverse.size hc c.bound
    have hperform : t.perform c.operation = .ok (.done, u) := by
      unfold Tightening.operation
      cases hside : c.side with
      | lower =>
        rw [hside] at hu
        exact Checked.bind_eq_ok.mpr ⟨u, hu, rfl⟩
      | upper =>
        rw [hside] at hu
        exact Checked.bind_eq_ok.mpr ⟨u, hu, rfl⟩
    -- the first call leaves a tableau on which the others can go on
    have htight := tightenedAll_of_tighten ht hs hx hu
    obtain ⟨w, hrun, hw⟩ := ih (htight.settings.symm ▸ htight.shaped) htight.sound hnodup.2
      fun d hd => by
        rw [htight.varCount]
        exact hcalls d (List.mem_cons_of_mem c hd)
    refine ⟨w, ?_, htight.cons hw hc (fun d hd => (hcalls d (List.mem_cons_of_mem c hd)).1)
      fun d hd heq => hnodup.1 (heq ▸ List.mem_map_of_mem hd)⟩
    rw [List.map_cons, run, hperform]
    exact hrun

/-- **The order of tighter bounds is immaterial.** -/
theorem TightenedAll.unique (h : TightenedAll calls t u) (h' : TightenedAll order t w)
    (hperm : order.Perm calls) : u.toState = w.toState ∧ u.pricing = w.pricing := by
  have hother {v : Nat} (hv : ¬∃ c ∈ calls, c.var = v) : (∀ c ∈ calls, c.var ≠ v)
      ∧ ∀ c ∈ order, c.var ≠ v :=
    ⟨fun c hc heq => hv ⟨c, hc, heq⟩, fun c hc heq => hv ⟨c, hperm.mem_iff.mp hc, heq⟩⟩
  have hbounds : u.bounds = w.bounds := by
    have hshaped : w.bounds.Shaped u.varCount := by
      rw [h.varCount, ← h'.varCount]
      exact h'.shaped.state.bounds
    refine h.shaped.state.bounds.ext hshaped fun side v _ => ?_
    -- a bound was placed by its own call, of which there is one in either order, or kept
    by_cases hv : ∃ c ∈ calls, c.var = v
    · obtain ⟨c, hc, rfl⟩ := hv
      rw [h.placed c hc, h'.placed c (hperm.mem_iff.mpr hc)]
    · rw [h.boundsKept side v (hother hv).1, h'.boundsKept side v (hother hv).2]
  have hnon : u.nonBasicValues = w.nonBasicValues := by
    refine h.nonBasicValues_eq h'.toReassigned fun v hv hb => ?_
    by_cases hcall : ∃ c ∈ calls, c.var = v
    · obtain ⟨c, hc, rfl⟩ := hcall
      exact Extended.fin.inj ((h.taken c hc hb).trans (h'.taken c (hperm.mem_iff.mpr hc) hb).symm)
    · rw [h.kept v hv hb (hother hcall).1, h'.kept v hv hb (hother hcall).2]
  refine ⟨h.determined h'.toReassigned hbounds hnon (h.settled.trans h'.settled.symm) fun i hi =>
    (h.residual i hi).trans (h'.residual i hi).symm, ?_⟩
  -- prices are given up if any call disturbs the tableau, in whatever order
  by_cases hany : ∃ c ∈ calls, c.Disturbs t
  · have hany' : ∃ c ∈ order, c.Disturbs t := by
      obtain ⟨c, hc, hdisturbs⟩ := hany
      exact ⟨c, hperm.mem_iff.mpr hc, hdisturbs⟩
    rw [h.disturbed hany, h'.disturbed hany']
  · have hnone (c : Tightening K) (hc : c ∈ calls) : ¬c.Disturbs t := fun hd => hany ⟨c, hc, hd⟩
    rw [(h.undisturbed hnone).moves.pricing,
      (h'.undisturbed fun c hc => hnone c (hperm.mem_iff.mp hc)).moves.pricing]

end Tightenings

/-! ## §5.  The order is immaterial -/

/-- **Moves and tighter bounds commute.**  In a consistent tableau whose values count as computed,
    moves of distinct non-basic variables lead to the same state in any order, whether the basic
    variables follow each of them or are computed once at the end.  Tighter bounds of distinct
    variables lead to the same state and the same prices in any order. -/
theorem moves_and_bounds_commute [IsStrictOrderedRing K] {t : Tableau (Extended K)}
    (ht : t.Shaped False t.settings) (hsolv : t.Solvable) (hb : t.hasBasis = true)
    (hsettled : t.settled = true) (hconsistent : t.isConsistent (fin 0) = .ok true) :
    (∀ moves : List (Nat × K), (moves.map Prod.fst).Nodup →
      (∀ p ∈ moves, p.1 < t.varCount ∧ t.split.isBasic p.1 = false) →
      ∃ s : State (Extended K), ∀ order : List (Nat × K), order.Perm moves →
        (∃ u, t.run (order.map (moveOf true)) = .ok u ∧ u.toState = s)
        ∧ ∃ u, t.run (order.map (moveOf false) ++ [.computeValues]) = .ok u ∧ u.toState = s)
    ∧ ∀ calls : List (Tightening K), (calls.map Tightening.var).Nodup →
      (∀ c ∈ calls, c.var < t.varCount ∧ c.side.Proper c.bound) →
      ∃ (s : State (Extended K)) (pricing : Pricing (Extended K)), ∀ order : List (Tightening K),
        order.Perm calls →
        ∃ u, t.run (order.map Tightening.operation) = .ok u ∧ u.toState = s
          ∧ u.pricing = pricing := by
  rw [isConsistent, if_pos hb] at hconsistent
  obtain ⟨hzero, hstandings⟩ :=
    hsolv.state.residual_of_isConsistent ht.state.standings hconsistent
  -- in a consistent tableau all equations hold and all standings are up to date
  have hs : t.Sound := ⟨hsolv, hstandings, hb⟩
  constructor
  · intro moves hnodup hmoves
    obtain ⟨s, -, hs₀⟩ := exists_moved true ht hs hnodup hmoves
    refine ⟨s.toState, fun order hperm => ?_⟩
    have hnodup' : (order.map Prod.fst).Nodup := (hperm.map _).nodup_iff.mpr hnodup
    have hmoves' (p : Nat × K) (hp : p ∈ order) := hmoves p (hperm.mem_iff.mp hp)
    constructor
    · obtain ⟨u, hrun, hu⟩ := exists_moved true ht hs hnodup' hmoves'
      exact ⟨u, hrun, (hs₀.unique hu hperm).symm⟩
    · obtain ⟨u, hrun, hu⟩ := exists_moved false ht hs hnodup' hmoves'
      obtain ⟨w, hw⟩ := exists_computeValues hu.shaped hu.sound.hasBasis hu.sound.inverse.size
      have hcomputed := hu.computeValues (fun p hp => (hmoves' p hp).2) hsettled hzero hw
      refine ⟨w, ?_, (hs₀.unique hcomputed hperm).symm⟩
      rw [run_append, hrun, Checked.ok_bind, run, perform, replyDone, hw]
      rfl
  · intro calls hnodup hcalls
    obtain ⟨s, -, hs₀⟩ := exists_tightenedAll ht hs hnodup hcalls
    refine ⟨s.toState, s.pricing, fun order hperm => ?_⟩
    obtain ⟨u, hrun, hu⟩ := exists_tightenedAll ht hs ((hperm.map _).nodup_iff.mpr hnodup)
      fun c hc => hcalls c (hperm.mem_iff.mp hc)
    obtain ⟨hstate, hpricing⟩ := hs₀.unique hu hperm
    exact ⟨u, hrun, hstate.symm, hpricing.symm⟩

/-- In `x + y + z = 10` and `x - y + w = 5` with `z` and `w` basic, `x` is moved to 2 and `y`
    to 3, or `x ≥ 1` and `z ≤ 4` are imposed, of which the first moves `x` and the second
    makes `z` too large. -/
theorem two_moves_and_two_bounds_commute : ∃ t : Tableau (Extended ℚ), t.Shaped False t.settings
    ∧ t.Solvable ∧ t.hasBasis = true ∧ t.settled = true ∧ t.isConsistent (fin 0) = .ok true
    ∧ (∃ u v, t.run ([(1, 3), (0, 2)].map (moveOf true)) = .ok u
      ∧ t.run ([(0, 2), (1, 3)].map (moveOf false) ++ [.computeValues]) = .ok v
      ∧ u.toState = v.toState ∧ v.basicValues = [fin 5, fin 6])
    ∧ ∃ u v, t.run ([⟨.lower, 0, fin 1⟩, ⟨.upper, 2, fin 4⟩].map Tightening.operation) = .ok u
      ∧ t.run ([⟨.upper, 2, fin 4⟩, ⟨.lower, 0, fin 1⟩].map Tightening.operation) = .ok v
      ∧ u.toState = v.toState ∧ u.pricing = v.pricing ∧ v.standings = [.aboveUpper, .between]
      ∧ v.pricing.stale = true := by
  have hrun : (do
      let t ← (create (α := Extended ℚ) {}).run [.setSize 2 4,
        .setCoefficients [fin 1, fin 1, fin 1, fin 0, fin 1, fin (-1), fin 0, fin 1],
        .setRightHandSide [fin 10, fin 5], .setLower 0 (fin 0), .setLower 1 (fin 0)]
      let (r, s) ← t.startFrom [2, 3]
      let consistent ← s.isConsistent (fin 0)
      let v ← s.run ([(0, 2), (1, 3)].map (moveOf false) ++ [Operation.computeValues])
      let w ← s.run ([(⟨.upper, 2, fin 4⟩ : Tightening ℚ), ⟨.lower, 0, fin 1⟩].map
        Tightening.operation)
      Checked.require (r = Except.ok () ∧ s.settled = true ∧ consistent = true ∧ s.varCount = 4
        ∧ s.split.isBasic 0 = false ∧ s.split.isBasic 1 = false ∧ v.basicValues = [fin 5, fin 6]
        ∧ w.standings = [Standing.aboveUpper, .between] ∧ w.pricing.stale = true) .inconsistent)
      = .ok () := by decide +kernel
  obtain ⟨t, ht, hrun⟩ := Checked.bind_eq_ok.mp hrun
  obtain ⟨⟨r, s⟩, hs, hrun⟩ := Checked.bind_eq_ok.mp hrun
  obtain ⟨consistent, hcons, hrun⟩ := Checked.bind_eq_ok.mp hrun
  obtain ⟨v, hv, hrun⟩ := Checked.bind_eq_ok.mp hrun
  obtain ⟨w, hw, hrun⟩ := Checked.bind_eq_ok.mp hrun
  obtain ⟨rfl, hsettled, rfl, hcount, hx, hy, hvalues, hstandings, hstale⟩ :=
    Checked.require_eq_ok.mp hrun
  have hconf : t.Configured := (Configured.created _).run (by decide +kernel) ht
  obtain ⟨hsound, hoperated⟩ := operated_of_startFrom hconf hs
  have hshape : s.Shaped False s.settings := by
    obtain ⟨σ, hshape⟩ := hoperated.shaped
    obtain rfl := hshape.settings
    exact hshape
  obtain ⟨hmoves, hbounds⟩ :=
    moves_and_bounds_commute hshape hsound.toSolvable hsound.hasBasis hsettled
    hcons
  obtain ⟨a, ha⟩ := hmoves [(0, 2), (1, 3)] (by decide) (by simp [hcount, hx, hy])
  obtain ⟨b, pricing, hb⟩ := hbounds [⟨.upper, 2, fin 4⟩, ⟨.lower, 0, fin 1⟩] (by decide)
    (by simp [hcount, Side.proper_fin])
  obtain ⟨⟨u, hu, hus⟩, -⟩ := ha [(1, 3), (0, 2)] (List.Perm.swap _ _ _)
  obtain ⟨-, v', hv', hvs⟩ := ha _ (List.Perm.refl _)
  obtain rfl : v = v' := Except.ok.inj (hv.symm.trans hv')
  obtain ⟨u', hu', hus', hup⟩ := hb [⟨.lower, 0, fin 1⟩, ⟨.upper, 2, fin 4⟩] (List.Perm.swap _ _ _)
  obtain ⟨w', hw', hws, hwp⟩ := hb _ (List.Perm.refl _)
  obtain rfl : w = w' := Except.ok.inj (hw.symm.trans hw')
  exact ⟨s, hshape, hsound.toSolvable, hsound.hasBasis, hsettled, hcons,
    ⟨u, v, hu, hv, hus.trans hvs.symm, hvalues⟩, u', w, hu', hw, hus'.trans hws.symm,
    hup.trans hwp.symm, hstandings, hstale⟩

end BoundedSimplex
