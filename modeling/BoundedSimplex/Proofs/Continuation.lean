/-
  BoundedSimplex.Proofs.Continuation — a snapshot determines the future.

  Two tableaux with the same settings and the same kind of inverse return to one snapshot, whatever
  was done to them before.  Once costs are computed, nothing of the past is left but what was told
  and counted: every conversation goes on alike on both.

  Main results:
    * `Alike.converse` — conversations with tableaux that differ in journal and statistics;
    * `alike_of_restore` — a return and fresh costs leave no other difference;
    * `converse_after_restore` — the conversations that follow a return.
-/
import BoundedSimplex.Proofs.Freshness
import BoundedSimplex.Proofs.Requests
import BoundedSimplex.Proofs.RoundTrip

namespace BoundedSimplex

variable {α : Type} [Scalar α]

/-! ## §1.  Equal representations -/

/-- Equal representations answer alike, whatever they are asked. -/
def Likeness.equal (first second : Journal α) : Likeness α where
  numbers := .all α
  follows := fun _ => True
  inverse := Eq
  statistics := fun _ _ => True
  first
  second
  size := fun h => h ▸ rfl
  solveColumn := fun h _ => h ▸ rfl
  solveRow := fun h _ => h ▸ rfl
  update := fun h _ _ _ => h ▸ .refl (fun _ => rfl) _
  refresh := fun h _ => h ▸ .refl (fun _ => rfl) _
  count := fun _ _ => trivial
  restart := trivial

namespace BasisInverse

/-- The same form, with the same threshold. -/
def SameKind : BasisInverse α → BasisInverse α → Prop
  | product f, product g => f.threshold = g.threshold
  | explicit f, explicit g => f.threshold = g.threshold
  | product _, explicit _ | explicit _, product _ => False

instance (f g : BasisInverse α) : Decidable (f.SameKind g) :=
  match f, g with
  | product f, product g => inferInstanceAs (Decidable (f.threshold = g.threshold))
  | explicit f, explicit g => inferInstanceAs (Decidable (f.threshold = g.threshold))
  | product _, explicit _ => .isFalse id
  | explicit _, product _ => .isFalse id

/-- A fresh start keeps nothing but the kind. -/
theorem SameKind.refresh {f g : BasisInverse α} (h : f.SameKind g) (columns : List (List α)) :
    f.refresh columns = g.refresh columns := by
  cases f with
  | product f =>
    cases g with
    | product g =>
      have hrefresh : f.refresh columns = g.refresh columns := by
        unfold ProductForm.refresh
        rw [show f.threshold = g.threshold from h]
      exact congrArg (Except.map product) hrefresh
    | explicit g => exact h.elim
  | explicit f =>
    cases g with
    | product g => exact h.elim
    | explicit g =>
      have hrefresh : f.refresh columns = g.refresh columns := by
        unfold ExplicitInverse.refresh
        rw [show f.threshold = g.threshold from h]
      exact congrArg (Except.map explicit) hrefresh

end BasisInverse

/-- Costs that follow from the standings do not depend on earlier ones. -/
theorem Pricing.compute_of_infeasibility {a b : Pricing α} (ha : a.rule = .infeasibility)
    (hb : b.rule = .infeasibility) (view : Pricing.View α) : a.compute view = b.compute view := by
  unfold Pricing.compute
  rw [ha, hb]

/-- Every operation is about numbers of some kind. -/
theorem Operation.over_all (op : Operation α) : op.Over (.all α) := by
  cases op with
  | addEquation e => exact fun _ _ => trivial
  | computeMultipliers costs => exact fun _ _ => trivial
  | restore s => exact ⟨fun _ _ => trivial, fun _ _ _ _ => trivial⟩
  | _ => exact trivial

namespace Tableau

variable {t u t₁ u₁ : Tableau α} {p q : Journal α}

/-- And so is every tableau. -/
theorem over_all (t : Tableau α) : t.Over (.all α) :=
  ⟨⟨fun _ _ => trivial, fun _ _ _ _ => trivial⟩, fun _ _ => trivial, fun _ _ => trivial,
    fun _ _ _ _ => trivial, fun _ _ _ _ => trivial, fun _ _ => trivial, fun _ _ _ _ => trivial⟩

/-! ## §2.  Conversations -/

/-- **A conversation** with two tableaux that differ in what was told and counted goes on alike. -/
theorem Alike.converse (h : Alike (.equal p q) t u) (requests : List (Request α)) :
    Agree (AlikeWith (.equal p q)) (t.converse requests) (u.converse requests) := by
  induction requests generalizing t u with
  | nil => exact .ok ⟨rfl, h⟩
  | cons r rs ih =>
    -- equal representations are due at the same time
    have hfinish {v w : Tableau α} (hvw : Alike (.equal p q) v w) :
        Agree (Alike (.equal p q)) v.finish w.finish :=
      hvw.finish v.over_all.matrix (congrArg BasisInverse.isDue hvw.inverse).symm
    have hserve : Agree (AlikeWith (.equal p q)) (t.serve r) (u.serve r) :=
      h.serve r fun op _ => h.perform t.over_all op.over_all (fun _ _ => trivial)
        (fun _ _ _ _ _ hvw => hfinish hvw) (fun _ _ _ _ _ hvw => hfinish hvw)
    refine hserve.bind fun a b _ _ hab => (ih hab.2).bind fun c d _ _ hcd => ?_
    exact .ok ⟨by rw [hab.1, hcd.1], hcd.2⟩

/-! ## §3.  Returns -/

/-- What a return that is accepted leaves of the tableau. -/
theorem restore_eq {s : State α} (h : t.restore s = .ok (.ok (), u)) :
    ∃ columns inverse journal, s.basisColumns = .ok columns
      ∧ t.inverse.refresh columns = .ok inverse ∧ u = { t with
        toState := s
        inverse
        pricing := t.pricing.invalidate
        multipliers := Scalar.zeros s.rowCount
        plan := .none
        hasBasis := true
        journal } := by
  rw [restore_eq_refresh] at h
  obtain ⟨columns, hc, h⟩ := Checked.bind_eq_ok.mp h
  dsimp only at h
  split at h
  · cases h
  · next inverse hinverse =>
    obtain ⟨_, -, h⟩ := Checked.bind_eq_ok.mp h
    cases h
    exact ⟨columns, inverse, _, hc, hinverse, rfl⟩

/-- **A return and fresh costs** leave no difference but in journal and statistics. -/
theorem alike_of_restore {s : State α} (settings : u.settings = t.settings)
    (kind : t.inverse.SameKind u.inverse) (rule : t.pricing.rule = .infeasibility)
    (rule' : u.pricing.rule = .infeasibility) (watchers : u.watchers = t.watchers)
    (ht : t.restore s = .ok (.ok (), t₁)) (hu : u.restore s = .ok (.ok (), u₁)) :
    Agree (Alike (.equal t₁.journal u₁.journal)) t₁.computePrices u₁.computePrices := by
  obtain ⟨columns, f, j, hc, hf, rfl⟩ := restore_eq ht
  obtain ⟨columns', g, k, hc', hg, rfl⟩ := restore_eq hu
  obtain rfl := Except.ok.inj (hc.symm.trans hc')
  obtain rfl := Except.ok.inj ((hf.symm.trans (kind.refresh columns)).trans hg)
  have hcompute := Pricing.compute_of_infeasibility (a := t.pricing.invalidate)
    (b := u.pricing.invalidate) rule rule' ⟨s.standings, s.split.nonBasic, s.matrix, f⟩
  refine .step (Checked.require (true = true) .basisMissing) fun _ _ => ?_
  dsimp only [pricingView]
  rw [hcompute]
  refine .step _ fun pricing _ => .ok ⟨?_, rfl, trivial, .refl _ _⟩
  rw [settings, watchers]

/-- **A snapshot determines the future.**  Two tableaux with the same settings, watchers and kind of
    inverse, whose costs follow from the standings, return to one snapshot.  From the computation of
    costs on, every conversation has the same replies on both, or breaks the same contract; the
    tableaux differ in journal and statistics only, and have told the same since. -/
theorem converse_after_restore {s : State α} (settings : u.settings = t.settings)
    (kind : t.inverse.SameKind u.inverse) (rule : t.pricing.rule = .infeasibility)
    (rule' : u.pricing.rule = .infeasibility) (watchers : u.watchers = t.watchers)
    (ht : t.restore s = .ok (.ok (), t₁)) (hu : u.restore s = .ok (.ok (), u₁))
    (requests : List (Request α)) :
    Agree (fun r r' => r.1 = r'.1 ∧ Silent r.2 r'.2
        ∧ Journal.ToldAlike t₁.journal u₁.journal r.2.journal r'.2.journal)
      (t₁.converse (.perform .computePrices :: requests))
      (u₁.converse (.perform .computePrices :: requests)) := by
  have hprices := alike_of_restore settings kind rule rule' watchers ht hu
  have hconverse : Agree (AlikeWith (.equal t₁.journal u₁.journal))
      (t₁.converse (.perform .computePrices :: requests))
      (u₁.converse (.perform .computePrices :: requests)) := by
    refine (agree_replyDone hprices).bind fun a b _ _ hab => ?_
    refine (hab.2.converse requests).bind fun c d _ _ hcd => .ok ⟨?_, hcd.2⟩
    rw [hab.1, hcd.1]
  refine hconverse.mono fun r r' hrr => ⟨hrr.1, ?_, hrr.2.journal⟩
  obtain ⟨f, j, st, hsame, hf, -, -⟩ := hrr.2.cases
  exact ⟨j, st, by rw [hsame, ← hf]⟩

/-- In rounded arithmetic: one tableau is left in the middle of a pivot, after a merge, the other
    one in the middle of a setup with other dimensions. -/
theorem converse_after_unlike_pasts : ∃ (t u t₁ u₁ : Tableau Float) (s : State Float),
    t.merges.links = [(0, 1)] ∧ t.plan.entering = some 1 ∧ t.varCount = 3
    ∧ u.varCount = 5 ∧ u.hasBasis = false
    ∧ t.restore s = .ok (.ok (), t₁) ∧ u.restore s = .ok (.ok (), u₁)
    ∧ ∀ requests : List (Request Float),
      Agree (fun r r' => r.1 = r'.1 ∧ Silent r.2 r'.2
          ∧ Journal.ToldAlike t₁.journal u₁.journal r.2.journal r'.2.journal)
        (t₁.converse (.perform .computePrices :: requests))
        (u₁.converse (.perform .computePrices :: requests)) := by
  have hrun : (do
      let t₀ ← ((create (α := Float) {}).watchAll "mirror").run [.setSize 1 3,
        .setCoefficients [1, 2, 1], .setRightHandSide [10], .setLower 0 0, .setUpper 0 4,
        .setLower 1 0, .setUpper 1 3, .setLower 2 0, .setUpper 2 5, .startFrom [2]]
      let (s, t) ← t₀.save
      let t ← t.run [.merge 0 1, .computePrices, .chooseEntering .first, .computeColumn]
      let u ← ((create (α := Float) {}).watchAll "mirror").run [.setSize 2 5, .markBasic 3]
      let (r, _) ← t.restore s
      let (r', _) ← u.restore s
      Checked.require (r = Except.ok () ∧ r' = Except.ok () ∧ t.inverse.SameKind u.inverse
        ∧ (t.pricing.records = false ∧ u.pricing.records = false)
        ∧ (u.watchers.everything = t.watchers.everything ∧ u.watchers.single = t.watchers.single
          ∧ u.watchers.dimensions = t.watchers.dimensions)
        ∧ t.merges.links = [(0, 1)] ∧ t.plan.entering = some 1 ∧ t.varCount = 3
        ∧ u.varCount = 5 ∧ u.hasBasis = false) .inconsistent) = .ok () := by decide +kernel
  obtain ⟨t₀, ht₀, hrun⟩ := Checked.bind_eq_ok.mp hrun
  obtain ⟨⟨s, v⟩, hv, hrun⟩ := Checked.bind_eq_ok.mp hrun
  obtain ⟨t, ht, hrun⟩ := Checked.bind_eq_ok.mp hrun
  obtain ⟨u, hu, hrun⟩ := Checked.bind_eq_ok.mp hrun
  obtain ⟨⟨r, t₁⟩, ht₁, hrun⟩ := Checked.bind_eq_ok.mp hrun
  obtain ⟨⟨r', u₁⟩, hu₁, hrun⟩ := Checked.bind_eq_ok.mp hrun
  obtain ⟨rfl, rfl, hkind, ⟨hrule, hrule'⟩, ⟨heverything, hsingle, hdimensions⟩, hlinks, hentering,
    hvars, hvars', hbasis⟩ := Checked.require_eq_ok.mp hrun
  -- no run of the two pasts returns to a snapshot, so both tableaux have the shape of one run
  have hnew : ((create (α := Float) {}).watchAll "mirror").Shaped False {} :=
    (shaped_withInverse {} (BasisInverse.shaped_product_identity 0 _)).attend _ _ _
  have hsettings (ops : List (Operation Float)) (hops : ∀ op ∈ ops, ∀ s, op ≠ .restore s)
      {x y : Tableau Float} (hx : x.Shaped False {}) (hy : x.run ops = .ok y) : y.Shaped False {} :=
    (Later.now.run hops hy).shaped hx
  have hshaped : t.Shaped False {} :=
    hsettings _ (by simp) ((save_spec hv).2.shaped (hsettings _ (by simp) hnew ht₀)) ht
  have hshaped' : u.Shaped False {} := hsettings _ (by simp) hnew hu
  have hwatchers : u.watchers = t.watchers := by
    cases hw : t.watchers
    cases hw' : u.watchers
    simp_all
  exact ⟨t, u, t₁, u₁, s, hlinks, hentering, hvars, hvars', hbasis, ht₁, hu₁,
    converse_after_restore (hshaped'.settings.trans hshaped.settings.symm) hkind
      (Pricing.rule_of_records hrule) (Pricing.rule_of_records hrule') hwatchers ht₁ hu₁⟩

end Tableau

end BoundedSimplex
