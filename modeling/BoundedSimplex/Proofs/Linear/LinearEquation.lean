/-
  BoundedSimplex.Proofs.Linear.LinearEquation — what a linear equation says about numbers.

  The residual of an equation is its left-hand side less its right-hand side, term by term, however
  often a variable occurs.  Proper bounds on the variables give proper bounds on the residual.

  Main results:
    * `residual_spec` — the residual under finite values;
    * `extendInterval_cases` — what one term does to an interval;
    * `residualBounds_spec` — its bounds are proper.
-/
import BoundedSimplex.Linear.LinearEquation
import BoundedSimplex.Proofs.Checked
import BoundedSimplex.Proofs.Numbers

namespace BoundedSimplex.LinearEquation

open Extended

variable {K : Type} [Field K] [LinearOrder K] {e : LinearEquation (Extended K)}

/-- All numbers of the equation are finite. -/
structure IsFinite (e : LinearEquation (Extended K)) : Prop where
  scalar : ∃ b, e.scalar = fin b
  terms : ∀ t ∈ e.terms, ∃ c, t.coefficient = fin c

/-- The left-hand side under an assignment. -/
def weigh (e : LinearEquation (Extended K)) (s : Nat → K) : K :=
  (e.terms.map fun t => t.coefficient.val * s t.var).sum

omit [Field K] [LinearOrder K] in
/-- Other names for the variables do not change the numbers. -/
theorem IsFinite.rename (h : e.IsFinite) (f : Nat → Nat) : (e.rename f).IsFinite := by
  refine ⟨h.scalar, fun t ht => ?_⟩
  obtain ⟨t', ht', rfl⟩ := List.mem_map.mp ht
  exact h.terms t' ht'

/-- The products of a list of terms. -/
theorem mapM_products {value : Nat → Checked (Extended K)} {s : Nat → K} {n : Nat}
    (hv : ∀ v x, value v = .ok x → v < n ∧ x = fin (s v)) :
    ∀ {ts : List (Term (Extended K))} {ps : List (Extended K)},
      (∀ t ∈ ts, ∃ c, t.coefficient = fin c) →
      (ts.mapM fun t => do return t.coefficient * (← value t.var)) = (Except.ok ps : Checked _) →
      ps = (ts.map fun t => t.coefficient.val * s t.var).map fin ∧ ∀ t ∈ ts, t.var < n := by
  intro ts
  induction ts with
  | nil =>
    intro ps _ h
    cases h
    exact ⟨rfl, fun t ht => nomatch ht⟩
  | cons t ts ih =>
    intro ps hfin h
    -- The first product, then the others.
    rw [List.mapM_cons] at h
    obtain ⟨p, hp, h⟩ := Checked.bind_eq_ok.mp h
    obtain ⟨qs, hqs, h⟩ := Checked.bind_eq_ok.mp h
    obtain ⟨x, hx, hp⟩ := Checked.bind_eq_ok.mp hp
    obtain ⟨hlt, rfl⟩ := hv _ _ hx
    obtain ⟨c, hc⟩ := hfin t List.mem_cons_self
    obtain ⟨rfl, hall⟩ := ih (fun t' ht' => hfin t' (List.mem_cons_of_mem t ht')) hqs
    cases hp
    cases h
    refine ⟨?_, fun t' ht' => ?_⟩
    · rw [List.map_cons, List.map_cons, hc, val_fin, fin_mul]
    · rcases List.mem_cons.mp ht' with rfl | ht'
      · exact hlt
      · exact hall t' ht'

/-- **The residual** under values that are finite. -/
theorem residual_spec (he : e.IsFinite) {value : Nat → Checked (Extended K)} {s : Nat → K} {n : Nat}
    (hv : ∀ v x, value v = .ok x → v < n ∧ x = fin (s v)) {x : Extended K}
    (h : e.residual value = .ok x) :
    x = fin (e.weigh s - e.scalar.val) ∧ ∀ t ∈ e.terms, t.var < n := by
  obtain ⟨ps, hps, h⟩ := Checked.bind_eq_ok.mp h
  obtain ⟨rfl, hall⟩ := mapM_products hv he.terms hps
  obtain ⟨b, hb⟩ := he.scalar
  cases h
  refine ⟨?_, hall⟩
  rw [sum_map_fin, hb, val_fin, fin_sub]
  rfl

/-- **What one term does to an interval**: nothing if its coefficient is zero, else it adds the
    products with the bounds of its variable, which a negative coefficient takes in reverse. -/
theorem extendInterval_cases {lower upper : Nat → Checked (Extended K)}
    {t : Term (Extended K)} {c : K} (hc : t.coefficient = fin c) {i i' : Extended K × Extended K}
    (h : extendInterval lower upper i t = .ok i') :
    c = 0 ∧ i' = i
      ∨ ∃ l u, lower t.var = .ok l ∧ upper t.var = .ok u
          ∧ (0 < c ∧ i' = (i.1 + fin c * l, i.2 + fin c * u)
            ∨ c < 0 ∧ i' = (i.1 + fin c * u, i.2 + fin c * l)) := by
  unfold extendInterval at h
  rw [hc, zero_eq, fin_beq] at h
  split at h
  · next hz =>
    cases h
    exact .inl ⟨of_decide_eq_true hz, rfl⟩
  · next hz =>
    have hz : c ≠ 0 := by simpa using hz
    obtain ⟨l, hl, h⟩ := Checked.bind_eq_ok.mp h
    obtain ⟨u, hu, h⟩ := Checked.bind_eq_ok.mp h
    refine .inr ⟨l, u, hl, hu, ?_⟩
    split at h
    · next hpos =>
      cases h
      exact .inl ⟨(fin_lt_fin 0 c).mp hpos, rfl⟩
    · next hneg =>
      cases h
      exact .inr ⟨lt_of_le_of_ne (not_lt.mp fun h => hneg ((fin_lt_fin 0 c).mpr h)) hz, rfl⟩

section Bounds

variable [IsStrictOrderedRing K]

/-- **The bounds of the residual are proper** if those of the variables are. -/
theorem residualBounds_spec (he : e.IsFinite) {lower upper : Nat → Checked (Extended K)}
    (hl : ∀ v l, lower v = .ok l → l < Scalar.infinity)
    (hu : ∀ v u, upper v = .ok u → -Scalar.infinity < u) {l u : Extended K}
    (h : e.residualBounds lower upper = .ok (l, u)) :
    l < Scalar.infinity ∧ -Scalar.infinity < u := by
  obtain ⟨b, hb⟩ := he.scalar
  have hstart : (-e.scalar, -e.scalar).1 < (Scalar.infinity : Extended K)
      ∧ -(Scalar.infinity : Extended K) < (-e.scalar, -e.scalar).2 := by
    rw [hb]
    exact ⟨rfl, rfl⟩
  -- the interval stays proper term by term
  refine Checked.foldlM_inv (P := fun i : Extended K × Extended K =>
    i.1 < Scalar.infinity ∧ -Scalar.infinity < i.2) (fun t ht i i' hi hi' => ?_) hstart h
  obtain ⟨c, hc⟩ := he.terms t ht
  rcases extendInterval_cases hc hi' with ⟨-, rfl⟩ | ⟨l', u', hl', hu', hsign⟩
  · exact hi
  · have hlow := hl _ _ hl'
    have hupp := hu _ _ hu'
    rcases hsign with ⟨hpos, rfl⟩ | ⟨hneg, rfl⟩
    · exact ⟨lower_add hi.1 (lower_mul_of_pos hpos hlow),
        upper_add hi.2 (upper_mul_of_pos hpos hupp)⟩
    · exact ⟨lower_add hi.1 (lower_mul_of_neg hneg hupp),
        upper_add hi.2 (upper_mul_of_neg hneg hlow)⟩

end Bounds

end BoundedSimplex.LinearEquation
