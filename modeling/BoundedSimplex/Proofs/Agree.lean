/-
  BoundedSimplex.Proofs.Agree — two computations side by side.

  Two computations agree if both have results that stand in a relation, or both end for the same
  cause.  Computations made of agreeing parts agree.

  Main results:
    * `Agree.bind` — parts that agree make wholes that agree;
    * `Agree.step` — a part that both have in common;
    * `Agree.foldlM` — working through the same list.
-/
import BoundedSimplex.Contract

namespace BoundedSimplex

variable {ε β γ δ η : Type} {R : β → γ → Prop} {S : δ → η → Prop}

/-- Both computations have results, which stand in a relation, or both end for the same cause. -/
inductive Agree (R : β → γ → Prop) : Except ε β → Except ε γ → Prop
  | ok {b : β} {c : γ} (related : R b c) : Agree R (.ok b) (.ok c)
  | error (cause : ε) : Agree R (.error cause) (.error cause)

namespace Agree

theorem ok_iff {b : β} {c : γ} : Agree R (.ok b : Except ε β) (.ok c) ↔ R b c := by
  constructor
  · rintro ⟨h⟩
    exact h
  · exact .ok

/-- A computation agrees with itself. -/
theorem refl {R : β → β → Prop} (hR : ∀ b, R b b) (x : Except ε β) : Agree R x x := by
  cases x with
  | ok b => exact .ok (hR b)
  | error e => exact .error e

/-- Results that agree in one way agree in any weaker one. -/
theorem mono {R' : β → γ → Prop} {x : Except ε β} {y : Except ε γ} (h : Agree R x y)
    (hR : ∀ b c, R b c → R' b c) : Agree R' x y := by
  cases h with
  | ok related => exact .ok (hR _ _ related)
  | error e => exact .error e

/-- **Parts that agree make wholes that agree.**  What follows may use where the
    results came from. -/
theorem bind {x : Except ε β} {y : Except ε γ} {f : β → Except ε δ} {g : γ → Except ε η}
    (h : Agree R x y)
    (hfg : ∀ b c, x = .ok b → y = .ok c → R b c → Agree S (f b) (g c)) :
    Agree S (x >>= f) (y >>= g) := by
  cases h with
  | ok related => exact hfg _ _ rfl rfl related
  | error e => exact .error e

/-- A part that both sides have in common. -/
theorem step (x : Except ε β) {f : β → Except ε δ} {g : β → Except ε η}
    (h : ∀ b, x = .ok b → Agree S (f b) (g b)) : Agree S (x >>= f) (x >>= g) := by
  cases x with
  | ok b => exact h b rfl
  | error e => exact .error e

/-- Working through the same list, position by position. -/
theorem foldlM {f : γ → β → Except ε γ} {g : δ → β → Except ε δ} {R : γ → δ → Prop}
    (xs : List β) (h : ∀ x ∈ xs, ∀ s t, R s t → Agree R (f s x) (g t x)) {s : γ} {t : δ}
    (hst : R s t) : Agree R (xs.foldlM f s) (xs.foldlM g t) := by
  induction xs generalizing s t with
  | nil => exact .ok hst
  | cons x xs ih =>
    rw [List.foldlM_cons, List.foldlM_cons]
    exact (h x List.mem_cons_self s t hst).bind fun s' t' _ _ hst' =>
      ih (fun y hy => h y (List.mem_cons_of_mem _ hy)) hst'

end Agree

end BoundedSimplex
