/-
  BoundedSimplex.Proofs.Checked — outcomes of computations that may end early.

  A computation with an outcome went through all of its parts; a list is worked through entry by
  entry if no entry ends the work.
-/
import BoundedSimplex.Contract

namespace BoundedSimplex

variable {ε β γ σ : Type}

/-- An outcome is reached only through an outcome of the first part, whatever may fail in it. -/
theorem except_bind_eq_ok {x : Except ε β} {f : β → Except ε γ} {c : γ} :
    (x >>= f) = .ok c ↔ ∃ b, x = .ok b ∧ f b = .ok c := by
  cases x with
  | error e =>
    constructor
    · intro h
      cases h
    · rintro ⟨b, h, -⟩
      cases h
  | ok b =>
    constructor
    · intro h
      exact ⟨b, rfl, h⟩
    · rintro ⟨b', hb, h⟩
      cases hb
      exact h

namespace Checked

/-- Every entry has an outcome. -/
theorem mapM_eq_ok {f : β → Checked γ} {g : β → γ} {xs : List β} (h : ∀ x ∈ xs, f x = .ok (g x)) :
    xs.mapM f = .ok (xs.map g) := by
  induction xs with
  | nil => rfl
  | cons x xs ih =>
    rw [List.mapM_cons, h x List.mem_cons_self, ih fun y hy => h y (List.mem_cons_of_mem _ hy)]
    rfl

/-- A pass over a list depends on the function at the elements only. -/
theorem mapM_congr {f g : β → Checked γ} {xs : List β} (h : ∀ x ∈ xs, f x = g x) :
    xs.mapM f = xs.mapM g := by
  induction xs with
  | nil => rfl
  | cons x xs ih =>
    rw [List.mapM_cons, List.mapM_cons, h x List.mem_cons_self,
      ih fun y hy => h y (List.mem_cons_of_mem _ hy)]

/-- Working through a list, position by position: an invariant that every step keeps holds at the
    end. -/
theorem foldlM_inv {f : σ → β → Checked σ} {P : σ → Prop} {xs : List β}
    (hstep : ∀ x ∈ xs, ∀ s t, P s → f s x = .ok t → P t) {s t : σ} (hs : P s)
    (h : xs.foldlM f s = .ok t) : P t := by
  induction xs generalizing s with
  | nil =>
    cases h
    exact hs
  | cons x xs ih =>
    rw [List.foldlM_cons] at h
    obtain ⟨r, hr, h⟩ := bind_eq_ok.mp h
    exact ih (fun y hy => hstep y (List.mem_cons_of_mem _ hy))
      (hstep x List.mem_cons_self s r hs hr) h

/-- Working through a list with its positions: what holds of the first entries is kept from each
    entry to the next. -/
theorem foldlM_zipIdx {f : σ → β × Nat → Checked σ} {P : Nat → σ → Prop} {xs : List β}
    (hstep : ∀ i x, xs[i]? = some x → ∀ s t, P i s → f s (x, i) = .ok t → P (i + 1) t) {s t : σ}
    (hs : P 0 s) (h : xs.zipIdx.foldlM f s = .ok t) : P xs.length t := by
  -- from any position on
  suffices hfrom : ∀ (xs : List β) (k : Nat), (∀ i x, xs[i]? = some x → ∀ s t, P (k + i) s →
      f s (x, k + i) = .ok t → P (k + i + 1) t) → ∀ s, P k s → (xs.zipIdx k).foldlM f s = .ok t →
      P (k + xs.length) t by
    have := hfrom xs 0 (fun i x hx => by rw [Nat.zero_add]; exact hstep i x hx) s hs h
    rwa [Nat.zero_add] at this
  intro xs
  induction xs with
  | nil =>
    intro k _ s hs h
    cases h
    exact hs
  | cons x xs ih =>
    intro k hstep s hs h
    rw [List.zipIdx_cons, List.foldlM_cons] at h
    obtain ⟨r, hr, h⟩ := bind_eq_ok.mp h
    have hr := hstep 0 x rfl s r hs hr
    rw [List.length_cons, Nat.add_comm xs.length, ← Nat.add_assoc]
    refine ih (k + 1) (fun i y hy s t hs ht => ?_) r hr h
    rw [Nat.add_assoc k 1 i, Nat.add_comm 1 i] at hs ht ⊢
    exact hstep (i + 1) y hy s t hs ht

/-- Every entry of the input has its outcome in the output. -/
theorem exists_of_mapM {f : β → Checked γ} {xs : List β} {ys : List γ}
    (h : xs.mapM f = .ok ys) {x : β} (hx : x ∈ xs) : ∃ y ∈ ys, f x = .ok y := by
  induction xs generalizing ys with
  | nil => exact absurd hx List.not_mem_nil
  | cons a xs ih =>
    rw [List.mapM_cons] at h
    obtain ⟨b, hb, h⟩ := Checked.bind_eq_ok.mp h
    obtain ⟨bs, hbs, h⟩ := Checked.bind_eq_ok.mp h
    cases h
    rcases List.mem_cons.mp hx with rfl | hx
    · exact ⟨b, List.mem_cons_self, hb⟩
    · obtain ⟨y, hy, hf⟩ := ih hbs hx
      exact ⟨y, List.mem_cons_of_mem _ hy, hf⟩

/-- Every entry of the output is the outcome of an entry of the input. -/
theorem exists_of_mem_mapM {f : β → Checked γ} {xs : List β} {ys : List γ} (h : xs.mapM f = .ok ys)
    {y : γ} (hy : y ∈ ys) : ∃ x ∈ xs, f x = .ok y := by
  induction xs generalizing ys with
  | nil =>
    cases h
    exact absurd hy List.not_mem_nil
  | cons a xs ih =>
    rw [List.mapM_cons] at h
    obtain ⟨b, hb, h⟩ := Checked.bind_eq_ok.mp h
    obtain ⟨bs, hbs, h⟩ := Checked.bind_eq_ok.mp h
    cases h
    rcases List.mem_cons.mp hy with rfl | hy
    · exact ⟨a, List.mem_cons_self, hb⟩
    · obtain ⟨x, hx, hf⟩ := ih hbs hy
      exact ⟨x, List.mem_cons_of_mem _ hx, hf⟩

/-- A list whose entries all have outcomes has one. -/
theorem exists_mapM {f : β → Checked γ} {xs : List β} (h : ∀ x ∈ xs, ∃ y, f x = .ok y) :
    ∃ ys, xs.mapM f = .ok ys := by
  induction xs with
  | nil => exact ⟨[], rfl⟩
  | cons x xs ih =>
    obtain ⟨y, hy⟩ := h x List.mem_cons_self
    obtain ⟨ys, hys⟩ := ih fun z hz => h z (List.mem_cons_of_mem x hz)
    rw [List.mapM_cons, hy, hys]
    exact ⟨y :: ys, rfl⟩

/-- A test whose entries all have outcomes has one. -/
theorem exists_allM {f : β → Checked Bool} {xs : List β} (h : ∀ x ∈ xs, ∃ b, f x = .ok b) :
    ∃ b, xs.allM f = .ok b := by
  induction xs with
  | nil => exact ⟨true, rfl⟩
  | cons x xs ih =>
    obtain ⟨b, hb⟩ := h x List.mem_cons_self
    unfold List.allM
    rw [hb]
    cases b with
    | true => exact ih fun z hz => h z (List.mem_cons_of_mem x hz)
    | false => exact ⟨false, rfl⟩

/-! ## Outcomes that are there -/

/-- A part with a known outcome. -/
theorem ok_bind (b : β) (f : β → Checked γ) : (Except.ok b >>= f) = f b := rfl

/-- A computation has an outcome if its first part has one and the rest has one from there. -/
theorem exists_bind {x : Checked β} {f : β → Checked γ} (hx : ∃ b, x = .ok b)
    (hf : ∀ b, x = .ok b → ∃ c, f b = .ok c) : ∃ c, (x >>= f) = .ok c := by
  obtain ⟨b, hb⟩ := hx
  obtain ⟨c, hc⟩ := hf b hb
  exact ⟨c, bind_eq_ok.mpr ⟨b, hb, hc⟩⟩

/-- The same if it is known which outcome the first part has. -/
theorem exists_bind_of_ok {x : Checked β} {f : β → Checked γ} {b : β} (hx : x = .ok b)
    (hf : ∃ c, f b = .ok c) : ∃ c, (x >>= f) = .ok c := by
  rw [hx, ok_bind]
  exact hf

/-- What holds can be demanded. -/
theorem require_of {p : Prop} [Decidable p] {cause : Violation} (h : p) :
    require p cause = .ok () :=
  require_eq_ok.mpr h

theorem exists_require {p : Prop} [Decidable p] {cause : Violation} (h : p) :
    ∃ u, require p cause = .ok u :=
  ⟨(), require_of h⟩

/-- A position of the list can be read. -/
theorem exists_getAt {xs : List β} {i : Nat} (h : i < xs.length) : ∃ x, getAt xs i = .ok x :=
  ⟨xs[i], getAt_eq_ok.mpr (List.getElem?_eq_getElem h)⟩

/-- An entry at a position that exists, whatever stands for the others. -/
theorem getAt_eq_getD {xs : List β} {i : Nat} (hi : i < xs.length) (default : β) :
    getAt xs i = .ok (xs.getD i default) := by
  rw [getAt_eq_ok, List.getD_eq_getElem?_getD, List.getElem?_eq_getElem hi]
  rfl

/-- A position of the list can be written. -/
theorem exists_setAt {xs : List β} {i : Nat} (h : i < xs.length) (x : β) :
    ∃ ys, setAt xs i x = .ok ys :=
  ⟨_, setAt_eq_ok.mpr ⟨h, rfl⟩⟩

/-- Working through a list: if every step that starts from what the steps keep has an
    outcome, so has the whole. -/
theorem exists_foldlM {f : σ → β → Checked σ} {P : σ → Prop} {xs : List β}
    (hstep : ∀ x ∈ xs, ∀ s, P s → ∃ t, f s x = .ok t ∧ P t) {s : σ} (hs : P s) :
    ∃ t, xs.foldlM f s = .ok t ∧ P t := by
  induction xs generalizing s with
  | nil => exact ⟨s, rfl, hs⟩
  | cons x xs ih =>
    obtain ⟨t, ht, hp⟩ := hstep x List.mem_cons_self s hs
    rw [List.foldlM_cons, ht]
    exact ih (fun y hy => hstep y (List.mem_cons_of_mem _ hy)) hp

/-- Working through a list in steps that always have an outcome. -/
theorem exists_foldlM_of_forall {f : σ → β → Checked σ} {xs : List β}
    (hstep : ∀ x ∈ xs, ∀ s, ∃ t, f s x = .ok t) (s : σ) : ∃ t, xs.foldlM f s = .ok t := by
  obtain ⟨t, ht, -⟩ := exists_foldlM (P := fun _ => True) (fun x hx s _ => by
    obtain ⟨t, ht⟩ := hstep x hx s
    exact ⟨t, ht, trivial⟩) (s := s) trivial
  exact ⟨t, ht⟩

/-- Working through a list in steps whose outcomes are known as long as an invariant holds,
    which the steps keep. -/
theorem foldlM_eq_ok {f : σ → β → Checked σ} {g : σ → β → σ} {P : σ → Prop} {xs : List β}
    (hstep : ∀ x ∈ xs, ∀ s, P s → f s x = .ok (g s x) ∧ P (g s x)) {s : σ} (hs : P s) :
    xs.foldlM f s = .ok (xs.foldl g s) ∧ P (xs.foldl g s) := by
  induction xs generalizing s with
  | nil => exact ⟨rfl, hs⟩
  | cons x xs ih =>
    obtain ⟨hx, hp⟩ := hstep x List.mem_cons_self s hs
    rw [List.foldlM_cons, hx]
    exact ih (fun y hy => hstep y (List.mem_cons_of_mem _ hy)) hp

/-- The same from the last entry on. -/
theorem foldrM_eq_ok {f : β → σ → Checked σ} {g : β → σ → σ} {P : σ → Prop} {xs : List β}
    (hstep : ∀ x ∈ xs, ∀ s, P s → f x s = .ok (g x s) ∧ P (g x s)) {s : σ} (hs : P s) :
    xs.foldrM f s = .ok (xs.foldr g s) ∧ P (xs.foldr g s) := by
  induction xs with
  | nil => exact ⟨rfl, hs⟩
  | cons x xs ih =>
    obtain ⟨hxs, hp⟩ := ih fun y hy => hstep y (List.mem_cons_of_mem _ hy)
    rw [List.foldrM_cons, hxs]
    exact hstep x List.mem_cons_self _ hp

/-- A list is paired with one that is at least as long. -/
theorem zip?_eq {xs : List β} {ys : List γ} (h : xs.length ≤ ys.length) :
    zip? xs ys = .ok (xs.zip ys) := by
  -- from any position of the second list on
  suffices hfrom : ∀ (xs : List β) (k : Nat), k + xs.length ≤ ys.length →
      ((xs.zipIdx k).mapM fun p => do return (p.1, ← getAt ys p.2) : Checked (List (β × γ)))
        = .ok (xs.zip (ys.drop k)) by
    exact hfrom xs 0 (by omega)
  intro xs
  induction xs with
  | nil => exact fun _ _ => rfl
  | cons x xs ih =>
    intro k hk
    rw [List.length_cons] at hk
    have hget : getAt ys k = .ok ys[k] := getAt_eq_ok.mpr (List.getElem?_eq_getElem (by omega))
    rw [List.zipIdx_cons, List.mapM_cons, hget, ih (k + 1) (by omega),
      List.drop_eq_getElem_cons (by omega : k < ys.length)]
    rfl

/-- There are as many outcomes as entries. -/
theorem length_of_mapM {f : β → Checked γ} {xs : List β} {ys : List γ} (h : xs.mapM f = .ok ys) :
    ys.length = xs.length := by
  induction xs generalizing ys with
  | nil =>
    cases h
    rfl
  | cons a xs ih =>
    rw [List.mapM_cons] at h
    obtain ⟨b, _, h⟩ := Checked.bind_eq_ok.mp h
    obtain ⟨bs, hbs, h⟩ := Checked.bind_eq_ok.mp h
    cases h
    rw [List.length_cons, List.length_cons, ih hbs]

end Checked

end BoundedSimplex
