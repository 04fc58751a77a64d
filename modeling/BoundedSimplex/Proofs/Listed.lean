/-
  BoundedSimplex.Proofs.Listed — lists that are described position by position.

  The rows of a matrix, its columns, the variables of a basis: each is a list of known length, about
  whose entry at every position something is known.  The operations on lists carry such descriptions
  along, and writing down a list of places leaves at every place what was written there.
-/
import Mathlib.Data.List.Basic

namespace BoundedSimplex

/-- A list of `n` things, the one at position `i` with property `p i`. -/
structure Listed {β : Type} (n : Nat) (p : Nat → β → Prop) (xs : List β) : Prop where
  length : xs.length = n
  each : ∀ i < n, ∃ x, xs[i]? = some x ∧ p i x

namespace Listed

variable {β : Type} {n : Nat} {p : Nat → β → Prop} {xs : List β}

/-- What is found at an index holds there. -/
theorem of_getElem? (h : Listed n p xs) {i : Nat} {x : β} (hx : xs[i]? = some x) : p i x := by
  have hi : i < n := by
    rw [← h.length]
    exact (List.getElem?_eq_some_iff.mp hx).1
  obtain ⟨y, hy, hp⟩ := h.each i hi
  rw [hx] at hy
  cases hy
  exact hp

/-- A weaker statement about each index. -/
theorem imp {q : Nat → β → Prop} (h : Listed n p xs) (hpq : ∀ i < n, ∀ x, p i x → q i x) :
    Listed n q xs :=
  ⟨h.length, fun i hi => (h.each i hi).imp fun x hx => ⟨hx.1, hpq i hi x hx.2⟩⟩

/-- Changing the thing at one position. -/
theorem modify {q : Nat → β → Prop} (h : Listed n p xs) (i : Nat) (f : β → β)
    (hi : ∀ x, p i x → q i (f x)) (hne : ∀ k < n, k ≠ i → ∀ x, p k x → q k x) :
    Listed n q (xs.modify i f) := by
  refine ⟨by rw [List.length_modify, h.length], fun k hk => ?_⟩
  obtain ⟨x, hx, hp⟩ := h.each k hk
  rw [List.getElem?_modify, hx]
  by_cases hik : i = k
  · subst hik
    exact ⟨f x, by simp, hi x hp⟩
  · exact ⟨x, by simp [hik], hne k hk (Ne.symm hik) x hp⟩

/-- Replacing the thing at one position. -/
theorem set (h : Listed n p xs) (i : Nat) {x : β} (hx : p i x) : Listed n p (xs.set i x) := by
  refine ⟨by rw [List.length_set, h.length], fun k hk => ?_⟩
  rw [List.getElem?_set]
  by_cases hik : i = k
  · subst hik
    rw [if_pos rfl, if_pos (h.length ▸ hk)]
    exact ⟨x, rfl, hx⟩
  · rw [if_neg hik]
    exact h.each k hk

/-- The images have what follows for them, index by index. -/
theorem map {γ : Type} {q : Nat → γ → Prop} (h : Listed n p xs) (f : β → γ)
    (hf : ∀ i < n, ∀ x, p i x → q i (f x)) : Listed n q (xs.map f) := by
  refine ⟨by rw [List.length_map, h.length], fun i hi => ?_⟩
  obtain ⟨x, hx, hp⟩ := h.each i hi
  exact ⟨f x, by rw [List.getElem?_map, hx, Option.map_some], hf i hi x hp⟩

/-- One more thing, at the end. -/
theorem concat (h : Listed n p xs) {x : β} (hx : p n x) : Listed (n + 1) p (xs ++ [x]) := by
  refine ⟨by rw [List.length_append, h.length, List.length_singleton], fun i hi => ?_⟩
  by_cases hin : i < n
  · rw [List.getElem?_append_left (h.length ▸ hin)]
    exact h.each i hin
  · have : i = n := by omega
    subst this
    exact ⟨x, by rw [← h.length]; simp, hx⟩

/-- A list of equal elements. -/
theorem replicate (n : Nat) {x : β} (h : ∀ i < n, p i x) : Listed n p (List.replicate n x) :=
  ⟨List.length_replicate, fun i hi => ⟨x, by simp [hi], h i hi⟩⟩

end Listed

/-- A list is determined by its entries. -/
theorem eq_map_range_of_getElem? {β : Type} {n : Nat} {xs : List β} {f : Nat → β}
    (hl : xs.length = n) (h : ∀ i < n, xs[i]? = some (f i)) : xs = (List.range n).map f := by
  apply List.ext_getElem?
  intro i
  by_cases hi : i < n
  · rw [h i hi, List.getElem?_map, List.getElem?_range hi, Option.map_some]
  · rw [List.getElem?_eq_none (by omega), List.getElem?_eq_none (by simpa using hi)]

/-- Reading a list with one entry replaced. -/
theorem getD_set {β : Type} {xs : List β} {i : Nat} (hi : i < xs.length) (x : β) (k : Nat) (d : β) :
    (xs.set i x).getD k d = if k = i then x else xs.getD k d := by
  rw [List.getD_eq_getElem?_getD, List.getElem?_set]
  by_cases hk : k = i
  · rw [if_pos hk.symm, if_pos hi, if_pos hk, Option.getD_some]
  · rw [if_neg (Ne.symm hk), if_neg hk, ← List.getD_eq_getElem?_getD]

/-- Changing an entry that is known is replacing it. -/
theorem modify_of_getElem? {β : Type} {xs : List β} {i : Nat} {x : β} (h : xs[i]? = some x)
    (f : β → β) : xs.modify i f = xs.set i (f x) := by
  apply List.ext_getElem?
  intro k
  rw [List.getElem?_modify, List.getElem?_set]
  by_cases hik : i = k
  · subst hik
    rw [h, if_pos rfl, if_pos (List.getElem?_eq_some_iff.mp h).1]
    simp
  · simp [hik]

/-- Another entry for the time being. -/
theorem set_set_of_getElem? {β : Type} {xs : List β} {i : Nat} {x : β}
    (h : xs[i]? = some x) (y : β) :
    (xs.set i y).set i x = xs := by
  rw [List.set_set]
  obtain ⟨hi, rfl⟩ := List.getElem?_eq_some_iff.mp h
  exact List.set_getElem_self hi

/-! ## Writing down a list of places -/

section Places

variable {β γ : Type} {place : γ → Nat} {entry : γ → β} {qs : List γ} {xs : List β}

/-- Writing adds no elements. -/
theorem length_foldl_set :
    (qs.foldl (fun xs q => xs.set (place q) (entry q)) xs).length = xs.length := by
  induction qs generalizing xs with
  | nil => rfl
  | cons q qs ih => rw [List.foldl_cons, ih, List.length_set]

/-- A place that is not on the list keeps its entry. -/
theorem getElem?_foldl_set_of_ne {i : Nat} (hne : ∀ q ∈ qs, place q ≠ i) :
    (qs.foldl (fun xs q => xs.set (place q) (entry q)) xs)[i]? = xs[i]? := by
  induction qs generalizing xs with
  | nil => rfl
  | cons q qs ih =>
    rw [List.foldl_cons, ih fun r hr => hne r (List.mem_cons_of_mem q hr),
      List.getElem?_set_ne (hne q List.mem_cons_self)]

/-- A place that is on the list once gets the entry next to it. -/
theorem getElem?_foldl_set (hqs : (qs.map place).Nodup) {q : γ} (hq : q ∈ qs)
    (hlt : place q < xs.length) :
    (qs.foldl (fun xs q => xs.set (place q) (entry q)) xs)[place q]? = some (entry q) := by
  induction qs generalizing xs with
  | nil => exact absurd hq List.not_mem_nil
  | cons r qs ih =>
    rw [List.map_cons, List.nodup_cons] at hqs
    rw [List.foldl_cons]
    rcases List.mem_cons.mp hq with rfl | hq
    · have hne : ∀ r ∈ qs, place r ≠ place q := by
        intro r hr heq
        exact hqs.1 (List.mem_map.mpr ⟨r, hr, heq⟩)
      rw [getElem?_foldl_set_of_ne hne, List.getElem?_set_self hlt]
    · exact ih hqs.2 hq (by rwa [List.length_set])

end Places

end BoundedSimplex
