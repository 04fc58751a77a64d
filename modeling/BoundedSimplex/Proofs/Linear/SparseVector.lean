/-
  BoundedSimplex.Proofs.Linear.SparseVector — what a list of stored entries means.

  `weight` adds up the numbers that a list of entries holds for an index.  In exact arithmetic a
  vector that stores finite numbers stands for a function of the field.

  Main results:
    * `represents_iff` — storing finite numbers is storing the function of the field;
    * `Represents.dot_eq`, `Represents.addTo_eq` — the operations with dense vectors.
-/
import BoundedSimplex.Proofs.Linear.SparseStorage
import BoundedSimplex.Proofs.Numbers
import Mathlib.Algebra.BigOperators.Ring.Finset
import Mathlib.Tactic.Ring

namespace BoundedSimplex

open Extended

variable {K : Type} [Field K] [LinearOrder K]

/-! ## §1.  Entries and their weights -/

/-- What a list of entries holds for an index. -/
def weight : List (Nat × Extended K) → Nat → K
  | [], _ => 0
  | (i, x) :: ps, k => (if k = i then x.val else 0) + weight ps k

/-- Every number of a list of entries is finite, every index is below `n`. -/
structure Entries (n : Nat) (ps : List (Nat × Extended K)) : Prop where
  finite : ∀ p ∈ ps, Scalar.isFinite p.2 = true
  inRange : ∀ p ∈ ps, p.1 < n

omit [LinearOrder K] in
/-- An index without an entry has weight zero. -/
theorem weight_of_forall_ne {ps : List (Nat × Extended K)} {k : Nat} (h : ∀ p ∈ ps, p.1 ≠ k) :
    weight ps k = 0 := by
  induction ps with
  | nil => rfl
  | cons p ps ih =>
    have hp : k ≠ p.1 := (h p List.mem_cons_self).symm
    rw [weight, if_neg hp, ih fun q hq => h q (List.mem_cons_of_mem _ hq), add_zero]

omit [LinearOrder K] in
/-- With one entry for each index, the weight is the stored number. -/
theorem weight_of_mem {ps : List (Nat × Extended K)} (hd : (ps.map Prod.fst).Nodup)
    {p : Nat × Extended K} (hp : p ∈ ps) : weight ps p.1 = p.2.val := by
  induction ps with
  | nil => simp at hp
  | cons q ps ih =>
    obtain ⟨hq, hd⟩ := List.nodup_cons.mp hd
    rcases List.mem_cons.mp hp with rfl | hp
    · rw [weight, if_pos rfl, weight_of_forall_ne, add_zero]
      exact fun r hr e => hq (e ▸ List.mem_map_of_mem (f := Prod.fst) hr)
    · have hne : p.1 ≠ q.1 := fun e => hq (e ▸ List.mem_map_of_mem (f := Prod.fst) hp)
      rw [weight, if_neg hne, zero_add, ih hd hp]

omit [LinearOrder K] in
/-- The sum over the entries is the sum over the indices. -/
theorem sum_entries {n : Nat} {ps : List (Nat × Extended K)} (hr : ∀ p ∈ ps, p.1 < n)
    (f : Nat → K) :
    (ps.map fun p => p.2.val * f p.1).sum = ∑ k ∈ Finset.range n, weight ps k * f k := by
  induction ps with
  | nil => simp [weight]
  | cons p ps ih =>
    have hp : p.1 ∈ Finset.range n := Finset.mem_range.mpr (hr p List.mem_cons_self)
    rw [List.map_cons, List.sum_cons, ih fun q hq => hr q (List.mem_cons_of_mem _ hq)]
    simp only [weight, add_mul, Finset.sum_add_distrib, ite_mul, zero_mul]
    rw [Finset.sum_ite_eq' _ p.1 fun k => p.2.val * f k, if_pos hp]

/-- Adding multiples of the entries to a dense vector, one after the other. -/
theorem numbers_foldl_modify {n : Nat} (g : Extended K → Extended K → Extended K) (c : K)
    (hg : ∀ x y : K, g (fin x) (fin y) = fin (y + c * x)) :
    ∀ (ps : List (Nat × Extended K)) (xs : List (Extended K)), Entries n ps → Numbers n xs →
      Numbers n (ps.foldl (fun ys p => ys.modify p.1 (g p.2)) xs)
        ∧ ∀ k < n, coord (ps.foldl (fun ys p => ys.modify p.1 (g p.2)) xs) k
            = coord xs k + c * weight ps k := by
  intro ps
  induction ps with
  | nil => exact fun xs _ hx => ⟨hx, fun k _ => by simp [weight]⟩
  | cons p ps ih =>
    intro xs hp hx
    obtain ⟨i, y⟩ := p
    have hi : i < n := hp.inRange (i, y) List.mem_cons_self
    obtain ⟨a, rfl⟩ := isFinite_iff.mp (hp.finite (i, y) List.mem_cons_self)
    -- the head is a write, so the induction goes over the written list
    have hm : xs.modify i (g (fin a)) = xs.set i (fin (coord xs i + c * a)) := by
      rw [hx.modify_eq hi, hg]
    have hps : Entries n ps := ⟨fun q hq => hp.finite q (List.mem_cons_of_mem _ hq),
      fun q hq => hp.inRange q (List.mem_cons_of_mem _ hq)⟩
    obtain ⟨hn, hc⟩ := ih (xs.set i (fin (coord xs i + c * a))) hps (hx.set i _)
    rw [List.foldl_cons, hm]
    refine ⟨hn, fun k hk => ?_⟩
    rw [hc k hk, coord_set (by rw [hx.length]; exact hi), weight]
    by_cases hki : k = i
    · subst hki
      rw [if_pos rfl, if_pos rfl, val_fin]
      ring
    · simp [hki]

namespace SparseVector

/-! ## §2.  The function that is stored -/

/-- The vector has length `n`, stores the nonzero values of `f` there, each
    once, and nothing else. -/
structure Represents (v : SparseVector (Extended K)) (n : Nat) (f : Nat → K) : Prop where
  length : v.length = n
  entries : Entries n v.entries
  distinct : (v.entries.map Prod.fst).Nodup
  nonzero : ∀ p ∈ v.entries, p.2 ≠ fin 0
  weight : ∀ k < n, weight v.entries k = f k

/-- A stored entry holds the value of the function. -/
theorem Represents.of_mem {v : SparseVector (Extended K)} {n : Nat} {f : Nat → K}
    (h : v.Represents n f) {p : Nat × Extended K} (hp : p ∈ v.entries) : p.2 = fin (f p.1) := by
  rw [← h.weight p.1 (h.entries.inRange p hp), weight_of_mem h.distinct hp,
    fin_val (h.entries.finite p hp)]

/-- Storing finite numbers is storing the function of the field. -/
theorem represents_iff {v : SparseVector (Extended K)} {n : Nat} {f : Nat → K} :
    v.Represents n f ↔ v.Stores n fun k => fin (f k) := by
  constructor
  · intro h
    refine ⟨h.length, perm_nonzeros h.distinct fun p => ⟨fun hp => ?_, ?_⟩⟩
    · refine ⟨h.entries.inRange p hp, isZero_fin.mpr fun hz => ?_, h.of_mem hp⟩
      exact h.nonzero p hp (by rw [h.of_mem hp, hz])
    · rintro ⟨hlt, hne, hp⟩
      -- an index without an entry would have weight zero
      by_contra hmem
      apply isZero_fin.mp hne
      rw [← h.weight p.1 hlt]
      refine weight_of_forall_ne fun q hq e => hmem ?_
      have hqp : q = p := Prod.ext e (by rw [h.of_mem hq, hp, e])
      exact hqp ▸ hq
  · intro h
    have hval : ∀ p ∈ v.entries, p.2 = fin (f p.1) ∧ f p.1 ≠ 0 := fun p hp =>
      ⟨(h.mem_iff.mp hp).2.2, isZero_fin.mp (h.mem_iff.mp hp).2.1⟩
    refine ⟨h.length, ⟨fun p hp => ?_, fun p hp => (h.mem_iff.mp hp).1⟩, h.distinct,
      fun p hp hz => ?_, fun k hk => ?_⟩
    · rw [(hval p hp).1]
      rfl
    · rw [(hval p hp).1] at hz
      exact (hval p hp).2 (fin.inj hz)
    · by_cases hf : f k = 0
      · rw [hf]
        exact weight_of_forall_ne fun p hp e => (hval p hp).2 (e ▸ hf)
      · have hmem : (k, fin (f k)) ∈ v.entries := h.mem_iff.mpr ⟨hk, isZero_fin.mpr hf, rfl⟩
        exact weight_of_mem h.distinct hmem

namespace Represents

variable {v : SparseVector (Extended K)} {n : Nat} {f : Nat → K}

/-- The entries of a represented vector are at indices below its length. -/
theorem inRange (h : v.Represents n f) : v.InRange :=
  fun p hp => h.length.symm ▸ h.entries.inRange p hp

/-- Only the coordinates below the length count. -/
theorem congr {g : Nat → K} (h : v.Represents n f) (hg : ∀ k < n, f k = g k) :
    v.Represents n g :=
  { h with weight := fun k hk => (h.weight k hk).trans (hg k hk) }

/-! ## §3.  Products with dense vectors -/

/-- The product with a dense vector is exact, in whatever order the entries are stored. -/
theorem dot_eq (h : v.Represents n f) {xs : List (Extended K)} (hx : Numbers n xs) :
    v.dot xs = .ok (fin (∑ k ∈ Finset.range n, f k * coord xs k)) := by
  have hmap : (v.entries.map fun p => p.2 * xs.getD p.1 0)
      = (v.entries.map fun p => p.2.val * coord xs p.1).map fin := by
    rw [List.map_map]
    apply List.map_congr_left
    intro p hp
    rw [hx.getD (h.entries.inRange p hp), ← fin_val (h.entries.finite p hp)]
    rfl
  have hlen : xs.length = v.length := by rw [hx.length, h.length]
  rw [h.inRange.dot_eq hlen, hmap, sum_map_fin, sum_entries h.entries.inRange]
  congr 2
  apply Finset.sum_congr rfl
  intro k hk
  rw [h.weight k (Finset.mem_range.mp hk)]

/-- A multiple of the vector is added at every coordinate. -/
theorem addTo_eq (h : v.Represents n f) {xs : List (Extended K)} (hx : Numbers n xs) (c : K) :
    ∃ ys, v.addTo (fin c) xs = .ok ys ∧ Numbers n ys
      ∧ ∀ k < n, coord ys k = coord xs k + c * f k := by
  have hlen : xs.length = v.length := by rw [hx.length, h.length]
  obtain ⟨hn, hc⟩ := numbers_foldl_modify (fun y x => x + fin c * y) c
    (fun x y => by simp) v.entries xs h.entries hx
  exact ⟨_, h.inRange.addTo_eq hlen _, hn, fun k hk => by rw [hc k hk, h.weight k hk]⟩

end Represents

end SparseVector

end BoundedSimplex
