/-
  BoundedSimplex.Proofs.Numbers — lists of finite numbers as vectors over the field.

  The tableau works on lists.  A list of `n` finite numbers is a vector: `coord` reads its entries
  as elements of the field, `embed` writes a vector down, and the sums of the arithmetic are the
  sums of the field.

  Main results:
    * `Numbers.ext` — such a list is given by its length and its coordinates;
    * `Numbers.eq_embed` — it is the list of a vector;
    * `Numbers.sum_eq`, `Numbers.dot_eq` — sums and inner products.
-/
import BoundedSimplex.Proofs.Extended
import BoundedSimplex.Proofs.Listed
import Mathlib.Algebra.BigOperators.Fin

namespace BoundedSimplex

open Extended

variable {K : Type} [Field K] [LinearOrder K]

/-! ## §1.  Coordinates -/

/-- The entry at a position as an element of the field, zero beyond the end. -/
def coord (xs : List (Extended K)) (i : Nat) : K := (xs.getD i 0).val

/-- A list of `n` finite numbers. -/
structure Numbers (n : Nat) (xs : List (Extended K)) : Prop where
  length : xs.length = n
  finite : ∀ x ∈ xs, Scalar.isFinite x = true

theorem coord_of_getElem? {xs : List (Extended K)} {i : Nat} {x : K}
    (h : xs[i]? = some (fin x)) : coord xs i = x := by
  simp [coord, List.getD, h]

theorem coord_of_le {xs : List (Extended K)} {i : Nat} (h : xs.length ≤ i) : coord xs i = 0 := by
  simp [coord, List.getD, h]

@[simp] theorem coord_nil (i : Nat) : coord ([] : List (Extended K)) i = 0 := by
  simp [coord]

@[simp] theorem coord_cons_zero (x : K) (xs : List (Extended K)) : coord (fin x :: xs) 0 = x := by
  simp [coord]

@[simp] theorem coord_cons_succ (x : Extended K) (xs : List (Extended K)) (i : Nat) :
    coord (x :: xs) (i + 1) = coord xs i := by
  simp [coord]

/-- A write reaches the coordinate of its position only. -/
theorem coord_set {xs : List (Extended K)} {i : Nat} (hi : i < xs.length) (x : K) (k : Nat) :
    coord (xs.set i (fin x)) k = if k = i then x else coord xs k := by
  by_cases hk : k = i
  · subst hk
    simp [coord, List.getD, hi]
  · rw [if_neg hk]
    unfold coord
    rw [List.getD_eq_getElem?_getD, List.getElem?_set_ne (Ne.symm hk),
      ← List.getD_eq_getElem?_getD]

theorem coord_append_left {xs ys : List (Extended K)} {i : Nat} (h : i < xs.length) :
    coord (xs ++ ys) i = coord xs i := by
  unfold coord
  rw [List.getD_eq_getElem?_getD, List.getElem?_append_left h, ← List.getD_eq_getElem?_getD]

theorem coord_append_length (xs : List (Extended K)) (x : K) :
    coord (xs ++ [fin x]) xs.length = x := by
  simp [coord, List.getD]

theorem coord_drop (xs : List (Extended K)) (n i : Nat) :
    coord (xs.drop n) i = coord xs (n + i) := by
  simp [coord, List.getD]

/-! ## §2.  Lists of finite numbers -/

namespace Numbers

variable {n : Nat} {xs ys : List (Extended K)}

theorem getElem? (h : Numbers n xs) {i : Nat} (hi : i < n) : xs[i]? = some (fin (coord xs i)) := by
  have hi' : i < xs.length := h.length ▸ hi
  obtain ⟨a, ha⟩ := isFinite_iff.mp (h.finite _ (List.getElem_mem hi'))
  have hx : xs[i]? = some (fin a) := by rw [List.getElem?_eq_getElem hi', ha]
  rw [coord_of_getElem? hx, hx]

theorem getD (h : Numbers n xs) {i : Nat} (hi : i < n) : xs.getD i 0 = fin (coord xs i) := by
  rw [List.getD_eq_getElem?_getD, h.getElem? hi]
  rfl

/-- Finite numbers at all positions. -/
theorem of_getElem? (hl : xs.length = n) (h : ∀ i < n, ∃ x : K, xs[i]? = some (fin x)) :
    Numbers n xs := by
  refine ⟨hl, fun x hx => ?_⟩
  obtain ⟨i, hi, rfl⟩ := List.mem_iff_getElem.mp hx
  obtain ⟨a, ha⟩ := h i (hl ▸ hi)
  rw [List.getElem?_eq_getElem hi] at ha
  rw [Option.some.inj ha]
  rfl

/-- Two lists of finite numbers with the same coordinates are equal. -/
theorem ext (hx : Numbers n xs) (hy : Numbers n ys) (h : ∀ i < n, coord xs i = coord ys i) :
    xs = ys := by
  apply List.ext_getElem?
  intro i
  by_cases hi : i < n
  · rw [hx.getElem? hi, hy.getElem? hi, h i hi]
  · rw [List.getElem?_eq_none (by rw [hx.length]; omega),
      List.getElem?_eq_none (by rw [hy.length]; omega)]

theorem eq_map_range (h : Numbers n xs) :
    xs = (List.range n).map fun i => fin (coord xs i) :=
  eq_map_range_of_getElem? h.length fun _ hi => h.getElem? hi

theorem nil : Numbers 0 ([] : List (Extended K)) := ⟨rfl, by simp⟩

theorem set (h : Numbers n xs) (i : Nat) (x : K) : Numbers n (xs.set i (fin x)) := by
  refine ⟨by rw [List.length_set, h.length], fun y hy => ?_⟩
  rcases List.mem_or_eq_of_mem_set hy with hy | rfl
  · exact h.finite y hy
  · rfl

/-- Changing an entry is writing the changed one. -/
theorem modify_eq (h : Numbers n xs) {i : Nat} (hi : i < n) (g : Extended K → Extended K) :
    xs.modify i g = xs.set i (g (fin (coord xs i))) := by
  rw [List.modify_eq_set_getElem?, h.getElem? hi]
  rfl

theorem append {k : Nat} (hx : Numbers n xs) (hy : Numbers k ys) : Numbers (n + k) (xs ++ ys) := by
  refine ⟨by rw [List.length_append, hx.length, hy.length], fun z hz => ?_⟩
  rcases List.mem_append.mp hz with hz | hz
  · exact hx.finite z hz
  · exact hy.finite z hz

theorem singleton (x : K) : Numbers 1 [fin x] := ⟨rfl, by simp⟩

theorem drop (h : Numbers n xs) (k : Nat) : Numbers (n - k) (xs.drop k) :=
  ⟨by rw [List.length_drop, h.length], fun x hx => h.finite x (List.mem_of_mem_drop hx)⟩

/-- The list of the values of a function. -/
theorem map_range (n : Nat) (f : Nat → K) : Numbers n ((List.range n).map fun i => fin (f i)) := by
  refine ⟨by simp, fun x hx => ?_⟩
  obtain ⟨i, -, rfl⟩ := List.mem_map.mp hx
  rfl

theorem zeros (n : Nat) : Numbers n (Scalar.zeros n : List (Extended K)) := by
  refine ⟨by simp, fun x hx => ?_⟩
  rw [List.eq_of_mem_replicate hx]
  rfl

theorem unit (n i : Nat) : Numbers n (Scalar.unit n i : List (Extended K)) := (zeros n).set i 1

end Numbers

@[simp] theorem coord_zeros (n i : Nat) : coord (Scalar.zeros n : List (Extended K)) i = 0 := by
  by_cases hi : i < n
  · simp [coord, Scalar.zeros, List.getD, hi]
  · exact coord_of_le (by simp; omega)

theorem coord_unit {n i : Nat} (hi : i < n) (k : Nat) :
    coord (Scalar.unit n i : List (Extended K)) k = if k = i then 1 else 0 := by
  rw [Scalar.unit, one_eq, coord_set (by simpa using hi), coord_zeros]

theorem coord_map_range {n i : Nat} (hi : i < n) (f : Nat → K) :
    coord ((List.range n).map fun i => fin (f i)) i = f i := by
  apply coord_of_getElem?
  simp [hi]

/-! ## §3.  Sums -/

theorem foldl_add_fin (xs : List K) (a : K) :
    (xs.map fin).foldl (· + ·) (fin a : Extended K) = fin (a + xs.sum) := by
  induction xs generalizing a with
  | nil => simp
  | cons x xs ih =>
    rw [List.map_cons, List.foldl_cons, fin_add, ih, List.sum_cons, add_assoc]

/-- A sum of finite numbers is the sum in the field. -/
theorem sum_map_fin (xs : List K) : Scalar.sum (xs.map fin) = (fin xs.sum : Extended K) := by
  show (xs.map fin).foldl (· + ·) (fin (-0) : Extended K) = _
  rw [foldl_add_fin, neg_zero, zero_add]

theorem sum_map_range {M : Type} [AddCommMonoid M] (n : Nat) (f : Nat → M) :
    ((List.range n).map f).sum = ∑ i ∈ Finset.range n, f i := by
  induction n with
  | zero => rfl
  | succ n ih =>
    rw [List.range_succ, List.map_append, List.sum_append, ih, Finset.sum_range_succ]
    simp

namespace Numbers

variable {n k : Nat} {xs ys : List (Extended K)}

theorem sum_eq (h : Numbers n xs) : Scalar.sum xs = fin (∑ i ∈ Finset.range n, coord xs i) := by
  rw [← sum_map_range, ← sum_map_fin, List.map_map]
  exact congrArg Scalar.sum h.eq_map_range

/-- The inner product reaches as far as the shorter vector. -/
theorem dot_eq (hx : Numbers n xs) (hy : Numbers k ys) :
    Scalar.dot xs ys = fin (∑ i ∈ Finset.range (min n k), coord xs i * coord ys i) := by
  have hz (i : Nat) (hi : i < min n k) :
      (List.zipWith (· * ·) xs ys)[i]? = some (fin (coord xs i * coord ys i)) := by
    rw [List.getElem?_zipWith, hx.getElem? (by omega), hy.getElem? (by omega)]
    rfl
  have hn : Numbers (min n k) (List.zipWith (· * ·) xs ys) :=
    of_getElem? (by rw [List.length_zipWith, hx.length, hy.length]) fun i hi => ⟨_, hz i hi⟩
  rw [Scalar.dot, hn.sum_eq]
  congr 1
  apply Finset.sum_congr rfl
  intro i hi
  exact coord_of_getElem? (hz i (Finset.mem_range.mp hi))

end Numbers

/-! ## §4.  Vectors -/

/-- The list of a vector. -/
def embed {n : Nat} (v : Fin n → K) : List (Extended K) := List.ofFn fun i => fin (v i)

theorem numbers_embed {n : Nat} (v : Fin n → K) : Numbers n (embed v) := by
  refine ⟨by simp [embed], fun x hx => ?_⟩
  obtain ⟨i, rfl⟩ := List.mem_ofFn.mp hx
  rfl

@[simp] theorem length_embed {n : Nat} (v : Fin n → K) : (embed v).length = n :=
  (numbers_embed v).length

@[simp] theorem coord_embed {n : Nat} (v : Fin n → K) (i : Fin n) : coord (embed v) i = v i := by
  apply coord_of_getElem?
  simp [embed]

/-- A list of finite numbers is the list of the vector of its coordinates. -/
theorem Numbers.eq_embed {n : Nat} {xs : List (Extended K)} (h : Numbers n xs) :
    xs = embed fun i : Fin n => coord xs i :=
  h.ext (numbers_embed _) fun i hi => (coord_embed (fun i : Fin n => coord xs i) ⟨i, hi⟩).symm

end BoundedSimplex
