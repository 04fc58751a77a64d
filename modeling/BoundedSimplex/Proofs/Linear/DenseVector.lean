/-
  BoundedSimplex.Proofs.Linear.DenseVector — a sparse vector and the dense one it stands for.

  A dense vector is a list of numbers, on which a write replaces an entry and more length is more
  zeros.  Whatever is written to a sparse vector, and in whatever order its entries come to stand,
  reading it shows the dense vector that the same writes lead to, up to the sign of zero.  In exact
  arithmetic its products are those of the dense vector.

  Main results:
    * `storesList_ofDense` — the entries of a dense vector;
    * `StoresList.toDense` — a sparse vector written out;
    * `StoresList.of_perform`, `StoresList.of_performAll` — one edit, and a sequence of them;
    * `refines_dense` — what is shown after every sequence of edits.
-/
import BoundedSimplex.Proofs.Linear.PlainMatrix
import Mathlib.Data.List.Forall2

namespace BoundedSimplex

open Extended

variable {α : Type} [Scalar α]

namespace SparseVector

/-! ## §1.  Dense vectors -/

/-- The vector stores the numbers of a list. -/
def StoresList (v : SparseVector α) (xs : List α) : Prop := v.Stores xs.length fun k => xs.getD k 0

/-- The entries of a dense vector are its nonzero values in the order of their indices. -/
theorem ofDense_entries (xs : List α) :
    (ofDense xs).entries = nonzeros xs.length fun k => xs.getD k 0 := by
  have hzip : xs.zipIdx = (List.range xs.length).map fun k => (xs.getD k 0, k) := by
    refine eq_map_range_of_getElem? List.length_zipIdx ?_
    intro k hk
    rw [List.getElem?_zipIdx, List.getElem?_eq_getElem hk, List.getD_eq_getElem?_getD,
      List.getElem?_eq_getElem hk]
    simp
  show ((xs.zipIdx.filter fun p => !(p.1 == 0)).map fun p => (p.2, p.1)) = _
  rw [hzip, List.filter_map, List.map_map]
  rfl

/-- A vector built from a list stores that list. -/
theorem storesList_ofDense (xs : List α) : (ofDense xs).StoresList xs :=
  ⟨rfl, by rw [ofDense_entries]⟩

/-- A new vector stores zeros. -/
theorem storesList_zero [LawfulZero α] (n : Nat) :
    (zero n : SparseVector α).StoresList (Scalar.zeros n) := by
  unfold StoresList
  rw [Scalar.length_zeros]
  refine (Stores.zero n).congr ?_
  intro k hk
  left
  simp [Scalar.zeros, hk]

/-- **A sparse vector written out** is the list that it stores, up to the sign of zero. -/
theorem StoresList.toDense [LawfulZero α] {v : SparseVector α} {xs : List α} (h : v.StoresList xs) :
    List.Forall₂ Matches v.toDense xs := by
  have hlen : v.toDense.length = xs.length := by
    rw [SparseVector.toDense, length_foldl_set, Scalar.length_zeros, h.length]
  refine List.forall₂_iff_get.mpr ⟨hlen, ?_⟩
  intro k hk hk'
  have hx : xs.getD k 0 = xs[k] := by
    rw [List.getD_eq_getElem?_getD, List.getElem?_eq_getElem hk']
    rfl
  have hzeros : k < (Scalar.zeros v.length : List α).length := by
    rw [Scalar.length_zeros, h.length]
    exact hk'
  show Matches v.toDense[k] xs[k]
  rw [← hx]
  cases hz : xs.getD k 0 == 0 with
  | true =>
    -- nothing is stored for this index, so it keeps the zero that it began with
    have hnone : ∀ p ∈ v.entries, p.1 ≠ k := by
      rintro p hp rfl
      rw [(h.mem_iff.mp hp).2.1] at hz
      cases hz
    have hkeep : v.toDense[k]? = some 0 := by
      rw [SparseVector.toDense, getElem?_foldl_set_of_ne hnone, Scalar.zeros,
        List.getElem?_replicate, if_pos (by simpa using hzeros)]
    rw [(List.getElem?_eq_some_iff.mp hkeep).2]
    exact .inr ⟨LawfulZero.zero_beq, hz⟩
  | false =>
    have hmem : (k, xs.getD k 0) ∈ v.entries := h.mem_iff.mpr ⟨hk', hz, rfl⟩
    have hput : v.toDense[k]? = some (xs.getD k 0) :=
      getElem?_foldl_set h.distinct hmem hzeros
    exact .inl (List.getElem?_eq_some_iff.mp hput).2

/-- There are as many entries as numbers other than zero. -/
theorem StoresList.size_eq {v : SparseVector α} {xs : List α} (h : v.StoresList xs) :
    v.size = xs.countP fun x => !(x == 0) := by
  have hxs : xs = (List.range xs.length).map fun k => xs.getD k 0 := by
    refine eq_map_range_of_getElem? rfl ?_
    intro k hk
    rw [List.getD_eq_getElem?_getD, List.getElem?_eq_getElem hk]
    rfl
  rw [Stores.size_eq h]
  conv_rhs => rw [hxs, List.countP_map]
  rfl

/-- The order of the entries does not matter. -/
theorem StoresList.of_perm {v w : SparseVector α} {xs : List α} (h : v.StoresList xs)
    (hlen : w.length = v.length) (hperm : w.entries.Perm v.entries) : w.StoresList xs :=
  ⟨hlen.trans h.length, hperm.trans h.entries⟩

end SparseVector

/-! ## §2.  Edits -/

/-- How a vector comes into being. -/
inductive VectorOrigin (α : Type) where
  | zeros (n : Nat)
  | dense (xs : List α)

/-- What can be done to a vector. -/
inductive VectorEdit (α : Type) where
  | set (i : Nat) (x : α)
  | grow (extra : Nat)

namespace VectorOrigin

/-- The sparse vector at the beginning. -/
def build : VectorOrigin α → SparseVector α
  | zeros n => .zero n
  | dense xs => .ofDense xs

/-- The dense vector at the beginning. -/
def plain : VectorOrigin α → List α
  | zeros n => Scalar.zeros n
  | dense xs => xs

end VectorOrigin

namespace VectorEdit

/-- The edit of a sparse vector. -/
def perform (v : SparseVector α) : VectorEdit α → Checked (SparseVector α)
  | set i x => v.set i x
  | grow extra => v.grow? extra

/-- The edit of a dense vector. -/
def plain (xs : List α) : VectorEdit α → List α
  | set i x => xs.set i x
  | grow extra => xs ++ Scalar.zeros extra

/-- The edit speaks about an index of the vector, or about a length that fits
    into a machine word. -/
def Admitted (xs : List α) : VectorEdit α → Prop
  | set i _ => i < xs.length
  | grow extra => xs.length + extra < Checked.wordSize

/-- Every edit of a sequence is admitted when it is its turn. -/
def AllAdmitted (xs : List α) : List (VectorEdit α) → Prop
  | [] => True
  | e :: es => e.Admitted xs ∧ AllAdmitted (e.plain xs) es

instance decidableAdmitted (xs : List α) : (e : VectorEdit α) → Decidable (e.Admitted xs)
  | set i _ => inferInstanceAs (Decidable (i < xs.length))
  | grow extra => inferInstanceAs (Decidable (xs.length + extra < Checked.wordSize))

instance decidableAllAdmitted : (xs : List α) → (es : List (VectorEdit α)) →
    Decidable (AllAdmitted xs es)
  | _, [] => inferInstanceAs (Decidable True)
  | xs, e :: es =>
    have := decidableAllAdmitted (e.plain xs) es
    inferInstanceAs (Decidable (e.Admitted xs ∧ AllAdmitted (e.plain xs) es))

end VectorEdit

namespace SparseVector

variable {v w : SparseVector α} {xs : List α}

/-- Whatever a vector is built from, it stores the plain list of it. -/
theorem storesList_build [LawfulZero α] (o : VectorOrigin α) : o.build.StoresList o.plain := by
  cases o with
  | zeros n => exact storesList_zero n
  | dense xs => exact storesList_ofDense xs

namespace StoresList

/-- Writing below the length is writing into the list. -/
theorem write (h : v.StoresList xs) {i : Nat} (hi : i < xs.length) (x : α) :
    (v.write i x).StoresList (xs.set i x) := by
  unfold StoresList
  rw [List.length_set]
  refine (Stores.write h hi x).congr ?_
  intro k _
  exact .inl (getD_set hi x k 0).symm

/-- Growing appends zeros to the list. -/
theorem grow [LawfulZero α] (h : v.StoresList xs) (extra : Nat) :
    (v.grow extra).StoresList (xs ++ Scalar.zeros extra) := by
  have hend (k : Nat) (hk : xs.length ≤ k) : xs.getD k 0 = 0 := by
    rw [List.getD_eq_getElem?_getD, List.getElem?_eq_none hk]
    rfl
  unfold StoresList
  rw [List.length_append, Scalar.length_zeros]
  refine (Stores.grow h extra fun k hk => ?_).congr ?_
  · show (xs.getD k 0 == 0) = true
    rw [hend k hk]
    exact LawfulZero.zero_beq
  · intro k _
    left
    by_cases hk : k < xs.length
    · rw [List.getD_eq_getElem?_getD, List.getD_eq_getElem?_getD, List.getElem?_append_left hk]
    · -- beyond the old end both are zero
      rw [hend k (by omega), List.getD_eq_getElem?_getD, List.getElem?_append_right (by omega),
        Scalar.zeros, List.getElem?_replicate]
      split
      · rfl
      · rfl

/-- **One edit** keeps the sparse vector in step with the dense one, and goes through only if it is
    admitted. -/
theorem of_perform [LawfulZero α] (h : v.StoresList xs) {e : VectorEdit α}
    (hw : e.perform v = .ok w) :
    e.Admitted xs ∧ w.StoresList (e.plain xs) := by
  cases e with
  | set i x =>
    obtain ⟨_, hi, hw⟩ := Checked.bind_eq_ok.mp hw
    have hi : i < xs.length := h.length ▸ Checked.require_eq_ok.mp hi
    cases hw
    exact ⟨hi, h.write hi x⟩
  | grow extra =>
    obtain ⟨_, hroom, hw⟩ := Checked.bind_eq_ok.mp hw
    have hroom : xs.length + extra < Checked.wordSize := h.length ▸ Checked.require_eq_ok.mp hroom
    cases hw
    exact ⟨hroom, h.grow extra⟩

/-- An admitted edit succeeds. -/
theorem exists_perform (h : v.StoresList xs) {e : VectorEdit α} (he : e.Admitted xs) :
    ∃ w, e.perform v = .ok w := by
  cases e with
  | set i x =>
    have hi : i < v.length := h.length.symm ▸ he
    exact ⟨_, Checked.bind_eq_ok.mpr ⟨(), Checked.require_eq_ok.mpr hi, rfl⟩⟩
  | grow extra =>
    have hroom : v.length + extra < Checked.wordSize := h.length.symm ▸ he
    exact ⟨_, Checked.bind_eq_ok.mpr ⟨(), Checked.require_eq_ok.mpr hroom, rfl⟩⟩

/-- **A sequence of edits** does the same. -/
theorem of_performAll [LawfulZero α] {es : List (VectorEdit α)} (h : v.StoresList xs)
    (hw : es.foldlM VectorEdit.perform v = .ok w) :
    VectorEdit.AllAdmitted xs es ∧ w.StoresList (es.foldl VectorEdit.plain xs) := by
  -- on the edits, for any dense vector that the sparse one is in step with
  induction es generalizing v xs with
  | nil =>
    cases hw
    exact ⟨trivial, h⟩
  | cons e es ih =>
    rw [List.foldlM_cons] at hw
    obtain ⟨u, hu, hw⟩ := Checked.bind_eq_ok.mp hw
    obtain ⟨he, hu⟩ := h.of_perform hu
    obtain ⟨hes, hw⟩ := ih hu hw
    exact ⟨⟨he, hes⟩, hw⟩

/-- So does a list of edits that are admitted one after another. -/
theorem exists_performAll [LawfulZero α] {es : List (VectorEdit α)} (h : v.StoresList xs)
    (hes : VectorEdit.AllAdmitted xs es) : ∃ w, es.foldlM VectorEdit.perform v = .ok w := by
  induction es generalizing v xs with
  | nil => exact ⟨v, rfl⟩
  | cons e es ih =>
    obtain ⟨u, hu⟩ := h.exists_perform hes.1
    rw [List.foldlM_cons, hu]
    exact ih (h.of_perform hu).2 hes.2

end StoresList

/-! ## §3.  Exact products -/

/-- A sparse vector that stores finite numbers represents the function of their values. -/
theorem StoresList.represents {K : Type} [Field K] [LinearOrder K] {v : SparseVector (Extended K)}
    {xs : List (Extended K)} (h : v.StoresList xs) (hx : Numbers xs.length xs) :
    v.Represents xs.length (coord xs) :=
  represents_iff.mpr (Stores.congr h fun _ hk => .inl (hx.getD hk))

end SparseVector

/-! ## §4.  Refinement -/

/-- **A sparse vector refines the dense one.**  Whatever the vector began as, a sequence of edits
    goes through iff every index is one of the vector and every length fits into a machine word.
    Then it has one entry for each number of the dense vector other than zero and no other entries,
    and shows the dense vector entry by entry and written out; and a dense vector comes back from
    its own entries.  In exact arithmetic, in whatever order the entries stand, inner products are
    those of the dense vector, and so are multiples that are added to a list. -/
theorem refines_dense :
    (∀ {α : Type} [Scalar α] [LawfulZero α] (o : VectorOrigin α) (es : List (VectorEdit α)),
      ((∃ v, es.foldlM VectorEdit.perform o.build = .ok v) ↔ VectorEdit.AllAdmitted o.plain es)
      ∧ ∀ v D, es.foldlM VectorEdit.perform o.build = .ok v →
          es.foldl VectorEdit.plain o.plain = D →
        v.Shows D.length (fun k => D.getD k 0)
        ∧ List.Forall₂ Matches v.toDense D
        ∧ (v.length < Checked.addressSpace → v.toDense? = .ok v.toDense)
        ∧ v.size = D.countP (fun x => !(x == 0))
        ∧ List.Forall₂ Matches (SparseVector.ofDense D).toDense D)
    ∧ ∀ {K : Type} [Field K] [LinearOrder K] (o : VectorOrigin (Extended K))
      (es : List (VectorEdit (Extended K))) (v : SparseVector (Extended K)) (D : List (Extended K)),
      es.foldlM VectorEdit.perform o.build = .ok v → es.foldl VectorEdit.plain o.plain = D →
      Numbers D.length D →
        ∀ w : SparseVector (Extended K), w.length = v.length → w.entries.Perm v.entries →
          ∀ ys, Numbers D.length ys →
            w.dot ys = .ok (fin (∑ k ∈ Finset.range D.length, coord D k * coord ys k))
            ∧ ∀ c, ∃ zs, w.addTo (fin c) ys = .ok zs ∧ Numbers D.length zs
              ∧ ∀ k < D.length, coord zs k = coord ys k + c * coord D k := by
  constructor
  · intro α _ _ o es
    have hbuild := SparseVector.storesList_build o
    refine ⟨⟨fun ⟨v, hv⟩ => (hbuild.of_performAll hv).1, hbuild.exists_performAll⟩, ?_⟩
    rintro v D hv rfl
    have hstores := (hbuild.of_performAll hv).2
    exact ⟨SparseVector.Stores.shows hstores, hstores.toDense, hstores.inRange.toDense?_eq,
      hstores.size_eq, (SparseVector.storesList_ofDense _).toDense⟩
  · rintro K _ _ o es v D hv rfl hD w hlen hperm ys hys
    have hstores := ((SparseVector.storesList_build o).of_performAll hv).2
    have hrep := (hstores.of_perm hlen hperm).represents hD
    exact ⟨hrep.dot_eq hys, fun c => hrep.addTo_eq hys c⟩

/-- In a vector of three numbers the first one is taken out, so that the last entry moves
    to the front, and another one is written behind the old end; and a rounded vector loses
    the sign of a zero. -/
theorem refines_dense_after_removal :
    (∃ v : SparseVector (Extended ℚ),
      [VectorEdit.set 0 (fin 0), .grow 1, .set 3 (fin 5)].foldlM VectorEdit.perform
        (VectorOrigin.dense [fin 2, fin 3, fin 4]).build = .ok v
      ∧ v.entries = [(2, fin 4), (1, fin 3), (3, fin 5)]
      ∧ v.dot [fin 1, fin 1, fin 1, fin 2] = .ok (fin 17))
    ∧ ∃ v : SparseVector Float,
      [VectorEdit.set 1 1.5, .set 0 (-0.0)].foldlM VectorEdit.perform (VectorOrigin.zeros 2).build
        = .ok v
      ∧ v.Shows 2 (fun k => [-0.0, 1.5].getD k 0)
      ∧ List.Forall₂ Matches v.toDense [-0.0, 1.5] := by
  constructor
  · have hrun : [VectorEdit.set 0 (fin (0 : ℚ)), .grow 1, .set 3 (fin 5)].foldlM VectorEdit.perform
        (VectorOrigin.dense [fin 2, fin 3, fin 4]).build
        = .ok ⟨4, [(2, fin 4), (1, fin 3), (3, fin 5)]⟩ := by rfl
    have hproducts := refines_dense.2 _ _ _ [fin 0, fin 3, fin 4, fin 5] hrun (by rfl)
      ⟨rfl, by decide⟩ _ rfl (.refl _) [fin 1, fin 1, fin 1, fin 2] ⟨rfl, by decide⟩
    refine ⟨_, hrun, rfl, hproducts.1.trans ?_⟩
    decide +kernel
  · have hruns := refines_dense.1 (VectorOrigin.zeros 2 : VectorOrigin Float)
      [.set 1 1.5, .set 0 (-0.0)]
    obtain ⟨v, hv⟩ := hruns.1.mpr (by decide)
    obtain ⟨hshows, hdense, -⟩ := hruns.2 v _ hv rfl
    exact ⟨v, hv, hshows, hdense⟩

end BoundedSimplex
