/-
  BoundedSimplex.Proofs.Linear.SparseStorage — what a sparse vector stores, over any numbers.

  The entries of a sparse vector are the nonzero values of one function, each with its index, in
  some order.  The order changes with every entry that is taken out, so everything is said up to a
  permutation; and a zero has lost its sign, so values are compared up to that.  Nothing here needs
  more than the two laws of zeros.

  Main results:
    * `write_perm` — a write replaces whatever was stored for its index;
    * `InRange.toDense?_eq`, `InRange.dot_eq`, `InRange.addTo_eq` — entries and dense vectors;
    * `Stores.zero`, `Stores.write`, `Stores.grow` — the operations follow the function;
    * `Stores.coeff`, `Stores.size_eq` — what can be read back.
-/
import BoundedSimplex.Linear.SparseVector
import BoundedSimplex.Proofs.Checked
import BoundedSimplex.Proofs.Zeros
import Mathlib.Data.List.Perm.Basic
import Mathlib.Data.List.Nodup

namespace BoundedSimplex

variable {α : Type}

namespace SparseVector

/-! ## §1.  Writing -/

/-- Taking an entry out is erasing it, up to the order of the rest. -/
theorem takeOut_perm {xs : List (Nat × α)} {place : Nat} (h : place < xs.length) :
    (takeOut xs place).Perm (xs.eraseIdx place) := by
  rcases List.eq_nil_or_concat xs with rfl | ⟨init, z, rfl⟩
  · simp at h
  rw [List.concat_eq_append] at h ⊢
  have hz : (init ++ [z]).getLast? = some z := by simp
  unfold takeOut
  rw [hz]
  dsimp only
  -- the last entry fills the gap, unless it is the one that goes
  by_cases hp : place < init.length
  · rw [List.set_append_left _ _ hp, List.dropLast_concat, List.eraseIdx_append_of_lt_length hp]
    exact (List.set_perm_cons_eraseIdx hp z).trans (List.perm_append_singleton z _).symm
  · have he : place = init.length := by simp at h; omega
    subst he
    simp [List.eraseIdx_append_of_length_le]

/-- Erasing the entry that was found is keeping those of all other indices. -/
theorem eraseIdx_eq_filter {xs : List (Nat × α)} {i p : Nat}
    (hd : (xs.map Prod.fst).Nodup) (h : place? xs i = some p) :
    xs.eraseIdx p = xs.filter (·.1 != i) := by
  induction xs generalizing p with
  | nil => simp [place?] at h
  | cons x xs ih =>
    obtain ⟨hx, hd⟩ := List.nodup_cons.mp hd
    unfold place? at h
    rw [List.findIdx?_cons] at h
    by_cases hxi : x.1 = i
    · -- indices are distinct, so no later entry has this one
      have hp : p = 0 := by simpa [hxi, eq_comm] using h
      have hne : ∀ y ∈ xs, y.1 ≠ i := fun y hy e => hx (by
        rw [hxi, ← e]
        exact List.mem_map_of_mem (f := Prod.fst) hy)
      subst hp
      rw [List.eraseIdx_cons_zero, List.filter_cons_of_neg (by simpa using hxi),
        List.filter_eq_self.mpr fun y hy => by simpa using hne y hy]
    · have hb : (x.1 == i) = false := by simpa using hxi
      rw [hb] at h
      obtain ⟨q, hq, rfl⟩ := Option.map_eq_some_iff.mp h
      rw [List.eraseIdx_cons_succ, List.filter_cons_of_pos (by simpa using hxi), ih hd hq]

variable [Scalar α]

/-- What a write stores: the number at its index unless it is zero. -/
def written (i : Nat) (x : α) : List (Nat × α) := if x == 0 then [] else [(i, x)]

/-- **A write replaces whatever was stored for its index.** -/
theorem write_perm {v : SparseVector α} (hd : (v.entries.map Prod.fst).Nodup) (i : Nat) (x : α) :
    (v.write i x).entries.Perm (written i x ++ v.entries.filter (·.1 != i)) := by
  unfold SparseVector.write written
  cases hp : place? v.entries i with
  -- The entry is replaced or taken out where it was found, else appended.
  | some p =>
    have hlt : p < v.entries.length := (List.findIdx?_eq_some_iff_findIdx_eq.mp hp).1
    rw [← eraseIdx_eq_filter hd hp]
    cases hx : x == 0 with
    | true => exact takeOut_perm hlt
    | false => exact List.set_perm_cons_eraseIdx hlt _
  | none =>
    have hne : ∀ y ∈ v.entries, (y.1 != i) = true := by
      intro y hy
      simpa using (List.findIdx?_eq_none_iff.mp hp) y hy
    rw [List.filter_eq_self.mpr hne]
    cases hx : x == 0 with
    | true => exact .refl _
    | false => exact List.perm_append_singleton _ _

omit [Scalar α] in
/-- Taking out an entry adds none. -/
theorem mem_of_mem_takeOut {xs : List (Nat × α)} {place : Nat} {p : Nat × α}
    (h : p ∈ takeOut xs place) : p ∈ xs := by
  unfold takeOut at h
  split at h
  · next z hz =>
    rcases List.mem_or_eq_of_mem_set (List.dropLast_subset _ h) with hp | rfl
    · exact hp
    · exact List.mem_of_getLast? hz
  · cases h

/-- Writing brings in one entry at most. -/
theorem mem_write {v : SparseVector α} {i : Nat} {x : α} {p : Nat × α}
    (h : p ∈ (v.write i x).entries) : p ∈ v.entries ∨ p = (i, x) := by
  unfold SparseVector.write at h
  split at h
  · split at h
    · exact .inl (mem_of_mem_takeOut h)
    · exact List.mem_or_eq_of_mem_set h
  · split at h
    · exact .inl h
    · exact (List.mem_append.mp h).imp_right List.mem_singleton.mp

/-! ## §2.  Entries of indices in range -/

/-- Every entry belongs to an index of the vector. -/
def InRange (v : SparseVector α) : Prop := ∀ p ∈ v.entries, p.1 < v.length

namespace InRange

variable {v : SparseVector α}

/-- Every entry finds its place in a dense vector of the same length. -/
theorem toDense?_eq (h : v.InRange) (hroom : v.length < Checked.addressSpace) :
    v.toDense? = .ok v.toDense := by
  unfold toDense? toDense Checked.requireRoom
  rw [Checked.require_of hroom, Checked.ok_bind]
  refine (Checked.foldlM_eq_ok (P := fun xs : List α => xs.length = v.length) ?_
    (Scalar.length_zeros _)).1
  intro p hp xs hxs
  exact ⟨Checked.setAt_eq_ok.mpr ⟨hxs.symm ▸ h p hp, rfl⟩, List.length_set.trans hxs⟩

/-- So does every factor of an inner product. -/
theorem dot_eq (h : v.InRange) {xs : List α} (hx : xs.length = v.length) :
    v.dot xs = .ok (Scalar.sum (v.entries.map fun p => p.2 * xs.getD p.1 0)) := by
  have hproducts : v.entries.mapM (fun p => return p.2 * (← Checked.getAt xs p.1))
      = (.ok (v.entries.map fun p => p.2 * xs.getD p.1 0) : Checked (List α)) := by
    refine Checked.mapM_eq_ok fun p hp => ?_
    rw [Checked.getAt_eq_getD (hx.symm ▸ h p hp) 0]
    rfl
  unfold dot
  rw [Checked.require_of hx, Checked.ok_bind, hproducts]
  rfl

/-- And every multiple that is added. -/
theorem addTo_eq (h : v.InRange) {xs : List α} (hx : xs.length = v.length) (factor : α) :
    v.addTo factor xs
      = .ok (v.entries.foldl (fun ys p => ys.modify p.1 (· + factor * p.2)) xs) := by
  unfold addTo
  rw [Checked.require_of hx, Checked.ok_bind]
  refine (Checked.foldlM_eq_ok (P := fun ys : List α => ys.length = v.length) ?_ hx).1
  intro p hp ys hys
  exact ⟨Checked.modifyAt_eq_ok.mpr ⟨hys.symm ▸ h p hp, rfl⟩, (List.length_modify _ _ _).trans hys⟩

end InRange

/-- Adding a multiple of a vector changes no lengths. -/
theorem length_addTo {v : SparseVector α} {factor : α} {xs ys : List α}
    (h : v.addTo factor xs = .ok ys) :
    ys.length = xs.length := by
  obtain ⟨_, -, h⟩ := Checked.bind_eq_ok.mp h
  refine Checked.foldlM_inv (P := fun ys : List α => ys.length = xs.length)
    (fun p _ _ _ hs ht => ?_)
    rfl h
  obtain ⟨-, rfl⟩ := Checked.modifyAt_eq_ok.mp ht
  exact (List.length_modify _ _ _).trans hs

/-! ## §3.  The nonzero values of a function -/

/-- The nonzero values below `n`, each with its index. -/
def nonzeros (n : Nat) (f : Nat → α) : List (Nat × α) :=
  ((List.range n).filter fun k => !(f k == 0)).map fun k => (k, f k)

/-- The nonzeros are the indices with a nonzero value, together with that value. -/
theorem mem_nonzeros {n : Nat} {f : Nat → α} {p : Nat × α} :
    p ∈ nonzeros n f ↔ p.1 < n ∧ (f p.1 == 0) = false ∧ p.2 = f p.1 := by
  obtain ⟨k, x⟩ := p
  simp only [nonzeros, List.mem_map, List.mem_filter, List.mem_range, Bool.not_eq_true',
    Prod.mk.injEq]
  constructor
  · rintro ⟨k, ⟨hk, hf⟩, rfl, rfl⟩
    exact ⟨hk, hf, rfl⟩
  · rintro ⟨hk, hf, rfl⟩
    exact ⟨k, ⟨hk, hf⟩, rfl, rfl⟩

/-- Their indices are in increasing order. -/
theorem map_fst_nonzeros (n : Nat) (f : Nat → α) :
    (nonzeros n f).map Prod.fst = (List.range n).filter fun k => !(f k == 0) := by
  rw [nonzeros, List.map_map]
  exact List.map_id' _

/-- No index occurs twice. -/
theorem nodup_nonzeros (n : Nat) (f : Nat → α) : ((nonzeros n f).map Prod.fst).Nodup := by
  rw [map_fst_nonzeros]
  exact List.nodup_range.filter _

/-- There are as many as there are nonzero values. -/
theorem length_nonzeros (n : Nat) (f : Nat → α) :
    (nonzeros n f).length = (List.range n).countP fun k => !(f k == 0) := by
  rw [nonzeros, List.length_map, List.countP_eq_length_filter]

/-- The sign of zero is not visible. -/
theorem nonzeros_congr {n : Nat} {f g : Nat → α} (h : ∀ k < n, Matches (f k) (g k)) :
    nonzeros n f = nonzeros n g := by
  have hfilter : ((List.range n).filter fun k => !(f k == 0))
      = (List.range n).filter fun k => !(g k == 0) :=
    List.filter_congr fun k hk => by rw [(h k (List.mem_range.mp hk)).isZero]
  unfold nonzeros
  rw [hfilter]
  apply List.map_congr_left
  intro k hk
  obtain ⟨hk, hg⟩ := List.mem_filter.mp hk
  rw [(h k (List.mem_range.mp hk)).eq_of_ne (by simpa using hg)]

/-- A list with one entry for each nonzero value and no other entries. -/
theorem perm_nonzeros {n : Nat} {f : Nat → α} {ps : List (Nat × α)} (hd : (ps.map Prod.fst).Nodup)
    (h : ∀ p, p ∈ ps ↔ p.1 < n ∧ (f p.1 == 0) = false ∧ p.2 = f p.1) : ps.Perm (nonzeros n f) := by
  apply (List.perm_ext_iff_of_nodup hd.of_map (nodup_nonzeros n f).of_map).mpr
  intro p
  rw [h p, mem_nonzeros]

/-! ## §4.  The function that is stored -/

/-- The vector has length `n` and stores the nonzero values of `f` there and nothing else. -/
structure Stores (v : SparseVector α) (n : Nat) (f : Nat → α) : Prop where
  length : v.length = n
  entries : v.entries.Perm (nonzeros n f)

namespace Stores

variable {v : SparseVector α} {n : Nat} {f : Nat → α}

/-- Only the values below the length count, and these up to matching ones. -/
theorem congr {g : Nat → α} (h : v.Stores n f) (hg : ∀ k < n, Matches (f k) (g k)) :
    v.Stores n g :=
  ⟨h.length, nonzeros_congr hg ▸ h.entries⟩

/-- No index has two entries. -/
theorem distinct (h : v.Stores n f) : (v.entries.map Prod.fst).Nodup :=
  (h.entries.map Prod.fst).nodup_iff.mpr (nodup_nonzeros n f)

/-- What is an entry is decided by the stored function. -/
theorem mem_iff (h : v.Stores n f) {p : Nat × α} :
    p ∈ v.entries ↔ p.1 < n ∧ (f p.1 == 0) = false ∧ p.2 = f p.1 := by
  rw [h.entries.mem_iff, mem_nonzeros]

/-- The entries are at indices below the length. -/
theorem inRange (h : v.Stores n f) : v.InRange := fun _ hp => h.length.symm ▸ (h.mem_iff.mp hp).1

/-- A new vector stores zeros. -/
theorem zero [LawfulZero α] (n : Nat) :
    (SparseVector.zero n : SparseVector α).Stores n fun _ => 0 where
  length := rfl
  entries := by
    have hnil : nonzeros n (fun _ => (0 : α)) = [] := by
      simp [nonzeros, LawfulZero.zero_beq]
    rw [hnil]
    exact .nil

/-- **A write updates the stored function.** -/
theorem write (h : v.Stores n f) {i : Nat} (hi : i < n) (x : α) :
    (v.write i x).Stores n fun k => if k = i then x else f k where
  length := (length_write v i x).trans h.length
  entries := by
    refine (write_perm h.distinct i x).trans (perm_nonzeros ?_ fun p => ?_)
    · have hf : ((v.entries.filter (·.1 != i)).map Prod.fst).Nodup :=
        h.distinct.sublist (List.Sublist.map _ List.filter_sublist)
      rw [List.map_append]
      unfold written
      split
      · simpa using hf
      · refine List.nodup_cons.mpr ⟨fun hm => ?_, hf⟩
        obtain ⟨q, hq, hqi⟩ := List.mem_map.mp hm
        have := (List.mem_filter.mp hq).2
        simp [hqi] at this
    · obtain ⟨k, y⟩ := p
      rw [List.mem_append, List.mem_filter, h.mem_iff]
      unfold written
      -- the entry of `i` comes from the write, every other one was there before
      by_cases hk : k = i
      · subst hk
        cases hx : x == 0 <;> simp [hx, hi]
      · cases hx : x == 0 <;> simp [hk]

/-- A longer vector stores the same function, if that is zero at the new indices. -/
theorem grow (h : v.Stores n f) (extra : Nat) (hf : ∀ k, n ≤ k → (f k == 0) = true) :
    (v.grow extra).Stores (n + extra) f where
  length := congrArg (· + extra) h.length
  entries := by
    refine perm_nonzeros h.distinct fun p => h.mem_iff.trans ⟨fun hp => ⟨by omega, hp.2⟩, ?_⟩
    rintro ⟨-, hp⟩
    refine ⟨?_, hp⟩
    by_contra hge
    rw [hf p.1 (by omega)] at hp
    exact Bool.false_ne_true hp.1.symm

/-! ## §5.  Reading -/

/-- Reading an index gives the value of the function there. -/
theorem coeff [LawfulZero α] (h : v.Stores n f) {k : Nat} (hk : k < n) :
    Matches (v.coeff k) (f k) := by
  unfold SparseVector.coeff
  cases hl : v.entries.lookup k with
  | some x =>
    obtain ⟨l₁, l₂, hsplit, -⟩ := List.lookup_eq_some_iff.mp hl
    have hmem : (k, x) ∈ v.entries := by
      rw [hsplit]
      exact List.mem_append_right _ List.mem_cons_self
    exact .inl (h.mem_iff.mp hmem).2.2
  | none =>
    -- had it another value than zero, it would be stored
    refine .inr ⟨LawfulZero.zero_beq, ?_⟩
    by_contra hf
    have hmem : (k, f k) ∈ v.entries := h.mem_iff.mpr ⟨hk, by simpa using hf, rfl⟩
    have := List.lookup_eq_none_iff.mp hl _ hmem
    simp at this

/-- There are as many entries as nonzero values. -/
theorem size_eq (h : v.Stores n f) : v.size = (List.range n).countP fun k => !(f k == 0) := by
  rw [SparseVector.size, h.entries.length_eq, length_nonzeros]

end Stores

end SparseVector

end BoundedSimplex
