/-
  BoundedSimplex.Proofs.Basis.Twins — two representations of one matrix.

  The forms of a representation answer questions in different ways, and a fresh start makes a long
  history of exchanges short.  As long as both stand for the same matrix, that cannot be seen: they
  answer alike, follow an exchange alike, and start over alike.

  Main results:
    * `Twins.solveColumn`, `Twins.solveRow` — the answers are the same;
    * `Twins.update` — both follow an exchange whose column has no tiny entry;
    * `Twins.refresh` — both start over, or neither does.
-/
import BoundedSimplex.Proofs.Agree
import BoundedSimplex.Proofs.Basis.Inverse
import BoundedSimplex.Proofs.Basis.Shape
import BoundedSimplex.Proofs.NumberSet

namespace BoundedSimplex

open Extended Matrix

variable {K : Type} [Field K] [LinearOrder K]

/-- No entry but zero is so small that a form may drop it. -/
def Substantial (column : List (Extended K)) : Prop :=
  ∀ x ∈ column, x ≠ fin 0 → Scalar.negligible < Scalar.magnitude x

instance (column : List (Extended K)) : Decidable (Substantial column) :=
  inferInstanceAs (Decidable (∀ x ∈ column, x ≠ fin 0 → Scalar.negligible < Scalar.magnitude x))

namespace BasisInverse

/-! ## §1.  One matrix -/

/-- Both stand for one matrix. -/
def Twins (f g : BasisInverse (Extended K)) : Prop :=
  ∃ (m : Nat) (W : Matrix (Fin m) (Fin m) K), f.Represents W ∧ g.Represents W

/-- The identity of dimension zero, in either form. -/
def IsNew (f : BasisInverse (Extended K)) : Prop :=
  ∃ threshold, f = product (.identity 0 threshold) ∨ f = explicit (.identity 0 threshold)

variable {f g : BasisInverse (Extended K)} {m : Nat}

/-- A new inverse stands for the empty matrix. -/
theorem IsNew.represents (h : f.IsNew) : f.Represents (1 : Matrix (Fin 0) (Fin 0) K) := by
  have hnil (v : Fin 0 → K) : embed v = [] := List.ofFn_zero
  obtain ⟨k, rfl | rfl⟩ := h
  · refine ⟨rfl, fun y => ?_, fun y => ?_, rfl⟩
    · rw [hnil, hnil]
      rfl
    · rw [hnil, hnil]
      rfl
  · exact represents_explicit rfl

/-- New inverses of both kinds are twins. -/
theorem twins_of_isNew (hf : f.IsNew) (hg : g.IsNew) : f.Twins g :=
  ⟨0, 1, hf.represents, hg.represents⟩

theorem Twins.symm (h : f.Twins g) : g.Twins f := by
  obtain ⟨m, W, hf, hg⟩ := h
  exact ⟨m, W, hg, hf⟩

/-- The list of the rows determines a matrix. -/
theorem rowsOf_injective {W W' : Matrix (Fin m) (Fin m) K} (h : rowsOf W = rowsOf W') : W = W' := by
  ext i j
  have hrow : (rowsOf W)[(i : Nat)]? = (rowsOf W')[(i : Nat)]? := by rw [h]
  rw [getElem?_rowsOf, getElem?_rowsOf] at hrow
  have hentry := congrArg (fun xs => coord xs j) (Option.some.inj hrow)
  simpa only [coord_embed (K := K)] using hentry

/-- A twin of a representation of a matrix represents it. -/
theorem Twins.represents (h : f.Twins g) {W : Matrix (Fin m) (Fin m) K} (hf : f.Represents W) :
    g.Represents W := by
  obtain ⟨n, V, hfV, hgV⟩ := h
  obtain rfl : n = m := hfV.size.symm.trans hf.size
  obtain rfl : V = W := rowsOf_injective (Except.ok.inj (hfV.rows.symm.trans hf.rows))
  exact hgV

/-! ## §2.  Answers -/

/-- Twins have one size. -/
theorem Twins.size (h : f.Twins g) : g.size = f.size := by
  obtain ⟨m, W, hf, hg⟩ := h
  rw [hf.size, hg.size]

/-- A column of another size ends a solve. -/
theorem solveColumn_eq_error {y : List (Extended K)} (h : y.length ≠ f.size) :
    f.solveColumn y = .error (.sizeMismatch y.length f.size) := by
  unfold BasisInverse.solveColumn requireSize Checked.require
  rw [if_neg h]
  rfl

/-- A row of another size ends a solve. -/
theorem solveRow_eq_error {y : List (Extended K)} (h : y.length ≠ f.size) :
    f.solveRow y = .error (.sizeMismatch y.length f.size) := by
  unfold BasisInverse.solveRow requireSize Checked.require
  rw [if_neg h]
  rfl

/-- A list of numbers of the right length is a vector. -/
theorem eq_embed_of_lists {y : List (Extended K)} (hy : (NumberSet.finite K).Lists y)
    (hlen : y.length = m) : y = embed fun i : Fin m => coord y i :=
  Numbers.eq_embed ⟨hlen, hy⟩

/-- Twins give one answer to a forward solve. -/
theorem Twins.solveColumn (h : f.Twins g) {y : List (Extended K)}
    (hy : (NumberSet.finite K).Lists y) : g.solveColumn y = f.solveColumn y := by
  have hsize := h.size
  obtain ⟨m, W, hf, hg⟩ := h
  by_cases hlen : y.length = f.size
  · rw [eq_embed_of_lists hy (hlen.trans hf.size), hf.column, hg.column]
  · rw [solveColumn_eq_error hlen, solveColumn_eq_error (hsize ▸ hlen), hsize]

/-- Twins give one answer to a backward solve. -/
theorem Twins.solveRow (h : f.Twins g) {y : List (Extended K)}
    (hy : (NumberSet.finite K).Lists y) : g.solveRow y = f.solveRow y := by
  have hsize := h.size
  obtain ⟨m, W, hf, hg⟩ := h
  by_cases hlen : y.length = f.size
  · rw [eq_embed_of_lists hy (hlen.trans hf.size), hf.row, hg.row]
  · rw [solveRow_eq_error hlen, solveRow_eq_error (hsize ▸ hlen), hsize]

/-! ## §3.  Exchanges -/

/-- Every form takes the whole column into account. -/
theorem considers_of_substantial {column : List (Extended K)}
    (hc : (NumberSet.finite K).Lists column) (hlen : column.length = m) (h : Substantial column)
    (p : Fin m) : f.Considers p fun i => coord column i := by
  have hcounts : Counts p fun i : Fin m => coord column i := by
    intro i _ hi
    have hget : column[(i : Nat)]? = some (fin (coord column i)) :=
      Numbers.getElem? ⟨hlen, hc⟩ i.isLt
    have hne : (fin (coord column i) : Extended K) ≠ fin 0 := fun e => hi (Extended.fin.inj e)
    exact h _ (List.mem_of_getElem? hget) hne
  cases f with
  | product f => exact hcounts
  | explicit f => exact trivial

/-- **Both follow an exchange.** -/
theorem Twins.update (h : f.Twins g) {i : Nat} {column : List (Extended K)}
    (hc : (NumberSet.finite K).Lists column) (hs : Substantial column)
    (hi : ∀ x, column[i]? = some x → ¬(x == 0) = true) :
    Agree Twins (f.update i column) (g.update i column) := by
  have hsize := h.size
  obtain ⟨m, W, hf, hg⟩ := h
  by_cases hlt : i < f.size
  · by_cases hlen : column.length = f.size
    · rw [hf.size] at hlt hlen
      have hnum : Numbers m column := ⟨hlen, hc⟩
      have hd : coord column i ≠ 0 := by
        have hz := hi _ (hnum.getElem? hlt)
        rwa [zero_eq, fin_beq, decide_eq_true_iff] at hz
      have hcol := eq_embed_of_lists hc hlen
      obtain ⟨f', hf', hrep⟩ :=
        hf.update (p := ⟨i, hlt⟩) (d := fun k : Fin m => coord column k) hd
      obtain ⟨g', hg', hrep'⟩ :=
        hg.update (p := ⟨i, hlt⟩) (d := fun k : Fin m => coord column k) hd
      rw [considered_eq (considers_of_substantial hc hlen hs _)] at hrep hrep'
      rw [← hcol] at hf' hg'
      rw [hf', hg']
      exact .ok ⟨m, _, hrep, hrep'⟩
    -- a refusal says no more than the sizes, which are the same
    · have herror (e : BasisInverse (Extended K)) (he : e.size = f.size) :
          e.update i column = .error (.sizeMismatch column.length f.size) := by
        unfold BasisInverse.update requireSize Checked.require
        rw [if_pos (he ▸ hlt), if_neg (he ▸ hlen), he]
        rfl
      rw [herror f rfl, herror g hsize]
      exact .error _
  · have herror (e : BasisInverse (Extended K)) (he : e.size = f.size) :
        e.update i column = .error (.outOfRange i f.size) := by
      unfold BasisInverse.update Checked.require
      rw [if_neg (he ▸ hlt), he]
      rfl
    rw [herror f rfl, herror g hsize]
    exact .error _

/-- An exchange makes a representation one exchange older. -/
theorem exchanges_of_update {α : Type} [Scalar α] {f g : BasisInverse α} {i : Nat} {column : List α}
    (h : f.update i column = .ok g) :
    g.threshold = f.threshold ∧ g.exchanges = f.exchanges + 1 := by
  obtain ⟨_, -, h⟩ := Checked.bind_eq_ok.mp h
  obtain ⟨_, -, h⟩ := Checked.bind_eq_ok.mp h
  cases f with
  | product f =>
    obtain ⟨g', hg, h⟩ := Checked.bind_eq_ok.mp h
    cases h
    obtain ⟨eta, -, hg⟩ := Checked.bind_eq_ok.mp hg
    cases hg
    exact ⟨rfl, by simp [exchanges]⟩
  | explicit f =>
    obtain ⟨g', hg, h⟩ := Checked.bind_eq_ok.mp h
    cases h
    obtain ⟨_, -, hg⟩ := Checked.bind_eq_ok.mp hg
    obtain ⟨_, -, hg⟩ := Checked.bind_eq_ok.mp hg
    obtain ⟨rows, -, hg⟩ := Checked.bind_eq_ok.mp hg
    cases hg
    exact ⟨rfl, rfl⟩

/-! ## §4.  Fresh starts -/

variable [IsStrictOrderedRing K]

/-- **Both start over, or neither does.** -/
theorem Twins.refresh {columns : List (List (Extended K))}
    (hc : ∀ c ∈ columns, (NumberSet.finite K).Lists c) :
    Agree Twins (f.refresh columns) (g.refresh columns) := by
  cases hf : f.refresh columns with
  | error cause =>
    rw [refresh_error_iff.mpr (refresh_error_iff.mp hf)]
    exact .error cause
  | ok f' =>
    cases hg : g.refresh columns with
    | error cause =>
      rw [refresh_error_iff.mpr (refresh_error_iff.mp hg)] at hf
      cases hf
    | ok g' =>
      exact .ok ⟨_, _, (represents_of_refresh rfl hc hf).2, (represents_of_refresh rfl hc hg).2⟩

end BasisInverse

end BoundedSimplex
