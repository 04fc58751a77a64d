/-
  BoundedSimplex.Proofs.Basis.Failures — where a fresh start of an inverse can end.

  The columns are looked at one after the other, then eliminated one after the other.  The first
  column with the wrong number of entries ends the work, or else the first one without a usable
  pivot.  Which one it is depends on the columns alone, and the representation in use is not part
  of the work: demands that fail can be taken out of a sequence of demands, and nothing shows
  that they were made.

  Main results:
    * `startOver_error_iff_endsAt` — at which column a fresh start ends, and what it leaves;
    * `serveAll_erase` — failed demands leave no trace.
-/
import BoundedSimplex.Proofs.Basis.Shape

namespace BoundedSimplex

variable {α : Type} [Scalar α]

namespace TriangularFactors

/-! ## §1.  The column that ends the work -/

/-- Elimination of these columns ends for this cause: at a column with the wrong number of
    entries, all earlier ones being fine, or at one without a usable pivot, all earlier
    ones being eliminated. -/
inductive EndsAt (columns : List (List α)) : FactorizationFailure → Prop
  | wrongLength (k : Nat) (column : List α) (at_k : columns[k]? = some column)
      (wrong : column.length ≠ columns.length)
      (earlier : ∀ column ∈ columns.take k, column.length = columns.length) :
      EndsAt columns (.dimensionMismatch columns.length column.length)
  | noPivot (k : Nat) (lt : k < columns.length)
      (fit : ∀ column ∈ columns, column.length = columns.length) (reached : TriangularFactors α)
      (eliminated : (List.range k).foldlM eliminate
        ⟨flip columns.length columns, List.range columns.length⟩ = .ok reached)
      (stuck : reached.eliminate k = .error (.singularBasis k)) : EndsAt columns (.singularBasis k)

/-- A step fails for its own column. -/
theorem eliminate_error {f : TriangularFactors α} {k : Nat} {cause : FactorizationFailure}
    (h : f.eliminate k = .error cause) : cause = .singularBasis k := by
  unfold eliminate at h
  dsimp only at h
  split at h
  · cases h
  · cases h
    rfl

/-- Steps one after the other fail exactly if one of them does, after those before it succeeded. -/
theorem eliminateAll_error_iff {f : TriangularFactors α} {m : Nat} {cause : FactorizationFailure} :
    (List.range m).foldlM eliminate f = .error cause ↔ ∃ k < m, ∃ g,
      (List.range k).foldlM eliminate f = .ok g ∧ g.eliminate k = .error (.singularBasis k)
        ∧ cause = .singularBasis k := by
  induction m with
  | zero =>
    constructor
    · intro h
      cases h
    · rintro ⟨k, hk, -⟩
      omega
  | succ m ih =>
    have hlast : (List.range (m + 1)).foldlM eliminate f
        = (List.range m).foldlM eliminate f >>= fun g => g.eliminate m := by
      rw [List.range_succ, List.foldlM_append]
      simp
    rw [hlast]
    constructor
    · intro h
      cases hm : (List.range m).foldlM eliminate f with
      | error e =>
        rw [hm] at h
        cases h
        obtain ⟨k, hk, hstuck⟩ := ih.mp hm
        exact ⟨k, by omega, hstuck⟩
      | ok g =>
        rw [hm] at h
        have h : g.eliminate m = .error cause := h
        obtain rfl := eliminate_error h
        exact ⟨m, by omega, g, hm, h, rfl⟩
    · rintro ⟨k, hk, g, hg, hstuck, rfl⟩
      by_cases hkm : k = m
      · -- the last step is the one
        rw [← hkm, hg]
        exact hstuck
      · rw [ih.mpr ⟨k, by omega, g, hg, hstuck, rfl⟩]
        rfl

/-- Columns are turned down at the column that ends the work. -/
theorem ofColumns_error_iff {columns : List (List α)} {cause : FactorizationFailure} :
    ofColumns columns = .error cause ↔ EndsAt columns cause := by
  unfold ofColumns
  constructor
  · intro h
    split at h
    next column hfind =>
      cases h
      obtain ⟨hwrong, k, hk, hcolumn, hearlier⟩ := List.find?_eq_some_iff_getElem.mp hfind
      refine .wrongLength k column (List.getElem?_eq_some_iff.mpr ⟨hk, hcolumn⟩)
        (by simpa using hwrong) fun c hc => ?_
      obtain ⟨i, hi, rfl⟩ := List.mem_take_iff_getElem.mp hc
      simpa using hearlier i (by omega)
    next hfind =>
      have hfit (column : List α) (hc : column ∈ columns) : column.length = columns.length := by
        simpa using List.find?_eq_none.mp hfind column hc
      unfold ofRows at h
      rw [flip, List.length_map, List.length_range] at h
      obtain ⟨k, hk, g, hg, hstuck, rfl⟩ := eliminateAll_error_iff.mp h
      exact .noPivot k hk hfit g hg hstuck
  · intro h
    cases h with
    | wrongLength k column hcolumn hwrong hearlier =>
      obtain ⟨hk, hcolumn⟩ := List.getElem?_eq_some_iff.mp hcolumn
      have hfind : columns.find? (fun c => c.length != columns.length) = some column := by
        refine List.find?_eq_some_iff_getElem.mpr ⟨by simpa using hwrong, k, hk, hcolumn,
          fun i hi => ?_⟩
        have hmem : columns[i] ∈ columns.take k :=
          List.mem_take_iff_getElem.mpr ⟨i, by omega, rfl⟩
        simpa using hearlier _ hmem
      rw [hfind]
    | noPivot k hk hfit g hg hstuck =>
      have hfind : columns.find? (fun c => c.length != columns.length) = none :=
        List.find?_eq_none.mpr fun c hc => by simpa using hfit c hc
      rw [hfind]
      unfold ofRows
      dsimp only
      rw [flip, List.length_map, List.length_range]
      exact eliminateAll_error_iff.mpr ⟨k, hk, g, hg, hstuck, rfl⟩

end TriangularFactors

namespace BasisInverse

/-- **Where a fresh start ends**, whatever represents the inverse so far, and what it leaves: the
    representation that it was to replace. -/
theorem startOver_error_iff_endsAt {f g : BasisInverse α} {columns : List (List α)}
    {cause : FactorizationFailure} :
    f.startOver columns = .ok (.error cause, g)
      ↔ TriangularFactors.EndsAt columns cause ∧ g = f := by
  rw [startOver_eq_error_iff, refresh_error_iff, TriangularFactors.ofColumns_error_iff,
    eq_comm (a := f)]

/-! ## §2.  Demands on a representation in use -/

/-- What a representation is asked for while it is in use. -/
inductive Demand (α : Type) where
  /-- Follow the exchange of a column with these coordinates. -/
  | follow (index : Nat) (column : List α)
  /-- Start over from these columns. -/
  | startOver (columns : List (List α))

/-- The representation that is in use after a demand, whether it could start over or not. -/
def serve (f : BasisInverse α) : Demand α → Checked (BasisInverse α)
  | .follow index column => f.update index column
  | .startOver columns => do
    let (_, g) ← f.startOver columns
    return g

/-- The columns to start over from are turned down. -/
def Demand.fails : Demand α → Bool
  | .follow _ _ => false
  | .startOver columns => !(TriangularFactors.ofColumns columns).isOk

/-- A demand that fails changes nothing. -/
theorem serve_of_fails (f : BasisInverse α) {d : Demand α} (h : d.fails = true) :
    f.serve d = .ok f := by
  cases d with
  | follow index column => cases h
  | startOver columns =>
    cases hc : TriangularFactors.ofColumns columns with
    | ok factors =>
      rw [Demand.fails, hc] at h
      cases h
    | error cause =>
      have hends := TriangularFactors.ofColumns_error_iff.mp hc
      rw [serve, startOver_error_iff_endsAt.mpr ⟨hends, rfl⟩]
      rfl

/-- **Demands that fail leave no trace**: without them, the representation in use at the end is the
    same. -/
theorem serveAll_erase (f : BasisInverse α) (ds : List (Demand α)) :
    ds.foldlM serve f = (ds.filter fun d => !d.fails).foldlM serve f := by
  induction ds generalizing f with
  | nil => rfl
  | cons d ds ih =>
    rw [List.filter_cons]
    cases hd : d.fails with
    | true =>
      rw [List.foldlM_cons, serve_of_fails f hd]
      exact ih f
    | false =>
      rw [if_pos (by rfl), List.foldlM_cons, List.foldlM_cons]
      cases f.serve d with
      | error cause => rfl
      | ok g => exact ih g

end BasisInverse

end BoundedSimplex
