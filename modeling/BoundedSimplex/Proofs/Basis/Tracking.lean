/-
  BoundedSimplex.Proofs.Basis.Tracking — representations that follow a basis through its exchanges.

  A representation starts from the columns of a basis.  From then on columns are exchanged for
  others, whose coordinates the representation itself computed, and now and then it starts over.
  Whatever the kind of the representation and wherever it started over, it answers as the inverse
  of the basis does.

  Main results:
    * `Tracks.represents` — the invariant of such a run;
    * `answers_of_tracks` — the answers, and that two representations of one basis agree.
-/
import BoundedSimplex.Proofs.Basis.Inverse
import Mathlib.Algebra.Field.Rat
import Mathlib.Algebra.Order.Ring.Rat

namespace BoundedSimplex

open Extended Matrix

variable {K : Type} [Field K] [LinearOrder K] {m : Nat}

/-- The representation was started from a basis, and followed its exchanges to the given one. -/
inductive Tracks : BasisInverse (Extended K) → Matrix (Fin m) (Fin m) K → Prop
  /-- A start from the columns of a basis that was accepted. -/
  | refreshed {f g : BasisInverse (Extended K)} {columns : List (List (Extended K))}
      (length : columns.length = m) (finite : Finite columns)
      (accepted : f.startOver columns = .ok (.ok (), g)) : Tracks g (basisMatrix m columns)
  /-- The exchange of column `p` for `a`, whose coordinates in the basis are `column`. -/
  | exchanged {f g : BasisInverse (Extended K)} {B : Matrix (Fin m) (Fin m) K} {p : Fin m}
      {a : Fin m → K} {column : List (Extended K)} (before : Tracks f B)
      (solved : f.solveColumn (embed a) = .ok column) (pivot : coord column p ≠ 0)
      (considered : f.Considers p fun i => coord column i) (updated : f.update p column = .ok g) :
      Tracks g (B.updateCol p a)

variable [IsStrictOrderedRing K]

/-- A representation that follows a basis stands for its inverse. -/
theorem Tracks.represents {f : BasisInverse (Extended K)} {B : Matrix (Fin m) (Fin m) K}
    (h : Tracks f B) : IsUnit B ∧ f.Represents B⁻¹ := by
  induction h with
  | refreshed length finite accepted =>
    exact BasisInverse.represents_of_refresh length finite
      (BasisInverse.startOver_eq_ok_iff.mp accepted)
  | @exchanged f g B p a column _ solved pivot considered updated ih =>
    obtain ⟨hB, hf⟩ := ih
    have hdet := (isUnit_iff_isUnit_det B).mp hB
    -- the column that an exchange is made with is the one that was solved for
    have hcolumn : column = embed (B⁻¹ *ᵥ a) := Except.ok.inj (solved.symm.trans (hf.column a))
    have hcoord : (fun i : Fin m => coord column i) = B⁻¹ *ᵥ a := by
      funext i
      rw [hcolumn, coord_embed]
    have hp : (B⁻¹ *ᵥ a) p ≠ 0 := by
      rw [← hcoord]
      exact pivot
    rw [hcoord] at considered
    rw [hcolumn] at updated
    obtain ⟨hu, g', hg', hrep⟩ := hf.exchange hB hp considered
    have ha : B *ᵥ (B⁻¹ *ᵥ a) = a := by rw [mulVec_mulVec, mul_nonsing_inv _ hdet, one_mulVec]
    rw [ha] at hu hrep
    rw [hg'] at updated
    cases updated
    exact ⟨hu, hrep⟩

/-- **The answers of a representation that follows a basis.**  Both systems have a solution, which
    is the only one, for every right-hand side; the rows are those of the inverse; every
    representation of the same basis, of either kind and with whatever past, answers the same; and
    no exchange with a nonzero pivot entry is refused. -/
theorem answers_of_tracks {f : BasisInverse (Extended K)} {B : Matrix (Fin m) (Fin m) K}
    (h : Tracks f B) :
    (∀ y, ∃ x, f.solveColumn (embed y) = .ok (embed x) ∧ ∀ z, B *ᵥ z = y ↔ z = x)
      ∧ (∀ y, ∃ x, f.solveRow (embed y) = .ok (embed x) ∧ ∀ z, z ᵥ* B = y ↔ z = x)
      ∧ (B * B⁻¹ = 1 ∧ B⁻¹ * B = 1 ∧ f.rows = .ok (rowsOf B⁻¹))
      ∧ (∀ g : BasisInverse (Extended K), Tracks g B →
          (∀ y : Fin m → K, g.solveColumn (embed y) = f.solveColumn (embed y))
            ∧ (∀ y : Fin m → K, g.solveRow (embed y) = f.solveRow (embed y)) ∧ g.rows = f.rows)
      ∧ ∀ (p : Fin m) (a : Fin m → K) (column : List (Extended K)),
          f.solveColumn (embed a) = .ok column → coord column p ≠ 0 →
            ∃ g, f.update p column = .ok g := by
  obtain ⟨hB, hf⟩ := h.represents
  have hdet := (isUnit_iff_isUnit_det B).mp hB
  refine ⟨fun y => ⟨_, hf.column y, fun z => ?_⟩, fun y => ⟨_, hf.row y, fun z => ?_⟩,
    ⟨mul_nonsing_inv B hdet, nonsing_inv_mul B hdet, hf.rows⟩, fun g hg => ?_,
    fun p a column hs hp => ?_⟩
  -- solutions are unique because the basis is invertible, whichever representation solved
  · constructor
    · rintro rfl
      rw [mulVec_mulVec, nonsing_inv_mul _ hdet, one_mulVec]
    · rintro rfl
      rw [mulVec_mulVec, mul_nonsing_inv _ hdet, one_mulVec]
  · constructor
    · rintro rfl
      rw [vecMul_vecMul, mul_nonsing_inv _ hdet, vecMul_one]
    · rintro rfl
      rw [vecMul_vecMul, nonsing_inv_mul _ hdet, vecMul_one]
  · obtain ⟨-, hg⟩ := hg.represents
    refine ⟨fun y => ?_, fun y => ?_, ?_⟩
    · rw [hf.column, hg.column]
    · rw [hf.row, hg.row]
    · rw [hf.rows, hg.rows]
  · obtain rfl : embed (B⁻¹ *ᵥ a) = column := Except.ok.inj ((hf.column a).symm.trans hs)
    rw [coord_embed] at hp
    obtain ⟨g, hg, -⟩ := hf.update hp
    exact ⟨g, hg⟩

/-- Both kinds follow the exchange of the second column of a basis for `(4, 3)`, and answer the same
    afterwards. -/
theorem tracks_both_kinds : ∃ (B : Matrix (Fin 2) (Fin 2) ℚ) (f g : BasisInverse (Extended ℚ)),
    B = (basisMatrix 2 [[fin 2, fin 0], [fin 1, fin 1]]).updateCol 1 ![4, 3]
      ∧ Tracks f B ∧ Tracks g B ∧ f.rows = .ok (rowsOf B⁻¹)
      ∧ ∀ y : Fin 2 → ℚ, g.solveColumn (embed y) = f.solveColumn (embed y) := by
  -- the start and the coordinates of the new column, for one representation
  have follow (f₀ : BasisInverse (Extended ℚ))
      (h : ((f₀.refresh [[fin 2, fin 0], [fin 1, fin 1]]).toOption.bind fun f =>
        (f.solveColumn (embed ![4, 3])).toOption) = some [fin (1 / 2), fin 3]) :
      ∃ f, Tracks f
        ((basisMatrix 2 [[fin (2 : ℚ), fin 0], [fin 1, fin 1]]).updateCol 1 ![4, 3]) := by
    obtain ⟨f, hf, hs⟩ := Option.bind_eq_some_iff.mp h
    have hstart : Tracks f (basisMatrix 2 [[fin 2, fin 0], [fin 1, fin 1]]) :=
      .refreshed (f := f₀) rfl (by unfold Finite; decide +kernel)
        (BasisInverse.startOver_eq_ok_iff.mpr
          (by cases hr : f₀.refresh _ <;> simp_all [Except.toOption]))
    have hsolve : f.solveColumn (embed ![4, 3]) = .ok [fin (1 / 2), fin 3] := by
      cases hr : f.solveColumn (embed ![4, 3]) <;> simp_all [Except.toOption]
    have hpivot : coord [fin (1 / 2 : ℚ), fin 3] (1 : Fin 2) ≠ 0 := by decide +kernel
    have hcounts : Counts (1 : Fin 2) fun i => coord [fin (1 / 2 : ℚ), fin 3] i := by
      decide +kernel
    obtain ⟨g, hg⟩ := (answers_of_tracks hstart).2.2.2.2 1 _ _ hsolve hpivot
    refine ⟨g, hstart.exchanged hsolve hpivot ?_ hg⟩
    cases f with
    | product f => exact hcounts
    | explicit f => trivial
  obtain ⟨f, hf⟩ := follow (.product (.identity 2 0)) (by decide +kernel)
  obtain ⟨g, hg⟩ := follow (.explicit (.identity 2 0)) (by decide +kernel)
  have answers := answers_of_tracks hf
  exact ⟨_, f, g, rfl, hf, hg, answers.2.2.1.2.2, (answers.2.2.2.1 g hg).1⟩

end BoundedSimplex
