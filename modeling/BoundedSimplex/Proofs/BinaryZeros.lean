/-
  BoundedSimplex.Proofs.BinaryZeros — what zeros do in binary arithmetic.

  A binary number is given by its sign, its exponent and its mantissa, and an operation unpacks its
  arguments and packs its result.  There is one zero of each sign; only these compare as equal to
  zero, and in front of a sum they hand on the other number as it was unpacked.

  Main result:
    * `instLawfulZeroFloat` — binary arithmetic obeys the laws of zero.
-/
import BoundedSimplex.Proofs.Zeros
import Mathlib

namespace BoundedSimplex

namespace Binary

open Float.Model Float.Model.UnpackedFloat

theorem zero_unpack : (0.0 : Float).toModel.unpack = .zero .positive := by rfl

/-- What compares as equal to zero is one of its two forms. -/
theorem beq_zero_iff {z : Float} : Float.beq z 0.0 = true ↔ ∃ s, z.toModel.unpack = .zero s := by
  show z.toModel.unpack.beq (0.0 : Float).toModel.unpack = true ↔ _
  rw [zero_unpack]
  constructor
  · intro h
    obtain ⟨-, -, h | ⟨-, h⟩ | ⟨h, -⟩⟩ := (beq_iff_ne_notANumber_and_eq _ _).mp h
    · exact ⟨_, h⟩
    · cases h
    · exact ⟨_, h⟩
  · rintro ⟨s, h⟩
    rw [h]
    rfl

/-- A zero in front of a sum is lost unless both numbers are zeros. -/
theorem zero_add_unpacked (s : Sign) {u : UnpackedFloat} (hu : ∀ t, u ≠ .zero t) :
    UnpackedFloat.add Format.binary64 (.zero s) u = u := by
  cases u with
  | zero t => exact absurd rfl (hu t)
  | notANumber => rfl
  | infinity t => rfl
  | finite t m e hm => rfl

theorem pack_unpack_model (x : Float.Model) : Float.Model.pack x.unpack = x := by
  obtain ⟨bits, hvalid⟩ := x
  have h : UnpackedFloat.pack Format.binary64 (UnpackedFloat.unpack Format.binary64 bits.toBitVec)
      = bits.toBitVec := pack_unpack_of_valid hvalid
  simp only [Float.Model.pack, Float.Model.unpack, h]

end Binary

instance instLawfulZeroFloat : LawfulZero Float where
  zero_beq := by decide
  zero_add z x hz hx := by
    obtain ⟨s, hs⟩ := Binary.beq_zero_iff.mp hz
    have hu : ∀ t, x.toModel.unpack ≠ .zero t := by
      intro t ht
      have hzero : Float.beq x 0.0 = true := Binary.beq_zero_iff.mpr ⟨t, ht⟩
      exact Bool.false_ne_true (hx.symm.trans hzero)
    show Float.ofModel (Float.Model.pack (.add .binary64 z.toModel.unpack x.toModel.unpack)) = x
    rw [hs, Binary.zero_add_unpacked s hu, Binary.pack_unpack_model]

end BoundedSimplex
