/-
  BoundedSimplex.IndexSet — finite sets of indices, listed in increasing order.

  The order is part of the type, so two sets with the same members are equal.
-/
namespace BoundedSimplex

/-! ## §1.  Increasing lists -/

namespace Increasing

/-- Puts `x` in its place; nothing changes if it is there already. -/
def insert (x : Nat) : List Nat → List Nat
  | [] => [x]
  | y :: ys => if x < y then x :: y :: ys else if x = y then y :: ys else y :: insert x ys

theorem mem_insert {x z : Nat} {ys : List Nat} : z ∈ insert x ys ↔ z = x ∨ z ∈ ys := by
  induction ys with
  | nil => simp [insert]
  | cons y ys ih => unfold insert; split <;> (try split) <;> grind

theorem pairwise_insert {x : Nat} {ys : List Nat} (h : ys.Pairwise (· < ·)) :
    (insert x ys).Pairwise (· < ·) := by
  induction ys with
  | nil => simp [insert]
  | cons y ys ih =>
    have ⟨hy, hys⟩ := List.pairwise_cons.mp h
    unfold insert
    split
    · exact List.pairwise_cons.mpr ⟨by grind, h⟩
    · split
      · exact h
      · refine List.pairwise_cons.mpr ⟨fun z hz => ?_, ih hys⟩
        rcases mem_insert.mp hz with rfl | hz
        · omega
        · exact hy z hz

end Increasing

/-! ## §2.  The sets -/

/-- A finite set of indices. -/
structure IndexSet where
  toList : List Nat
  increasing : toList.Pairwise (· < ·) := by simp
deriving DecidableEq

namespace IndexSet

instance instBEqIndexSet : BEq IndexSet := ⟨fun s t => s.toList == t.toList⟩

/-- No index at all. -/
def empty : IndexSet := ⟨[], by simp⟩

/-- Number of members. -/
def size (s : IndexSet) : Nat := s.toList.length

/-- Membership. -/
def contains (s : IndexSet) (x : Nat) : Bool := s.toList.contains x

/-- Adds a member. -/
def insert (s : IndexSet) (x : Nat) : IndexSet :=
  ⟨Increasing.insert x s.toList, Increasing.pairwise_insert s.increasing⟩

/-- Takes a member out. -/
def erase (s : IndexSet) (x : Nat) : IndexSet :=
  ⟨s.toList.filter (· != x), s.increasing.filter _⟩

@[simp] theorem contains_empty (x : Nat) : empty.contains x = false := rfl

@[simp] theorem contains_insert (s : IndexSet) (x y : Nat) :
    (s.insert x).contains y = (y == x || s.contains y) := by
  rw [Bool.eq_iff_iff]
  simp [contains, insert, Increasing.mem_insert]

@[simp] theorem contains_erase (s : IndexSet) (x y : Nat) :
    (s.erase x).contains y = (y != x && s.contains y) := by
  rw [Bool.eq_iff_iff]
  simp [contains, erase, and_comm]

end IndexSet

end BoundedSimplex
