/-
  BoundedSimplex.Contract — what callers promise, and what happens when they do not.

  An operation of this library either has a result or ends because its contract was broken.  A
  broken contract is a `Violation`: it is not a result that a caller goes on with, and nothing
  that was under way is kept.  Failures that a caller can go on with are `Failure`s, elsewhere.
-/
namespace BoundedSimplex

/-! ## §1.  Causes -/

/-- The ways to break a contract. -/
inductive Violation where
  /-- A step of a pivot was asked for without an entering variable. -/
  | noEntering
  /-- A pivot was asked for without a leaving variable. -/
  | noLeaving
  /-- An exchange needs a basic variable that leaves. -/
  | exchangeWithoutBasic
  /-- The row of the leaving variable exists only for a basic one. -/
  | rowWithoutBasic
  /-- A merge would make a variable resolve to itself through others. -/
  | mergeCycle
  /-- A state that claims to satisfy the equations does not. -/
  | inconsistent
  /-- A position lies outside of a list. -/
  | outOfRange (index size : Nat)
  /-- A position that was not given to any variable yet was read. -/
  | unassigned
  /-- A list has the wrong number of entries. -/
  | sizeMismatch (actual expected : Nat)
  /-- A length does not fit into a machine word, or a list not into the address space. -/
  | sizeOverflow
  /-- More rows than variables were asked for. -/
  | tooManyRows (rows vars : Nat)
  /-- The operation needs a basis. -/
  | basisMissing
  /-- The operation belongs to the time before there is a basis. -/
  | basisPresent
  /-- A variable is basic where it must not be, or the other way around. -/
  | wrongRole (var : Nat)
  /-- The two index maps of a partition contradict each other. -/
  | brokenPartition
  /-- A new variable was not given the index after the last one. -/
  | misplaced (index expected : Nat)
  /-- A column that was folded into another one still has a number other than zero. -/
  | notCleared (column : Nat)
  /-- A pivot element is zero. -/
  | zeroPivot
  /-- A distance is negative or unordered. -/
  | negativeDistance
  /-- Prices were read that need to be recomputed. -/
  | stalePrices
  /-- The two variables of an operation have to differ. -/
  | sameVariable (var : Nat)
  /-- A variable that was merged away cannot be merged again. -/
  | alreadyMerged (var : Nat)
  /-- A variable that violates a bound cannot keep its value when it leaves the basis. -/
  | leavingOutOfBounds (index : Nat)
deriving DecidableEq, Repr

/-- The wording of the causes that have one. -/
def Violation.phrase? : Violation → Option String
  | .noEntering => some "no entering variable selected"
  | .noLeaving => some "no leaving variable selected"
  | .exchangeWithoutBasic => some "degenerate pivot requires a basic leaving variable"
  | .rowWithoutBasic => some "pivot row requires a basic leaving variable"
  | .mergeCycle => some "merging would create a cycle"
  | .inconsistent => some "inconsistent tableau"
  | _ => none

/-- A result, or the contract that was broken on the way to it. -/
abbrev Checked (β : Type) := Except Violation β

namespace Checked

variable {β γ : Type}

/-- An outcome is reached only through an outcome of the first part. -/
theorem bind_eq_ok {x : Checked β} {f : β → Checked γ} {c : γ} :
    (x >>= f) = .ok c ↔ ∃ b, x = .ok b ∧ f b = .ok c := by
  cases x with
  | error e => simp [bind, Except.bind]
  | ok b => simp [bind, Except.bind]

/-! ## §2.  Conditions -/

/-- Goes on only if a condition holds. -/
def require (p : Prop) [Decidable p] (cause : Violation) : Checked Unit :=
  if p then .ok () else .error cause

/-- A demand is met iff the proposition holds. -/
@[simp] theorem require_eq_ok {p : Prop} [Decidable p] {cause : Violation} {u : Unit} :
    require p cause = .ok u ↔ p := by
  unfold require; split <;> simp_all

/-! ## §3.  Positions of a list -/

/-- The entry at a position that has to exist. -/
def getAt (xs : List β) (i : Nat) : Checked β :=
  match xs[i]? with
  | some x => .ok x
  | none => .error (.outOfRange i xs.length)

/-- Access succeeds within the list only, and gives what stands there. -/
@[simp] theorem getAt_eq_ok {xs : List β} {i : Nat} {x : β} :
    getAt xs i = .ok x ↔ xs[i]? = some x := by
  unfold getAt; split <;> simp_all

/-- The list with the entry at a position replaced, which has to exist. -/
def setAt (xs : List β) (i : Nat) (x : β) : Checked (List β) :=
  if i < xs.length then .ok (xs.set i x) else .error (.outOfRange i xs.length)

/-- A place of the list can be replaced, no other one. -/
@[simp] theorem setAt_eq_ok {xs ys : List β} {i : Nat} {x : β} :
    setAt xs i x = .ok ys ↔ i < xs.length ∧ xs.set i x = ys := by
  by_cases h : i < xs.length <;> simp [setAt, h]

/-- The list with the entry at a position changed, which has to exist. -/
def modifyAt (xs : List β) (i : Nat) (f : β → β) : Checked (List β) :=
  if i < xs.length then .ok (xs.modify i f) else .error (.outOfRange i xs.length)

@[simp] theorem modifyAt_eq_ok {xs ys : List β} {i : Nat} {f : β → β} :
    modifyAt xs i f = .ok ys ↔ i < xs.length ∧ xs.modify i f = ys := by
  by_cases h : i < xs.length <;> simp [modifyAt, h]

/-- The entries from one position up to another one, all of which have to exist. -/
def slice (xs : List β) (start stop : Nat) : Checked (List β) :=
  if start ≤ stop ∧ stop ≤ xs.length then .ok ((xs.drop start).take (stop - start))
  else .error (.outOfRange stop xs.length)

/-- A part can be cut out if its ends lie in order within the list. -/
@[simp] theorem slice_eq_ok {xs ys : List β} {start stop : Nat} :
    slice xs start stop = .ok ys
      ↔ (start ≤ stop ∧ stop ≤ xs.length) ∧ (xs.drop start).take (stop - start) = ys := by
  by_cases h : start ≤ stop ∧ stop ≤ xs.length <;> simp [slice, h]

/-- The list with the entries from a position on replaced by those of another list, for which
    there has to be room. -/
def overwrite (xs : List β) (start : Nat) (ys : List β) : Checked (List β) :=
  if start + ys.length ≤ xs.length then
    .ok (xs.take start ++ ys ++ xs.drop (start + ys.length))
  else .error (.outOfRange (start + ys.length) xs.length)

/-- The entries to be replaced have to be there. -/
@[simp] theorem overwrite_eq_ok {xs ys zs : List β} {start : Nat} :
    overwrite xs start ys = .ok zs ↔ start + ys.length ≤ xs.length
      ∧ xs.take start ++ ys ++ xs.drop (start + ys.length) = zs := by
  by_cases h : start + ys.length ≤ xs.length <;> simp [overwrite, h]

/-- Every entry of a list, together with the entry of another one at the same position, which has to
    exist. -/
def zip? (xs : List β) (ys : List γ) : Checked (List (β × γ)) :=
  xs.zipIdx.mapM fun (x, i) => return (x, ← getAt ys i)

/-- A position that has to be assigned. -/
def assigned : Option Nat → Checked Nat
  | some i => .ok i
  | none => .error .unassigned

@[simp] theorem assigned_eq_ok {o : Option Nat} {i : Nat} : assigned o = .ok i ↔ o = some i := by
  cases o <;> simp [assigned]

/-! ## §4.  Sizes -/

/-- A machine word has so many values. -/
def wordSize : Nat := Nat.pow 2 64

/-- So many entries do not fit into memory: an entry takes up to 32 bytes, and a process addresses
    fewer than 2 to the power of 47 bytes. -/
def addressSpace : Nat := Nat.pow 2 42

/-- There is room for that many entries. -/
def requireRoom (n : Nat) : Checked Unit := require (n < addressSpace) .sizeOverflow

@[simp] theorem requireRoom_eq_ok {n : Nat} {u : Unit} :
    requireRoom n = .ok u ↔ n < addressSpace :=
  require_eq_ok

end Checked

end BoundedSimplex
