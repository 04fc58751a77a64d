/-
  BoundedSimplex.Failure — failures that a caller can go on with.

  A basis may turn out to be singular and a request may name variables that do not fit.  Unlike a
  broken contract, such a failure leaves a tableau to work with.
-/
namespace BoundedSimplex

/-! ## §1.  Building a representation of the basis inverse -/

/-- Why a basis has no usable inverse. -/
inductive FactorizationFailure where
  /-- Elimination found no usable pivot for a basis column. -/
  | singularBasis (column : Nat)
  /-- A basis column has the wrong number of entries. -/
  | dimensionMismatch (expected actual : Nat)
deriving DecidableEq, Repr

/-- The wording. -/
def FactorizationFailure.message : FactorizationFailure → String
  | .singularBasis column => s!"basis is singular: no usable pivot for basis column {column}"
  | .dimensionMismatch expected actual =>
    s!"basis column has length {actual}, expected {expected}"

/-! ## §2.  Requests to a tableau -/

/-- Why a tableau turned a request down. -/
inductive Failure where
  | factorization (cause : FactorizationFailure)
  /-- Not as many basic variables as there are rows. -/
  | basisSize (expected actual : Nat)
  /-- There is no such variable. -/
  | unknownVariable (var variableCount : Nat)
  /-- Only non-basic variables can be merged. -/
  | mergeBasic (var : Nat)
deriving DecidableEq, Repr

/-- The wording. -/
def Failure.message : Failure → String
  | .factorization cause => s!"basis factorization failed: {cause.message}"
  | .basisSize expected actual => s!"expected {expected} basic variables, got {actual}"
  | .unknownVariable var variableCount =>
    s!"variable {var} does not exist, there are {variableCount} variables"
  | .mergeBasic var => s!"cannot merge variable {var}: it is basic"

end BoundedSimplex
