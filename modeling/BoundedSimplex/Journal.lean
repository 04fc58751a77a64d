/-
  BoundedSimplex.Journal — what a tableau tells about its work.

  Notices go to the watchers that registered for them, remarks to whoever reads the log at the level
  of the remark.  Both are data; the wording of a remark is fixed here as well.
-/
import BoundedSimplex.Failure
import BoundedSimplex.Linear.LinearEquation

namespace BoundedSimplex

/-! ## §1.  Notices -/

/-- A change that watchers are told about. -/
inductive Notice (α : Type) where
  | value (var : Nat) (x : α)
  | lower (var : Nat) (x : α)
  | upper (var : Nat) (x : α)
  | resize (rows vars : Nat)
deriving Repr

/-- Watchers are told apart by name. -/
abbrev Watcher := String

/-- Who is registered for what, in the order of registration. -/
structure Watchers where
  /-- For the values and bounds of all variables. -/
  everything : List Watcher
  /-- For the value and the bounds of one variable. -/
  single : List (Nat × Watcher)
  /-- For the dimensions. -/
  dimensions : List Watcher
deriving Repr

namespace Watchers

/-- Nobody. -/
def none : Watchers := ⟨[], [], []⟩

/-- Those told about a variable: first the watchers of all variables, then those of this one. -/
def of (w : Watchers) (v : Nat) : List Watcher :=
  w.everything ++ (w.single.filter fun r => r.1 == v).map (·.2)

/-- Registers for all variables. -/
def watchAll (w : Watchers) (name : Watcher) : Watchers :=
  { w with everything := w.everything ++ [name] }

/-- Registers for one variable. -/
def watchVariable (w : Watchers) (name : Watcher) (v : Nat) : Watchers :=
  { w with single := w.single ++ [(v, name)] }

/-- Takes back all registrations of a watcher for one variable. -/
def unwatchVariable (w : Watchers) (name : Watcher) (v : Nat) : Watchers :=
  { w with single := w.single.filter fun r => !(r.1 == v && r.2 == name) }

/-- Registers for the dimensions. -/
def watchDimensions (w : Watchers) (name : Watcher) : Watchers :=
  { w with dimensions := w.dimensions ++ [name] }

end Watchers

/-! ## §2.  Remarks -/

/-- How much a remark matters, from the most to the least. -/
inductive Level where
  | warn
  | debug
  | trace
deriving DecidableEq, Repr

namespace Level

/-- The word in front of a logged line. -/
def name : Level → String
  | warn => "WARN"
  | debug => "DEBUG"
  | trace => "TRACE"

/-- Place in the order of levels. -/
def rank : Level → Nat
  | warn => 0
  | debug => 1
  | trace => 2

/-- A log of this level shows remarks of the other one. -/
def shows (log remark : Level) : Bool := remark.rank ≤ log.rank

end Level

/-- Who leaves when a variable enters. -/
inductive Leaving where
  /-- The basic variable of a row. -/
  | basic (index : Nat)
  /-- Nobody: the entering variable reaches its other bound first. -/
  | entering
deriving DecidableEq, Repr

/-- The wording, as a choice that was made. -/
def Leaving.text : Leaving → String
  | basic index => s!"Some(Basic({index}))"
  | entering => "Some(Entering)"

/-- Something worth a line in the log. -/
inductive Remark (α : Type) where
  | dimensions (rows vars : Nat)
  | refreshed (rows exchanges : Nat)
  | refreshFailed (cause : FactorizationFailure)
  | exchangedKept (cause : Failure)
  | addingEquation (equation : LinearEquation α)
  | merging (source target : Nat)
  | storing (rows vars : Nat)
  | restoring (rows vars : Nat)
  | tighteningLower (var : Nat) (bound : α)
  | tighteningUpper (var : Nat) (bound : α)
  | movingNonBasic (var : Nat) (x : α)
  | ratioTest (leaving : Leaving) (ratio : α) (var : Nat)
  | harrisAccepts (ratio exactMinimum : α)
  | harrisEmpty (bound : α)
  | unboundedMove
  | fakePivot (var : Nat) (change : α)
  | pivot (entering : Nat) (enteringValue : α) (leaving : Nat) (leavingValue : α)
  | degeneratePivot (entering leaving : Nat)
  | rowMissing (basicIndex : Nat)
  | basicCostChanged
  | listing (text : String)
deriving Repr

namespace Remark

variable {α : Type}

/-- The level of a remark. -/
def level : Remark α → Level
  | refreshFailed _ | exchangedKept _ | harrisEmpty _ | unboundedMove => .warn
  | dimensions _ _ | refreshed _ _ | addingEquation _ | merging _ _ | storing _ _ | restoring _ _
  | harrisAccepts _ _ | listing _ => .debug
  | tighteningLower _ _ | tighteningUpper _ _ | movingNonBasic _ _ | ratioTest _ _ _
  | fakePivot _ _ | pivot _ _ _ _ | degeneratePivot _ _ | rowMissing _ | basicCostChanged => .trace

variable [Scalar α] [Written α]

/-- The wording of a remark. -/
def text : Remark α → String
  | dimensions m n => s!"Setting tableau dimensions to {m} x {n}"
  | refreshed m k => s!"Refreshed basis factorization of dimension {m} after {k} updates"
  | refreshFailed cause => s!"Could not refresh basis factorization: {cause.message}"
  | exchangedKept cause =>
    s!"Refreshing the basis factorization failed, keeping the updated one: {cause.message}"
  | addingEquation e => s!"Adding equation {e.text}"
  | merging source target => s!"Merging x{source} into x{target}"
  | storing m n => s!"Storing tableau state ({m} x {n})"
  | restoring m n => s!"Restoring tableau state ({m} x {n})"
  | tighteningLower v x => s!"Tightening lower bound of x{v} to {Written.shortest x}"
  | tighteningUpper v x => s!"Tightening upper bound of x{v} to {Written.shortest x}"
  | movingNonBasic v x => s!"Setting non-basic x{v} to {Written.shortest x}"
  | ratioTest leaving ratio v =>
    s!"Ratio test: {leaving.text} with ratio {Written.shortest ratio} for entering x{v}"
  | harrisAccepts ratio exactMinimum =>
    s!"Harris ratio test accepts ratio {Written.shortest ratio} over the exact minimum "
      ++ Written.shortest exactMinimum
  | harrisEmpty bound =>
    s!"Harris ratio test found no candidate below its bound {Written.shortest bound}"
  | unboundedMove => "Fake pivot without a bound to move to, ignored"
  | fakePivot v change => s!"Fake pivot: x{v} moves by {Written.shortest change}"
  | pivot q x p y =>
    s!"Pivot: x{q} enters at {Written.shortest x}, x{p} leaves at {Written.shortest y}"
  | degeneratePivot q p => s!"Degenerate pivot: x{q} enters, x{p} leaves"
  | rowMissing i => s!"No pivot row for basic index {i}, cost function invalidated"
  | basicCostChanged => "Basic cost changed during pivot, cost function invalidated"
  | listing text => text

/-- A line of the log: the level, then the wording. -/
def line (r : Remark α) : String := s!"{r.level.name} {r.text}"

end Remark

/-! ## §3.  The journal -/

/-- An exchange that prices were asked to follow: the position of the entering variable, the row of
    the leaving one, and the pivot element. -/
structure ExchangeRecord (α : Type) where
  entering : Nat
  leaving : Nat
  pivotElement : α
deriving Repr

/-- Everything told so far, each kind in its order. -/
structure Journal (α : Type) where
  notices : List (Watcher × Notice α)
  remarks : List (Remark α)
  /-- Exchanges reported to prices that do not follow them. -/
  exchanges : List (ExchangeRecord α)
deriving Repr

namespace Journal

variable {α : Type}

/-- Nothing was told yet. -/
def empty : Journal α := ⟨[], [], []⟩

/-- Tells a notice to every watcher of a list. -/
def tell (j : Journal α) (watchers : List Watcher) (notice : Notice α) : Journal α :=
  { j with notices := j.notices ++ watchers.map fun w => (w, notice) }

/-- Adds a remark. -/
def add (j : Journal α) (r : Remark α) : Journal α := { j with remarks := j.remarks ++ [r] }

/-- Adds an exchange. -/
def addExchange (j : Journal α) (e : ExchangeRecord α) : Journal α :=
  { j with exchanges := j.exchanges ++ [e] }

/-- The lines that a log of the given level shows. -/
def lines [Scalar α] [Written α] (j : Journal α) (log : Level) : List String :=
  (j.remarks.filter fun r => log.shows r.level).map Remark.line

end Journal

end BoundedSimplex
