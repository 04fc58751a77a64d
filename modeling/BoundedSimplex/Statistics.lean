/-
  BoundedSimplex.Statistics — how often each kind of event happened.
-/
namespace BoundedSimplex

/-- The kinds of events that are counted. -/
inductive Counter where
  | pivots
  | degeneratePivots
  | fakePivots
  | refactorizations
  | boundTightenings
  | mergedColumns
  | addedRows
  | assignmentComputations
deriving DecidableEq, Repr

namespace Counter

/-- All counters, in the order of their listing. -/
def all : List Counter :=
  [pivots, degeneratePivots, fakePivots, refactorizations, boundTightenings, mergedColumns,
    addedRows, assignmentComputations]

/-- The name in a listing. -/
def name : Counter → String
  | pivots => "Pivots"
  | degeneratePivots => "DegeneratePivots"
  | fakePivots => "FakePivots"
  | refactorizations => "Refactorizations"
  | boundTightenings => "BoundTightenings"
  | mergedColumns => "MergedColumns"
  | addedRows => "AddedRows"
  | assignmentComputations => "AssignmentComputations"

end Counter

/-- The events counted so far; a counter occurs once for each of its events. -/
structure Statistics where
  events : List (Counter × Nat)
deriving DecidableEq, Repr

namespace Statistics

/-- All counters at zero. -/
def zero : Statistics := ⟨Counter.all.map fun c => (c, 0)⟩

/-- Counts one event. -/
def increment (s : Statistics) (c : Counter) : Statistics :=
  ⟨s.events.map fun (d, k) => (d, if d = c then k + 1 else k)⟩

/-- The count of one kind of event. -/
def get (s : Statistics) (c : Counter) : Nat := (s.events.lookup c).getD 0

/-- Every counter with its count. -/
def text (s : Statistics) : String :=
  String.intercalate ", " (s.events.map fun (c, k) => s!"{c.name}: {k}")

end Statistics

end BoundedSimplex
