/-
  BoundedSimplex.Basis.BasisSplit — which variables are basic, and where every variable stands.

  The variables are split into a list of basic ones, one per row, and a list of the others.  Each
  variable knows its position in the list it belongs to.  While a split is being set up, positions
  may be unassigned.
-/
import BoundedSimplex.Contract
import BoundedSimplex.IndexSet

namespace BoundedSimplex

/-- The two lists of variables and the positions of the variables in them. -/
structure BasisSplit where
  basicSet : IndexSet
  /-- The basic variable of each row. -/
  basic : List (Option Nat)
  nonBasic : List Nat
  /-- By variable, the position in the list that the variable belongs to. -/
  positions : List (Option Nat)
deriving BEq

namespace BasisSplit

/-! ## §1.  Setting up -/

/-- No rows and no variables. -/
def empty : BasisSplit := ⟨.empty, [], [], []⟩

/-- `m` rows and `n` variables, nothing assigned yet. -/
def blank (m n : Nat) : BasisSplit := ⟨.empty, List.replicate m none, [], List.replicate n none⟩

/-- `blank`, if there are enough variables for the rows and there is room for the variables. -/
def blank? (m n : Nat) : Checked BasisSplit := do
  Checked.require (m ≤ n) (.tooManyRows m n)
  Checked.requireRoom n
  return blank m n

/-- Makes a variable basic, in a row still to be assigned. -/
def markBasic (s : BasisSplit) (v : Nat) : Checked BasisSplit := do
  Checked.require (v < s.positions.length) (.outOfRange v s.positions.length)
  return { s with basicSet := s.basicSet.insert v }

/-- Gives a basic variable its row. -/
def assignRow (s : BasisSplit) (v i : Nat) : Checked BasisSplit := do
  Checked.require (s.basicSet.contains v) (.wrongRole v)
  let basic ← Checked.setAt s.basic i (some v)
  let positions ← Checked.setAt s.positions v (some i)
  return { s with basic, positions }

/-- Records the positions of a list of variables. -/
def placeAll (positions : List (Option Nat)) (vs : List Nat) : List (Option Nat) :=
  vs.zipIdx.foldl (fun ps (v, j) => ps.set v (some j)) positions

/-- Lists the variables that are not basic in increasing order. -/
def listNonBasic (s : BasisSplit) : Checked BasisSplit := do
  let nonBasic := (List.range s.positions.length).filter fun v => !s.basicSet.contains v
  Checked.require (nonBasic.length + s.basic.length = s.positions.length) .brokenPartition
  return { s with nonBasic, positions := placeAll s.positions nonBasic }

/-- One more variable, which is basic in one more row. -/
def pushBasic (s : BasisSplit) : BasisSplit :=
  { s with
    basicSet := s.basicSet.insert s.positions.length
    basic := s.basic ++ [some s.positions.length]
    positions := s.positions ++ [some s.basic.length] }

/-- The new variable, and the split with it. -/
def addBasic (s : BasisSplit) : Nat × BasisSplit := (s.positions.length, s.pushBasic)

/-! ## §2.  Reading -/

/-- The variable is basic. -/
def isBasic (s : BasisSplit) (v : Nat) : Bool := s.basicSet.contains v

/-- The variable of a row, which may still be unassigned. -/
def slotAt (s : BasisSplit) (i : Nat) : Checked (Option Nat) := Checked.getAt s.basic i

/-- The variable of a row. -/
def basicAt (s : BasisSplit) (i : Nat) : Checked Nat := do Checked.assigned (← s.slotAt i)

/-- The variable at a position of the list of non-basic ones. -/
def nonBasicAt (s : BasisSplit) (j : Nat) : Checked Nat := Checked.getAt s.nonBasic j

/-- The position of a variable, which may still be unassigned. -/
def placeOf (s : BasisSplit) (v : Nat) : Checked (Option Nat) := Checked.getAt s.positions v

/-- The position of a variable. -/
def positionOf (s : BasisSplit) (v : Nat) : Checked Nat := do Checked.assigned (← s.placeOf v)

/-- A variable is in the given list at the given position, and knows it. -/
def fits (s : BasisSplit) (basic : Bool) (v i : Nat) : Bool :=
  s.isBasic v == basic && s.positions[v]? == some (some i)

/-- The lists and the positions agree, and there are as many basic variables as rows. -/
def isConsistent (s : BasisSplit) : Bool :=
  s.basicSet.size == s.basic.length
    && s.basic.zipIdx.all (fun (slot, i) => slot.any fun v => s.fits true v i)
    && s.nonBasic.zipIdx.all (fun (v, j) => s.fits false v j)

/-! ## §3.  Exchanging -/

/-- Exchanges the variable at a non-basic position and the variable of a row, and names the two. -/
def swap (s : BasisSplit) (j i : Nat) : Checked ((Nat × Nat) × BasisSplit) := do
  let entering ← s.nonBasicAt j
  let leaving ← s.basicAt i
  let basic ← Checked.setAt s.basic i (some entering)
  let nonBasic ← Checked.setAt s.nonBasic j leaving
  let positions ← Checked.setAt (← Checked.setAt s.positions entering (some i)) leaving (some j)
  return ((entering, leaving),
    { basicSet := (s.basicSet.erase leaving).insert entering, basic, nonBasic, positions })

end BasisSplit

end BoundedSimplex
