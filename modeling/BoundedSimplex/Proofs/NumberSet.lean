/-
  BoundedSimplex.Proofs.NumberSet — the numbers that a tableau works with.

  A set of numbers with zero, one, negatives, sums and products holds everything that a tableau
  makes of its coefficients before it solves a system.  All numbers are such a set, and so are the
  finite ones of an arithmetic with infinities.

  Main results:
    * `SystemMatrix.Over.mergeColumns`, `Tableau.Over.extendMatrix` — the
      coefficients stay in the set;
    * `Tableau.Over.remainder` — so does what the basic variables have to make up for;
    * `Tableau.Over.intersectBounds`, `Tableau.Over.fold` — so do the numbers in the
      course of a merge.
-/
import BoundedSimplex.Proofs.Shape
import BoundedSimplex.Proofs.Tableau.Growth
import BoundedSimplex.Proofs.Tableau.Merging
import BoundedSimplex.Tableau.Operation

namespace BoundedSimplex

/-! ## §1.  Sets of numbers -/

/-- A set of numbers that sums and products do not lead out of. -/
structure NumberSet (α : Type) [Scalar α] where
  mem : α → Prop
  mem_of_isFinite : ∀ {x}, Scalar.isFinite x = true → mem x
  zero : mem 0
  one : mem 1
  neg : ∀ {x}, mem x → mem (-x)
  add : ∀ {x y}, mem x → mem y → mem (x + y)
  mul : ∀ {x y}, mem x → mem y → mem (x * y)

namespace NumberSet

/-- All numbers. -/
def all (α : Type) [Scalar α] : NumberSet α where
  mem := fun _ => True
  mem_of_isFinite := fun _ => trivial
  zero := trivial
  one := trivial
  neg := fun _ => trivial
  add := fun _ _ => trivial
  mul := fun _ _ => trivial

/-- The numbers of a field, without the infinities beside it. -/
def finite (K : Type) [Field K] [LinearOrder K] : NumberSet (Extended K) where
  mem := fun x => Scalar.isFinite x = true
  mem_of_isFinite := id
  zero := rfl
  one := rfl
  neg := fun {x} hx => by
    obtain ⟨a, rfl⟩ := Extended.isFinite_iff.mp hx
    rfl
  add := fun {x y} hx hy => by
    obtain ⟨a, rfl⟩ := Extended.isFinite_iff.mp hx
    obtain ⟨b, rfl⟩ := Extended.isFinite_iff.mp hy
    rfl
  mul := fun {x y} hx hy => by
    obtain ⟨a, rfl⟩ := Extended.isFinite_iff.mp hx
    obtain ⟨b, rfl⟩ := Extended.isFinite_iff.mp hy
    rfl

variable {α : Type} [Scalar α] (N : NumberSet α)

/-- All entries of a list are in the set. -/
def Lists (xs : List α) : Prop := ∀ x ∈ xs, N.mem x

variable {N} {xs : List α}

/-- Past the end a list reads as zero, which is one of the numbers. -/
theorem Lists.getD (h : N.Lists xs) (i : Nat) : N.mem (xs.getD i 0) := by
  rw [List.getD_eq_getElem?_getD]
  cases hi : xs[i]? with
  | none => exact N.zero
  | some x => exact h x (List.mem_of_getElem? hi)

/-- Writing one of the numbers. -/
theorem Lists.set (h : N.Lists xs) (i : Nat) {x : α} (hx : N.mem x) : N.Lists (xs.set i x) := by
  intro y hy
  rcases List.mem_or_eq_of_mem_set hy with hy | rfl
  · exact h y hy
  · exact hx

/-- Changing a place within the numbers. -/
theorem Lists.modify (h : N.Lists xs) (i : Nat) {f : α → α} (hf : ∀ x, N.mem x → N.mem (f x)) :
    N.Lists (xs.modify i f) := by
  intro y hy
  obtain ⟨k, hk, rfl⟩ := List.mem_iff_getElem.mp hy
  rw [List.getElem_modify]
  split
  · exact hf _ (h _ (List.getElem_mem _))
  · exact h _ (List.getElem_mem _)

/-- Part of a list. -/
theorem Lists.slice (h : N.Lists xs) {start stop : Nat} {ys : List α}
    (hy : Checked.slice xs start stop = .ok ys) : N.Lists ys := by
  obtain ⟨-, rfl⟩ := Checked.slice_eq_ok.mp hy
  exact fun x hx => h x (List.mem_of_mem_drop (List.mem_of_mem_take hx))

/-- A list with a part of it replaced. -/
theorem Lists.overwrite (h : N.Lists xs) {start : Nat} {ys zs : List α} (hy : N.Lists ys)
    (hz : Checked.overwrite xs start ys = .ok zs) : N.Lists zs := by
  obtain ⟨-, rfl⟩ := Checked.overwrite_eq_ok.mp hz
  intro x hx
  rcases List.mem_append.mp hx with hx | hx
  · rcases List.mem_append.mp hx with hx | hx
    · exact h x (List.mem_of_mem_take hx)
    · exact hy x hx
  · exact h x (List.mem_of_mem_drop hx)

/-- Zero is one of the numbers. -/
theorem lists_zeros (n : Nat) : N.Lists (Scalar.zeros n) := fun _ hx =>
  List.eq_of_mem_replicate hx ▸ N.zero

/-- A unit vector holds zeros and a one. -/
theorem lists_unit (n i : Nat) : N.Lists (Scalar.unit n i) := (lists_zeros n).set i N.one

/-- Fitting the length fills up with zeros. -/
theorem lists_fit (n : Nat) (h : N.Lists xs) : N.Lists (Scalar.fit n xs) := by
  intro x hx
  obtain ⟨i, -, rfl⟩ := List.mem_map.mp hx
  exact h.getD i

/-- The slope of a violation is one, zero or minus one. -/
theorem lists_costs (ss : List Standing) : N.Lists (ss.map Standing.cost) := by
  intro x hx
  obtain ⟨s, -, rfl⟩ := List.mem_map.mp hx
  cases s with
  | belowLower => exact N.neg N.one
  | aboveUpper => exact N.one
  | atLower => exact N.zero
  | between => exact N.zero
  | atUpper => exact N.zero

end NumberSet

variable {α : Type} [Scalar α] {N : NumberSet α}

/-! ## §2.  Coefficients -/

namespace SparseVector

/-- All entries are in the set. -/
def Over (N : NumberSet α) (v : SparseVector α) : Prop := ∀ p ∈ v.entries, N.mem p.2

/-- Writing into a sparse vector over the numbers. -/
theorem Over.write {v : SparseVector α} (h : v.Over N) (i : Nat) {x : α} (hx : N.mem x) :
    (v.write i x).Over N := by
  intro p hp
  rcases mem_write hp with hp | rfl
  · exact h p hp
  · exact hx

/-- A multiple of the vector is added to a list of numbers of the set. -/
theorem Over.addTo {v : SparseVector α} (h : v.Over N) {factor : α} (hf : N.mem factor)
    {xs ys : List α} (hx : N.Lists xs) (hy : v.addTo factor xs = .ok ys) : N.Lists ys := by
  obtain ⟨_, -, hy⟩ := Checked.bind_eq_ok.mp hy
  refine Checked.foldlM_inv (P := N.Lists) (fun p hp zs zs' hz hz' => ?_) hx hy
  obtain ⟨-, rfl⟩ := Checked.modifyAt_eq_ok.mp hz'
  exact hz.modify p.1 fun x hx => N.add hx (N.mul hf (h p hp))

end SparseVector

namespace SystemMatrix

/-- All coefficients are in the set, in the forms that are solved with. -/
structure Over (N : NumberSet α) (a : SystemMatrix α) : Prop where
  dense : N.Lists a.dense
  columns : ∀ v ∈ a.columns, v.Over N

variable {a b : SystemMatrix α}

/-- Writing into all three views of a matrix. -/
theorem Over.write (h : a.Over N) (i j : Nat) {x : α} (hx : N.mem x) : (a.write i j x).Over N where
  dense := h.dense.set (a.place i j) hx
  columns := fun v hv => by
    obtain ⟨k, hk, rfl⟩ := List.mem_iff_getElem.mp hv
    have hk' : k < a.columns.length := by simpa [SystemMatrix.write] using hk
    have hold : a.columns[k].Over N := h.columns _ (List.getElem_mem _)
    simp only [SystemMatrix.write, List.getElem_modify]
    split
    · exact hold.write i hx
    · exact hold

/-- The checked write is that write. -/
theorem Over.set (h : a.Over N) {i j : Nat} {x : α} (hx : N.mem x) (hb : a.set i j x = .ok b) :
    b.Over N := by
  obtain ⟨-, rfl⟩ := of_set hb
  exact h.write i j hx

/-- What is read from a matrix over the numbers is one of them. -/
theorem Over.get (h : a.Over N) {i j : Nat} {x : α} (hx : a.get i j = .ok x) : N.mem x := by
  obtain ⟨_, -, hx⟩ := Checked.bind_eq_ok.mp hx
  exact h.dense x (List.mem_of_getElem? (Checked.getAt_eq_ok.mp hx))

/-- Sums stay among the numbers. -/
theorem Over.addEntry (h : a.Over N) {i j : Nat} {x : α} (hx : N.mem x)
    (hb : a.addEntry i j x = .ok b) : b.Over N := by
  obtain ⟨old, hold, hb⟩ := Checked.bind_eq_ok.mp hb
  exact h.set (N.add (h.get hold) hx) hb

/-- A new row copies the columns into a list of zeros. -/
theorem Over.appendRow (h : a.Over N) (hb : a.appendRow = .ok b) : b.Over N := by
  obtain ⟨dense, hdense, hb⟩ := Checked.bind_eq_ok.mp hb
  cases hb
  refine ⟨?_, fun v hv => ?_⟩
  · refine Checked.foldlM_inv (P := N.Lists) (fun j _ xs ys hx hy => ?_)
      (NumberSet.lists_zeros _) hdense
    obtain ⟨column, hcolumn, hy⟩ := Checked.bind_eq_ok.mp hy
    exact hx.overwrite (h.dense.slice hcolumn) hy
  · obtain ⟨old, hold, rfl⟩ := List.mem_map.mp hv
    exact h.columns old hold

/-- A new column holds zeros. -/
theorem Over.appendColumn (h : a.Over N) : a.appendColumn.Over N where
  dense := fun x hx => by
    rcases List.mem_append.mp hx with hx | hx
    · exact h.dense x hx
    · exact NumberSet.lists_zeros a.rowCount x hx
  columns := fun v hv => by
    rcases List.mem_append.mp hv with hv | hv
    · exact h.columns v hv
    · cases List.mem_singleton.mp hv
      exact fun p hp => absurd hp List.not_mem_nil

/-- A dense column of a matrix over the numbers. -/
theorem Over.column (h : a.Over N) {j : Nat} {column : List α} (hc : a.column j = .ok column) :
    N.Lists column := by
  obtain ⟨_, -, hc⟩ := Checked.bind_eq_ok.mp hc
  exact h.dense.slice hc

/-- A sparse one. -/
theorem Over.sparseColumn (h : a.Over N) {j : Nat} {v : SparseVector α}
    (hv : a.sparseColumn j = .ok v) : v.Over N :=
  h.columns v (List.mem_of_getElem? (Checked.getAt_eq_ok.mp hv))

/-- Zero replaces a sum that is too small. -/
theorem mem_settle {x : α} (h : N.mem x) : N.mem (settle x) := by
  unfold settle
  split
  · exact N.zero
  · exact h

/-- **One column is folded into another.** -/
theorem Over.mergeColumns (h : a.Over N) {source target : Nat}
    (hb : a.mergeColumns source target = .ok b) : b.Over N := by
  obtain ⟨_, -, hb⟩ := Checked.bind_eq_ok.mp hb
  obtain ⟨v, hv, hb⟩ := Checked.bind_eq_ok.mp hb
  obtain ⟨e, he, hb⟩ := Checked.bind_eq_ok.mp hb
  obtain ⟨cleared, -, hb⟩ := Checked.bind_eq_ok.mp hb
  obtain ⟨_, -, hb⟩ := Checked.bind_eq_ok.mp hb
  cases hb
  refine Checked.foldlM_inv (P := Over N) (fun p hp c d hc hd => ?_) h he
  obtain ⟨old, hold, hd⟩ := Checked.bind_eq_ok.mp hd
  obtain ⟨c', hc', hd⟩ := Checked.bind_eq_ok.mp hd
  have hsum : N.mem (old + p.2) := N.add (hc.get hold) (h.sparseColumn hv p hp)
  exact (hc.set (mem_settle hsum) hc').set N.zero hd

end SystemMatrix

/-! ## §3.  Tableaux -/

/-- The numbers that an operation brings along to solve with are in the set. -/
def Operation.Over (N : NumberSet α) : Operation α → Prop
  | .addEquation e => ∀ term ∈ e.terms, N.mem term.coefficient
  | .computeMultipliers costs => N.Lists costs
  | .restore s => s.matrix.Over N
  | _ => True

namespace Tableau

/-- The numbers that systems are made of are in the set.  A bound may lie outside of it as long as
    nothing lies beyond that bound. -/
structure Over (N : NumberSet α) (t : Tableau α) : Prop where
  matrix : t.matrix.Over N
  rightHandSide : N.Lists t.rightHandSide
  nonBasicValues : N.Lists t.nonBasicValues
  lowers : ∀ l ∈ t.bounds.lowers, ∀ x, x < l → N.mem l
  uppers : ∀ u ∈ t.bounds.uppers, ∀ x, x > u → N.mem u
  column : N.Lists t.plan.column
  weights : ∀ weights, t.pricing.rule = .weighted weights → N.Lists weights

variable {t u : Tableau α}

/-- Notices and counters hold no numbers. -/
theorem Silent.over (h : Silent t u) (ht : t.Over N) : u.Over N := by
  obtain ⟨_, _, rfl⟩ := h
  exact ⟨ht.matrix, ht.rightHandSide, ht.nonBasicValues, ht.lowers, ht.uppers,
    ht.column, ht.weights⟩

/-- The columns of a basis. -/
theorem basisColumns_over {s : State α} (h : s.matrix.Over N)
    {columns : List (List α)} (hc : s.basisColumns = .ok columns) : ∀ c ∈ columns, N.Lists c := by
  intro c hcm
  obtain ⟨slot, -, hslot⟩ := Checked.exists_of_mem_mapM hc hcm
  obtain ⟨v, -, hv⟩ := Checked.bind_eq_ok.mp hslot
  exact h.column hv

/-- **What the basic variables have to make up for.** -/
theorem Over.remainder (ht : t.Over N) {ys : List α} (h : t.remainder = .ok ys) : N.Lists ys := by
  refine Checked.foldlM_inv (P := N.Lists) (fun part hpart xs zs hx hz => ?_) ht.rightHandSide h
  unfold State.subtractPart at hz
  split at hz
  · cases hz
    exact hx
  · obtain ⟨v, hv, hz⟩ := Checked.bind_eq_ok.mp hz
    have hvalue : N.mem part.2 := ht.nonBasicValues _ (List.of_mem_zip hpart).2
    exact (ht.matrix.sparseColumn hv).addTo (N.neg hvalue) hx hz

/-! ## §4.  Bounds and moves -/

/-- Other bounds, if those that could be compared against are among the numbers. -/
theorem Over.rebound (ht : t.Over N) {bounds : Bounds α}
    (hl : ∀ l ∈ bounds.lowers, ∀ x, x < l → N.mem l)
    (hu : ∀ u ∈ bounds.uppers, ∀ x, x > u → N.mem u) : Over N { t with bounds } :=
  ⟨ht.matrix, ht.rightHandSide, ht.nonBasicValues, hl, hu, ht.column, ht.weights⟩

/-- Setting a lower bound. -/
theorem Over.setLower (ht : t.Over N) {v : Nat} {x : α} (hx : N.mem x)
    (h : t.setLower v x = .ok u) : u.Over N := by
  obtain ⟨bounds, hb, hsil⟩ := setLower_spec h
  obtain ⟨hlowers, huppers⟩ := Bounds.setLower_lists hb
  refine hsil.over (ht.rebound (fun l hl => ?_) (huppers ▸ ht.uppers))
  rcases List.mem_or_eq_of_mem_set (hlowers ▸ hl) with hl | rfl
  · exact ht.lowers l hl
  · exact fun _ _ => hx

/-- Setting an upper bound. -/
theorem Over.setUpper (ht : t.Over N) {v : Nat} {x : α} (hx : N.mem x)
    (h : t.setUpper v x = .ok u) : u.Over N := by
  obtain ⟨bounds, hb, hsil⟩ := setUpper_spec h
  obtain ⟨hlowers, huppers⟩ := Bounds.setUpper_lists hb
  refine hsil.over (ht.rebound (hlowers ▸ ht.lowers) fun w hw => ?_)
  rcases List.mem_or_eq_of_mem_set (huppers ▸ hw) with hw | rfl
  · exact ht.uppers w hw
  · exact fun _ _ => hx

/-- The values of the rows, their standings and the costs are not what systems are made of. -/
theorem Over.revalue (ht : t.Over N) {ys : List α} (hy : N.Lists ys) (xs : List α)
    (ss : List Standing) (settled : Bool) (pricing : Pricing α)
    (hp : pricing.rule = t.pricing.rule) : Over N { t with
      basicValues := xs, nonBasicValues := ys, standings := ss, settled, pricing } :=
  ⟨ht.matrix, ht.rightHandSide, hy, ht.lowers, ht.uppers, ht.column, hp ▸ ht.weights⟩

/-- Statuses hold no numbers. -/
theorem Over.classifyAll (ht : t.Over N) (h : t.classifyAll = .ok u) : u.Over N := by
  obtain ⟨ss, -, rfl⟩ := of_classifyAll h
  exact ht.revalue ht.nonBasicValues t.basicValues ss t.settled t.pricing rfl

/-- The basic values are computed from the right-hand side and the columns. -/
theorem Over.computeValues (ht : t.Over N) (h : t.computeValues = .ok u) : u.Over N := by
  obtain ⟨_, -, h⟩ := Checked.bind_eq_ok.mp h
  obtain ⟨rhs, -, h⟩ := Checked.bind_eq_ok.mp h
  obtain ⟨xs, -, h⟩ := Checked.bind_eq_ok.mp h
  obtain ⟨w, hw, h⟩ := Checked.bind_eq_ok.mp h
  obtain ⟨pairs, -, h⟩ := Checked.bind_eq_ok.mp h
  cases h
  have hset := ht.revalue ht.nonBasicValues xs t.standings true t.pricing rfl
  have hw := ((silent_count _ .assignmentComputations).over hset).classifyAll hw
  exact (silent_tellValues _ pairs).over
    (hw.revalue hw.nonBasicValues w.basicValues w.standings w.settled w.pricing.invalidate rfl)

/-- One status recorded again. -/
theorem Over.classifyAt (ht : t.Over N) {i : Nat} (h : t.classifyAt i = .ok u) : u.Over N := by
  obtain ⟨standing, -, h⟩ := Checked.bind_eq_ok.mp h
  obtain ⟨ss, -, h⟩ := Checked.bind_eq_ok.mp h
  cases h
  exact ht.revalue ht.nonBasicValues t.basicValues ss t.settled t.pricing rfl

/-- One status recorded again, and the costs marked. -/
theorem Over.restand (ht : t.Over N) {i : Nat} (h : t.restand i = .ok u) : u.Over N := by
  obtain ⟨before, -, h⟩ := Checked.bind_eq_ok.mp h
  obtain ⟨w, hw, h⟩ := Checked.bind_eq_ok.mp h
  obtain ⟨after, -, h⟩ := Checked.bind_eq_ok.mp h
  have hov := ht.classifyAt hw
  split at h
  · cases h
    exact hov
  · cases h
    exact hov.revalue hov.nonBasicValues w.basicValues w.standings w.settled _ rfl

/-- The basic values follow a move by sums of products. -/
theorem Over.followMove (ht : t.Over N) {v : Nat} {δ : α} (h : t.followMove v δ = .ok u) :
    u.Over N := by
  unfold Tableau.followMove at h
  split at h
  · cases h
    exact ht
  · obtain ⟨_, -, h⟩ := Checked.bind_eq_ok.mp h
    obtain ⟨column, -, h⟩ := Checked.bind_eq_ok.mp h
    obtain ⟨pairs, -, h⟩ := Checked.bind_eq_ok.mp h
    have hshift := ht.revalue ht.nonBasicValues (shift δ t.basicValues column) t.standings t.settled
      t.pricing rfl
    exact ((silent_tellValues _ pairs).over hshift).classifyAll h

/-- Moving a non-basic variable to one of the numbers. -/
theorem Over.moveNonBasic (ht : t.Over N) {v : Nat} {x : α} (hx : N.mem x) {follow : Bool}
    (h : t.moveNonBasic v x follow = .ok u) : u.Over N := by
  obtain ⟨_, -, h⟩ := Checked.bind_eq_ok.mp h
  obtain ⟨j, -, h⟩ := Checked.bind_eq_ok.mp h
  obtain ⟨old, -, h⟩ := Checked.bind_eq_ok.mp h
  have hmoved := ht.revalue (ht.nonBasicValues.set j hx) t.basicValues t.standings t.settled
    t.pricing rfl
  have htold := ((silent_remark _ (.movingNonBasic v x)).trans (silent_tellValue _ v x)).over hmoved
  cases follow with
  | true =>
    obtain ⟨w, hw, h⟩ := Checked.bind_eq_ok.mp h
    cases h
    have hw := htold.followMove hw
    exact hw.revalue hw.nonBasicValues _ _ _ _ rfl
  | false =>
    cases h
    exact htold.revalue htold.nonBasicValues _ _ _ _ rfl

/-- Enforcing a bound moves a variable to that bound at most. -/
theorem Over.enforce (ht : t.Over N) {v : Nat} {bound : α} (hx : N.mem bound)
    {violated : α → Bool} (h : t.enforce v bound violated = .ok u) : u.Over N := by
  have hcount := (silent_count t .boundTightenings).over ht
  unfold Tableau.enforce at h
  dsimp only at h
  split at h
  · obtain ⟨i, -, h⟩ := Checked.bind_eq_ok.mp h
    split at h
    · exact hcount.restand h
    · obtain ⟨x, -, h⟩ := Checked.bind_eq_ok.mp h
      split at h
      · exact hcount.moveNonBasic hx h
      · cases h
        exact hcount
  · cases h
    exact hcount

/-- Tightening a lower bound. -/
theorem Over.tightenLower (ht : t.Over N) {v : Nat} {x : α} (hx : N.mem x)
    (h : t.tightenLower v x = .ok u) : u.Over N := by
  obtain ⟨w, hw, h⟩ := Checked.bind_eq_ok.mp h
  exact (((silent_remark t _).over ht).setLower hx hw).enforce hx h

/-- Tightening an upper bound. -/
theorem Over.tightenUpper (ht : t.Over N) {v : Nat} {x : α} (hx : N.mem x)
    (h : t.tightenUpper v x = .ok u) : u.Over N := by
  obtain ⟨w, hw, h⟩ := Checked.bind_eq_ok.mp h
  exact (((silent_remark t _).over ht).setUpper hx hw).enforce hx h

/-- A bound that something lies beyond is in the set. -/
theorem Over.mem_lowerBound (ht : t.Over N) {v : Nat} {l x : α} (hl : t.lowerBound v = .ok l)
    (hx : x < l) : N.mem l := by
  obtain ⟨_, -, hl⟩ := Checked.bind_eq_ok.mp hl
  exact ht.lowers l (List.mem_of_getElem? (Checked.getAt_eq_ok.mp hl)) x hx

/-- An upper bound below something is one of the numbers. -/
theorem Over.mem_upperBound (ht : t.Over N) {v : Nat} {b x : α} (hb : t.upperBound v = .ok b)
    (hx : x > b) : N.mem b := by
  obtain ⟨_, -, hb⟩ := Checked.bind_eq_ok.mp hb
  exact ht.uppers b (List.mem_of_getElem? (Checked.getAt_eq_ok.mp hb)) x hx

/-- **One variable takes over the tighter bounds of another.** -/
theorem Over.intersectBounds (ht : t.Over N) {source target : Nat}
    (h : t.intersectBounds source target = .ok u) : u.Over N := by
  obtain ⟨l, l', x, x', w, hl, -, hw, hx, -, hu⟩ := intersectBounds_halves h
  have hw : w.Over N := by
    split at hw
    · next hlt => exact ht.tightenLower (ht.mem_lowerBound hl hlt) hw
    · cases hw
      exact ht
  split at hu
  · next hlt => exact hw.tightenUpper (hw.mem_upperBound hx hlt) hu
  · cases hu
    exact hw

/-- Freezing a variable tightens both bounds to a number. -/
theorem Over.freeze (ht : t.Over N) {v : Nat} (h : t.freeze v = .ok u) : u.Over N := by
  obtain ⟨j, -, h⟩ := Checked.bind_eq_ok.mp h
  obtain ⟨x, hx, h⟩ := Checked.bind_eq_ok.mp h
  obtain ⟨w, hw, h⟩ := Checked.bind_eq_ok.mp h
  have hmem := ht.nonBasicValues x (List.mem_of_getElem? (Checked.getAt_eq_ok.mp hx))
  exact (ht.setLower hmem hw).setUpper hmem h

/-- **One column is folded into another.** -/
theorem Over.fold (ht : t.Over N) {source target : Nat} (h : t.fold source target = .ok u) :
    u.Over N := by
  obtain ⟨matrix, hm, h⟩ := Checked.bind_eq_ok.mp h
  obtain ⟨merges, -, h⟩ := Checked.bind_eq_ok.mp h
  have hfolded : Over N { t with matrix, merges } :=
    ⟨ht.matrix.mergeColumns hm, ht.rightHandSide, ht.nonBasicValues, ht.lowers,
      ht.uppers, ht.column, ht.weights⟩
  exact hfolded.freeze h

/-- A refresh computes within the numbers, also when it is rejected. -/
theorem Over.refactor (ht : t.Over N) {r : Except Failure Unit} (h : t.refactor = .ok (r, u)) :
    u.Over N := by
  obtain ⟨inverse, hsil, -⟩ := refactor_spec h
  exact hsil.over ⟨ht.matrix, ht.rightHandSide, ht.nonBasicValues, ht.lowers, ht.uppers, ht.column,
    ht.weights⟩

/-- A variable starts at a finite bound or at zero. -/
theorem mem_startValue {b : Bounds α} {v : Nat} {x : α} (h : b.startValue v = .ok x) : N.mem x := by
  obtain ⟨l, -, h⟩ := Checked.bind_eq_ok.mp h
  obtain ⟨u, -, h⟩ := Checked.bind_eq_ok.mp h
  cases h
  split
  · next hl => exact N.mem_of_isFinite hl
  · split
    · next hu => exact N.mem_of_isFinite hu
    · exact N.zero

/-- The matrix with a row for an equation. -/
theorem extendMatrix_over {a b : SystemMatrix α} (ha : a.Over N) {e : LinearEquation α}
    (he : ∀ term ∈ e.terms, N.mem term.coefficient) {aux : Nat}
    (h : extendMatrix a e aux = .ok b) : b.Over N := by
  obtain ⟨-, grown, filled, hgrown, hf, h⟩ := of_extendMatrix h
  have hfilled : filled.Over N :=
    Checked.foldlM_inv (P := SystemMatrix.Over N) (fun term hterm c d hc hd =>
      hc.addEntry (he term hterm) hd) (ha.appendRow hgrown).appendColumn hf
  exact hfilled.set (N.neg N.one) h

end Tableau

/-! ## §5.  Tests -/

section Tests

variable {α : Type} [Scalar α] {N : NumberSet α} [DecidablePred N.mem]

instance (xs : List α) : Decidable (N.Lists xs) := inferInstanceAs (Decidable (∀ x ∈ xs, N.mem x))

instance (v : SparseVector α) : Decidable (v.Over N) :=
  inferInstanceAs (Decidable (∀ p ∈ v.entries, N.mem p.2))

instance (a : SystemMatrix α) : Decidable (a.Over N) :=
  decidable_of_iff (N.Lists a.dense ∧ ∀ v ∈ a.columns, v.Over N)
    ⟨fun h => ⟨h.1, h.2⟩, fun h => ⟨h.1, h.2⟩⟩

instance (rule : PricingRule α) :
    Decidable (∀ weights, rule = .weighted weights → N.Lists weights) :=
  match rule with
  | .weighted ws =>
    decidable_of_iff (N.Lists ws) ⟨fun h _ e => PricingRule.weighted.inj e ▸ h, fun h => h ws rfl⟩
  | .fixed _ | .infeasibility => .isTrue fun _ e => nomatch e

end Tests

variable {K : Type} [Field K] [LinearOrder K]

instance : DecidablePred (NumberSet.finite K).mem :=
  fun x => inferInstanceAs (Decidable (Scalar.isFinite x = true))

/-- Every lower bound will do but the positive infinity. -/
theorem Extended.finite_of_gt_iff {l : Extended K} :
    (∀ x, x < l → (NumberSet.finite K).mem l) ↔ l ≠ top := by
  constructor
  · rintro h rfl
    exact absurd (h (fin 0) rfl) Bool.false_ne_true
  · intro hl x hx
    cases l with
    | fin a => rfl
    | top => exact absurd rfl hl
    | bot => cases x <;> exact absurd hx Bool.false_ne_true
    | undefined => cases x <;> exact absurd hx Bool.false_ne_true

/-- And every upper bound but the negative one. -/
theorem Extended.finite_of_lt_iff {u : Extended K} :
    (∀ x, x > u → (NumberSet.finite K).mem u) ↔ u ≠ bot := by
  constructor
  · rintro h rfl
    exact absurd (h (fin 0) rfl) Bool.false_ne_true
  · intro hu x hx
    cases u with
    | fin a => rfl
    | bot => exact absurd rfl hu
    | top => cases x <;> exact absurd hx Bool.false_ne_true
    | undefined => cases x <;> exact absurd hx Bool.false_ne_true

namespace Tableau

variable {t u v w : Tableau (Extended K)}

instance : Decidable (t.Over (.finite K)) :=
  decidable_of_iff (t.matrix.Over (.finite K) ∧ (NumberSet.finite K).Lists t.rightHandSide
      ∧ (NumberSet.finite K).Lists t.nonBasicValues ∧ (∀ l ∈ t.bounds.lowers, l ≠ .top)
      ∧ (∀ u ∈ t.bounds.uppers, u ≠ .bot) ∧ (NumberSet.finite K).Lists t.plan.column
      ∧ ∀ weights, t.pricing.rule = .weighted weights → (NumberSet.finite K).Lists weights)
    ⟨fun ⟨hm, hr, hn, hl, hu, hc, hw⟩ => ⟨hm, hr, hn, fun l h =>
      Extended.finite_of_gt_iff.mpr (hl l h),
        fun u h => Extended.finite_of_lt_iff.mpr (hu u h), hc, hw⟩,
      fun h => ⟨h.matrix, h.rightHandSide, h.nonBasicValues,
        fun l hl => Extended.finite_of_gt_iff.mp (h.lowers l hl),
        fun u hu => Extended.finite_of_lt_iff.mp (h.uppers u hu), h.column, h.weights⟩⟩

end Tableau

end BoundedSimplex
