/-
  BoundedSimplex.Merges — which variable was merged into which.

  A merged variable keeps its name and is read through the variable it was merged into, which may
  have been merged itself.  Recording refuses every link that would close a circle, so following
  the links from any variable ends, after at most as many steps as there are links.
-/
import BoundedSimplex.Contract

namespace BoundedSimplex

/-- The links from merged variables to the variables they were merged into, by increasing source. -/
structure Merges where
  links : List (Nat × Nat)
deriving DecidableEq, Repr

namespace Merges

/-! ## §1.  Reading -/

/-- Nothing was merged. -/
def none : Merges := ⟨[]⟩

/-- Number of merged variables. -/
def size (g : Merges) : Nat := g.links.length

/-- The variable that `v` was merged into. -/
def target? (g : Merges) (v : Nat) : Option Nat := g.links.lookup v

/-- `v` was merged into another variable. -/
def isMerged (g : Merges) (v : Nat) : Bool := (g.target? v).isSome

/-- Takes up to `fuel` links from `v` on. -/
def follow (g : Merges) : Nat → Nat → Nat
  | 0, v => v
  | fuel + 1, v =>
    match g.target? v with
    | some w => g.follow fuel w
    | .none => v

/-- The variable that `v` is read through.  A path without a circle is not longer than the list of
    links. -/
def resolve (g : Merges) (v : Nat) : Nat := g.follow g.size v

/-! ## §2.  Recording -/

/-- Puts a link before the first one with a larger source. -/
def insertLink (link : Nat × Nat) : List (Nat × Nat) → List (Nat × Nat)
  | [] => [link]
  | l :: ls => if link.1 < l.1 then link :: l :: ls else l :: insertLink link ls

/-- Records that `source` was merged into `target`.  The circle is looked for first. -/
def record (g : Merges) (source target : Nat) : Checked Merges := do
  Checked.require (g.resolve target ≠ source) .mergeCycle
  Checked.require (g.isMerged source = false) (.alreadyMerged source)
  return ⟨insertLink (source, target) g.links⟩

/-- What a variable is linked to, by the first link of the list. -/
theorem lookup_link (v : Nat) (l : Nat × Nat) (ls : List (Nat × Nat)) :
    (l :: ls).lookup v = if v = l.1 then some l.2 else ls.lookup v := by
  obtain ⟨source, target⟩ := l
  rw [List.lookup_cons]
  cases h : v == source <;> simp_all

/-- A new link is found whatever place it took in the list. -/
theorem lookup_insertLink {link : Nat × Nat} {ls : List (Nat × Nat)} (v : Nat)
    (h : ls.lookup link.1 = .none) :
    (insertLink link ls).lookup v = if v = link.1 then some link.2 else ls.lookup v := by
  induction ls with
  | nil => rw [insertLink, lookup_link]
  | cons l ls ih =>
    rw [lookup_link] at h
    have hl : link.1 ≠ l.1 := fun e => by simp [e] at h
    have ht : ls.lookup link.1 = .none := by simpa [hl] using h
    unfold insertLink
    split
    · rw [lookup_link]
    · rw [lookup_link, lookup_link, ih ht]
      by_cases hv : v = link.1
      · simp [hv, hl]
      · simp [hv]

/-- Recording adds one link and keeps the others. -/
theorem target?_record {g g' : Merges} {source target : Nat} (v : Nat)
    (h : g.record source target = .ok g') :
    g'.target? v = if v = source then some target else g.target? v := by
  unfold record at h
  obtain ⟨_, _, h⟩ := Checked.bind_eq_ok.mp h
  obtain ⟨_, hm, h⟩ := Checked.bind_eq_ok.mp h
  cases h
  have hs : g.links.lookup source = .none := by
    simpa only [Checked.require_eq_ok, isMerged, target?, Option.isSome_eq_false_iff,
      Option.isNone_iff_eq_none] using hm
  simpa [target?] using lookup_insertLink v hs

@[simp] theorem length_insertLink (link : Nat × Nat) (ls : List (Nat × Nat)) :
    (insertLink link ls).length = ls.length + 1 := by
  induction ls with
  | nil => rfl
  | cons l ls ih => unfold insertLink; split <;> simp [ih]

end Merges

end BoundedSimplex
