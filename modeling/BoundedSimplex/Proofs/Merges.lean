/-
  BoundedSimplex.Proofs.Merges — following the links of merged variables.

  Following the links from a variable ends as long as no circle was recorded, and recording refuses
  circles.  A path that ends visits no variable twice, so it is not longer than the list of links,
  and that much fuel is enough.

  Main results:
    * `resolve_eq_follow` — resolving is following the links to the end;
    * `resolve_record` — what recording a link does to the variables that others are read through.
-/
import BoundedSimplex.Merges
import Mathlib.Data.Finset.Card
import Mathlib.Data.Nat.Find

namespace BoundedSimplex.Merges

variable {g g' : Merges}

/-! ## §1.  Paths -/

/-- The variable was not merged into another one. -/
def Stands (g : Merges) (v : Nat) : Prop := g.target? v = .none

instance (g : Merges) (v : Nat) : Decidable (g.Stands v) :=
  inferInstanceAs (Decidable (g.target? v = .none))

/-- A variable that stands is followed nowhere. -/
theorem follow_of_stands {v : Nat} (h : g.Stands v) (k : Nat) : g.follow k v = v := by
  cases k with
  | zero => rfl
  | succ k => rw [follow, show g.target? v = .none from h]

/-- The first link, and from its end one step less. -/
theorem follow_succ {v w : Nat} (h : g.target? v = some w) (k : Nat) :
    g.follow (k + 1) v = g.follow k w := by
  rw [follow, h]

/-- Following links in two stages. -/
theorem follow_add (j k v : Nat) : g.follow (j + k) v = g.follow k (g.follow j v) := by
  induction j generalizing v with
  | zero => rw [Nat.zero_add]; rfl
  | succ j ih =>
    rw [Nat.succ_add]
    cases hv : g.target? v with
    | none => rw [follow_of_stands hv, follow_of_stands hv, follow_of_stands hv]
    | some w => rw [follow_succ hv, follow_succ hv, ih]

/-- The sources of the links. -/
def sources (g : Merges) : Finset Nat := (g.links.map Prod.fst).toFinset

/-- What has a target is one of the sources. -/
theorem mem_sources {v w : Nat} (h : g.target? v = some w) : v ∈ g.sources := by
  have hmem : (v, w) ∈ g.links := by
    unfold target? at h
    generalize g.links = ls at h ⊢
    induction ls with
    | nil => cases h
    | cons l ls ih =>
      rw [lookup_link] at h
      by_cases hv : v = l.1
      · rw [if_pos hv] at h
        have hw : l.2 = w := Option.some.inj h
        rw [hv, ← hw]
        exact List.mem_cons_self
      · rw [if_neg hv] at h
        exact List.mem_cons_of_mem _ (ih h)
  exact List.mem_toFinset.mpr (List.mem_map.mpr ⟨(v, w), hmem, rfl⟩)

/-- **A path that ends is not longer than the list of links.** -/
theorem stands_resolve {k v : Nat} (h : g.Stands (g.follow k v)) : g.Stands (g.resolve v) := by
  classical
  -- `n` is the number of links of the path
  have hex : ∃ n, g.Stands (g.follow n v) := ⟨k, h⟩
  obtain ⟨n, hn, hmin⟩ : ∃ n, g.Stands (g.follow n v) ∧ ∀ j < n, ¬g.Stands (g.follow j v) :=
    ⟨Nat.find hex, Nat.find_spec hex, fun j hj => Nat.find_min hex hj⟩
  have hsource (j : Nat) (hj : j < n) : g.follow j v ∈ g.sources := by
    cases ht : g.target? (g.follow j v) with
    | none => exact absurd ht (hmin j hj)
    | some w => exact mem_sources ht
  -- a variable that is visited twice would be visited for ever
  have hne (i j : Nat) (hij : i < j) (hj : j < n) : g.follow i v ≠ g.follow j v := by
    intro e
    refine hmin (i + (n - j)) (by omega) ?_
    rw [follow_add, e, ← follow_add, show j + (n - j) = n by omega]
    exact hn
  have hinj : Set.InjOn (fun j => g.follow j v) (Finset.range n : Set Nat) := by
    intro i hi j hj e
    have hi := Finset.mem_range.mp hi
    have hj := Finset.mem_range.mp hj
    rcases Nat.lt_trichotomy i j with hlt | heq | hgt
    · exact absurd e (hne i j hlt hj)
    · exact heq
    · exact absurd e.symm (hne j i hgt hi)
  have hcard : n ≤ g.size := by
    calc n = (Finset.range n).card := (Finset.card_range n).symm
      _ ≤ g.sources.card := Finset.card_le_card_of_injOn _
          (fun j hj => hsource j (Finset.mem_range.mp hj)) hinj
      _ ≤ (g.links.map Prod.fst).length := List.toFinset_card_le _
      _ = g.size := List.length_map _
  show g.Stands (g.follow g.size v)
  rw [show g.size = n + (g.size - n) by omega, follow_add, follow_of_stands hn]
  exact hn

/-- **Resolving is following the links to the end.** -/
theorem resolve_eq_follow {k v : Nat} (h : g.Stands (g.follow k v)) :
    g.resolve v = g.follow k v := by
  have hr : g.Stands (g.follow g.size v) := stands_resolve h
  show g.follow g.size v = _
  rcases Nat.le_total k g.size with hk | hk
  · rw [show g.size = k + (g.size - k) by omega, follow_add, follow_of_stands h]
  · rw [show k = g.size + (k - g.size) by omega, follow_add, follow_of_stands hr]

/-! ## §2.  Recording -/

/-- No path goes around in a circle. -/
def Grounded (g : Merges) : Prop := ∀ v, g.Stands (g.resolve v)

/-- Without merges following ends at once. -/
theorem grounded_none : Grounded none := fun _ => rfl

/-- A variable that stands resolves to itself. -/
theorem Grounded.resolve_of_stands (_ : g.Grounded) {v : Nat} (h : g.Stands v) : g.resolve v = v :=
  follow_of_stands h _

/-- Resolving twice is resolving once. -/
theorem Grounded.resolve_resolve (h : g.Grounded) (v : Nat) :
    g.resolve (g.resolve v) = g.resolve v :=
  h.resolve_of_stands (h v)

/-- A variable resolves to what its target resolves to. -/
theorem Grounded.resolve_target (h : g.Grounded) {v w : Nat} (hv : g.target? v = some w) :
    g.resolve v = g.resolve w := by
  have hw : g.follow (g.size + 1) v = g.resolve w := follow_succ hv _
  rw [← hw]
  refine resolve_eq_follow ?_
  rw [hw]
  exact h w

section Record

variable {source target : Nat}

/-- A merge is recorded only of a variable that stands, and never into a cycle. -/
theorem of_record (h : g.record source target = .ok g') :
    g.resolve target ≠ source ∧ g.Stands source := by
  obtain ⟨_, hcycle, h⟩ := Checked.bind_eq_ok.mp h
  obtain ⟨_, hmerged, h⟩ := Checked.bind_eq_ok.mp h
  rw [Checked.require_eq_ok] at hcycle hmerged
  refine ⟨hcycle, ?_⟩
  unfold isMerged at hmerged
  cases ht : g.target? source with
  | none => exact ht
  | some w => rw [ht] at hmerged; cases hmerged

/-- Paths that do not end at the source of the new link are what they were. -/
theorem follow_record (hg : g.Grounded) (h : g.record source target = .ok g') {v : Nat}
    (hv : g.resolve v ≠ source) (k : Nat) : g'.follow k v = g.follow k v := by
  obtain ⟨-, hsource⟩ := of_record h
  induction k generalizing v with
  | zero => rfl
  | succ k ih =>
    -- The source resolves to itself, and `v` does not resolve to it.
    have hne : v ≠ source := by
      rintro rfl
      exact hv (hg.resolve_of_stands hsource)
    have ht : g'.target? v = g.target? v := by rw [target?_record v h, if_neg hne]
    cases hw : g.target? v with
    | none => rw [follow_of_stands (g := g') (ht.trans hw), follow_of_stands hw]
    | some w =>
      rw [follow_succ (ht.trans hw), follow_succ hw]
      exact ih (by rwa [← hg.resolve_target hw])

/-- Paths that end at the source of the new link still get there. -/
theorem exists_follow_record (h : g.record source target = .ok g') {k v : Nat}
    (hv : g.follow k v = source) : ∃ k', g'.follow k' v = source := by
  obtain ⟨-, hsource⟩ := of_record h
  induction k generalizing v with
  | zero => exact ⟨0, hv⟩
  | succ k ih =>
    cases hw : g.target? v with
    | none =>
      rw [follow_of_stands hw] at hv
      exact ⟨0, hv⟩
    | some w =>
      rw [follow_succ hw] at hv
      obtain ⟨k', hk'⟩ := ih hv
      -- The source had no link, so the new one does not redirect `v`.
      have hne : v ≠ source := by
        rintro rfl
        rw [hsource] at hw
        cases hw
      refine ⟨k' + 1, ?_⟩
      rw [follow_succ (by rw [target?_record v h, if_neg hne]; exact hw), hk']

/-- **Recording a link.**  What was read through its source is read through what its target is read
    through. -/
theorem resolve_record (hg : g.Grounded) (h : g.record source target = .ok g') :
    g'.Grounded ∧ ∀ v, g'.resolve v
      = if g.resolve v = source then g.resolve target else g.resolve v := by
  obtain ⟨hcycle, hsource⟩ := of_record h
  have hstands {r : Nat} (hr : g.Stands r) (hne : r ≠ source) : g'.Stands r := by
    show g'.target? r = .none
    rw [target?_record r h, if_neg hne]
    exact hr
  -- each path ends at an explicit place
  have hend (v : Nat) : ∃ k, g'.follow k v
      = (if g.resolve v = source then g.resolve target else g.resolve v)
        ∧ g'.Stands (g'.follow k v) := by
    by_cases hv : g.resolve v = source
    · obtain ⟨k, hk⟩ := exists_follow_record h (k := g.size) hv
      have hlink : g'.target? source = some target := by rw [target?_record source h, if_pos rfl]
      have hpath : g'.follow (k + (g.size + 1)) v = g.resolve target := by
        rw [follow_add, hk, follow_succ hlink, follow_record hg h hcycle]
        rfl
      refine ⟨_, by rw [if_pos hv, hpath], ?_⟩
      rw [hpath]
      exact hstands (hg target) hcycle
    · have hpath : g'.follow g.size v = g.resolve v := follow_record hg h hv _
      refine ⟨_, by rw [if_neg hv, hpath], ?_⟩
      rw [hpath]
      exact hstands (hg v) hv
  refine ⟨fun v => ?_, fun v => ?_⟩
  · obtain ⟨k, -, hk⟩ := hend v
    exact stands_resolve hk
  · obtain ⟨k, he, hk⟩ := hend v
    rw [resolve_eq_follow hk, he]

end Record

/-! ## §3.  Variables that exist -/

/-- Nothing was merged into a variable from `n` on. -/
def Within (n : Nat) (g : Merges) : Prop := ∀ v w, g.target? v = some w → w < n

/-- Without merges there are no targets. -/
theorem within_none (n : Nat) : none.Within n := fun _ _ h => by cases h

/-- A larger bound on the targets. -/
theorem Within.mono {n k : Nat} (h : g.Within n) (hk : n ≤ k) : g.Within k :=
  fun v w hw => (h v w hw).trans_le hk

/-- Following links stays below the bound. -/
theorem Within.follow_lt {n v : Nat} (h : g.Within n) (hv : v < n) (k : Nat) :
    g.follow k v < n := by
  induction k generalizing v with
  | zero => exact hv
  | succ k ih =>
    cases hw : g.target? v with
    | none => rwa [follow_of_stands hw]
    | some w =>
      rw [follow_succ hw]
      exact ih (h v w hw)

/-- A variable is read through one that exists. -/
theorem Within.resolve_lt {n v : Nat} (h : g.Within n) (hv : v < n) : g.resolve v < n :=
  h.follow_lt hv _

/-- A further link to a variable below the bound. -/
theorem Within.record {n source target : Nat} (h : g.Within n) (ht : target < n)
    (hr : g.record source target = .ok g') : g'.Within n := by
  intro v w hw
  rw [target?_record v hr] at hw
  split at hw
  · cases hw
    exact ht
  · exact h v w hw

/-- Two variables of which neither was merged can be linked. -/
theorem exists_record {source target : Nat} (hs : g.Stands source) (ht : g.Stands target)
    (hne : source ≠ target) : ∃ g', g.record source target = .ok g' := by
  have hcycle : g.resolve target ≠ source := by
    rw [resolve, follow_of_stands ht]
    exact hne.symm
  have hfree : g.isMerged source = false := by
    rw [isMerged, show g.target? source = .none from hs]; rfl
  rw [Merges.record, Checked.require, if_pos hcycle, Checked.require, if_pos hfree]
  exact ⟨_, rfl⟩

end BoundedSimplex.Merges
