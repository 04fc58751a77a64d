/-
  BoundedSimplex.Proofs.Forest — the links of merged variables form a forest.

  A variable has at most one link, so the links are a forest as long as no path comes back to where
  it started.  Recording looks for the circle that the new link would close by following the links
  that are there already, which ends because there was no circle so far.

  Main results:
    * `Grounded.leadsTo_iff` — following the links for as long as there is one ends
      where `resolve` says;
    * `Grounded.cyclic_linkWith_iff` — the circle that recording looks for is the
      only one there can be;
    * `Joins.record` — a link joins the classes of its two variables and no others;
    * `forest_of_recordAll` — the links after any run of recordings.
-/
import BoundedSimplex.Proofs.Merges
import Mathlib.Logic.Relation
import Mathlib.Order.WellFounded

namespace BoundedSimplex.Merges

variable {g g' : Merges} {v w r source target : Nat}

/-! ## §1.  Paths to the end -/

/-- Following the links from a variable, for as long as there is one, ends at `r`. -/
inductive LeadsTo (g : Merges) : Nat → Nat → Prop
  | stop {v : Nat} (last : g.target? v = .none) : LeadsTo g v v
  | step {v w r : Nat} (link : g.target? v = some w) (rest : LeadsTo g w r) : LeadsTo g v r

/-- Following links up to a variable that stands is a path to it. -/
theorem leadsTo_follow {k : Nat} (h : g.Stands (g.follow k v)) : g.LeadsTo v (g.follow k v) := by
  induction k generalizing v with
  | zero => exact .stop h
  | succ k ih =>
    cases hv : g.target? v with
    | none =>
      rw [follow_of_stands hv]
      exact .stop hv
    | some w =>
      rw [follow_succ hv] at h ⊢
      exact .step hv (ih h)

/-- A path can be followed link by link. -/
theorem LeadsTo.exists_follow (h : g.LeadsTo v r) : ∃ k, g.follow k v = r ∧ g.Stands r := by
  induction h with
  | stop last => exact ⟨0, rfl, last⟩
  | step link rest ih =>
    obtain ⟨k, hk, hr⟩ := ih
    exact ⟨k + 1, by rw [follow_succ link, hk], hr⟩

/-- **Following the links ends**, and where it ends is what a variable resolves to. -/
theorem Grounded.leadsTo_iff (hg : g.Grounded) : g.LeadsTo v r ↔ g.resolve v = r := by
  constructor
  · intro h
    obtain ⟨k, rfl, hr⟩ := h.exists_follow
    exact resolve_eq_follow hr
  · rintro rfl
    exact leadsTo_follow (hg v)

/-! ## §2.  Circles -/

/-- The first variable was merged into the second one. -/
def Link (g : Merges) (v w : Nat) : Prop := g.target? v = some w

/-- The links and one more. -/
def LinkWith (g : Merges) (source target v w : Nat) : Prop :=
  g.Link v w ∨ v = source ∧ w = target

/-- Some path comes back to where it started. -/
def Cyclic (link : Nat → Nat → Prop) : Prop := ∃ v, Relation.TransGen link v v

/-- A path is a path in the reflexive and transitive closure of the links. -/
theorem LeadsTo.reflTransGen (h : g.LeadsTo v r) : Relation.ReflTransGen g.Link v r := by
  induction h with
  | stop last => exact .refl
  | step link rest ih => exact .head link ih

/-- There is no way on for ever from a variable whose path ends. -/
theorem LeadsTo.acc (h : g.LeadsTo v r) : Acc (fun w v => g.Link v w) v := by
  induction h with
  | stop last =>
    refine Acc.intro _ ?_
    intro w hw
    have hw : g.target? _ = some w := hw
    rw [last] at hw
    cases hw
  | @step v w r link rest ih =>
    refine Acc.intro _ ?_
    intro w' hw
    have hw : g.target? v = some w' := hw
    rw [link] at hw
    cases hw
    exact ih

/-- **Links whose paths all end have no circle.** -/
theorem Grounded.not_cyclic (hg : g.Grounded) : ¬Cyclic g.Link := by
  rintro ⟨v, hv⟩
  have hwf : WellFounded fun w v => g.Link v w := ⟨fun u => (leadsTo_follow (hg u)).acc⟩
  have hback : Relation.TransGen (fun w v => g.Link v w) v v := Relation.transGen_swap.mpr hv
  exact hwf.transGen.irrefl.irrefl v hback

/-! ## §3.  Recording -/

/-- What comes of recording a link, in the order in which it is checked. -/
theorem record_eq (g : Merges) (source target : Nat) : g.record source target
    = if g.resolve target = source then .error .mergeCycle
      else if g.isMerged source = true then .error (.alreadyMerged source)
      else .ok ⟨insertLink (source, target) g.links⟩ := by
  unfold record Checked.require
  by_cases hcycle : g.resolve target = source
  · simp [hcycle]
    rfl
  · cases hmerged : g.isMerged source with
    | true => simp [hcycle]; rfl
    | false => simp [hcycle]; rfl

/-- A variable stands exactly when it has not been merged away. -/
theorem stands_iff : g.Stands v ↔ g.isMerged v = false := by
  show g.target? v = .none ↔ (g.target? v).isSome = false
  cases g.target? v <;> simp

/-- The links after a recording. -/
theorem link_record (h : g.record source target = .ok g') : g'.Link = g.LinkWith source target := by
  obtain ⟨-, hsource⟩ := of_record h
  have hnone : g.target? source = .none := hsource
  funext v w
  apply propext
  show g'.target? v = some w ↔ g.target? v = some w ∨ v = source ∧ w = target
  rw [target?_record v h]
  -- The source has no other link: it stood before.
  by_cases hv : v = source
  · subst hv
    rw [if_pos rfl, hnone]
    simp [eq_comm]
  · simp [hv]

/-- **The circle that recording looks for** is there iff the new link closes one. -/
theorem Grounded.cyclic_linkWith_iff (hg : g.Grounded) (hs : g.isMerged source = false) :
    Cyclic (g.LinkWith source target) ↔ g.resolve target = source := by
  constructor
  · intro hcyclic
    -- otherwise the link could be recorded, and recording keeps the links free of circles
    by_contra hne
    have hok := record_eq g source target
    rw [if_neg hne, if_neg (by simp [hs])] at hok
    apply (resolve_record hg hok).1.not_cyclic
    rw [link_record hok]
    exact hcyclic
  · intro hback
    have hpath : Relation.ReflTransGen g.Link target source :=
      (hg.leadsTo_iff.mpr hback).reflTransGen
    have hlong : Relation.ReflTransGen (g.LinkWith source target) target source :=
      Relation.ReflTransGen.mono (fun _ _ h => Or.inl h) _ _ hpath
    exact ⟨source, .head' (.inr ⟨rfl, rfl⟩) hlong⟩

/-- A variable that was merged is not what another one resolves to. -/
theorem Grounded.resolve_ne_of_isMerged (hg : g.Grounded) (hs : g.isMerged source = true) :
    g.resolve target ≠ source := by
  rintro rfl
  rw [stands_iff.mp (hg target)] at hs
  cases hs

/-- A variable resolves to itself iff it was not merged. -/
theorem Grounded.resolve_eq_self_iff (hg : g.Grounded) :
    g.resolve v = v ↔ g.isMerged v = false := by
  constructor
  · intro h
    rw [← h]
    exact stands_iff.mp (hg v)
  · intro h
    exact hg.resolve_of_stands (stands_iff.mpr h)

/-! ## §4.  Classes -/

/-- Variables resolve to the same one iff the pairs of a relation join them. -/
def Joins (g : Merges) (pair : Nat → Nat → Prop) : Prop :=
  ∀ v w, g.resolve v = g.resolve w ↔ Relation.EqvGen pair v w

/-- Without merges no two variables are joined. -/
theorem joins_none : none.Joins fun _ _ => False := by
  intro v w
  constructor
  · intro h
    have h : v = w := h
    subst h
    exact .refl v
  · intro h
    have heq : v = w := eq_equivalence.eqvGen_iff.mp (h.mono fun _ _ h => h.elim)
    rw [heq]

/-- **A link joins the classes of its two variables**, and no others. -/
theorem Joins.record {pair : Nat → Nat → Prop} (hg : g.Grounded) (hj : g.Joins pair)
    (h : g.record source target = .ok g') :
    g'.Joins fun a b => pair a b ∨ a = source ∧ b = target := by
  obtain ⟨hcycle, hsource⟩ := of_record h
  have hself : g.resolve source = source := hg.resolve_of_stands hsource
  have hnew := (resolve_record hg h).2
  have hold {v w : Nat} (hvw : g.resolve v = g.resolve w) :
      Relation.EqvGen (fun a b => pair a b ∨ a = source ∧ b = target) v w :=
    ((hj v w).mp hvw).mono fun _ _ => .inl
  -- every variable is joined to the one it is read through now
  have hroot (v : Nat) :
      Relation.EqvGen (fun a b => pair a b ∨ a = source ∧ b = target) v (g'.resolve v) := by
    rw [hnew v]
    by_cases hv : g.resolve v = source
    · rw [if_pos hv]
      have hto : Relation.EqvGen (fun a b => pair a b ∨ a = source ∧ b = target) v source :=
        hold (by rw [hv, hself])
      have hlink : Relation.EqvGen (fun a b => pair a b ∨ a = source ∧ b = target) source target :=
        .rel _ _ (.inr ⟨rfl, rfl⟩)
      have hfrom : Relation.EqvGen (fun a b => pair a b ∨ a = source ∧ b = target) target
          (g.resolve target) := hold (hg.resolve_resolve target).symm
      exact (hto.trans _ _ _ hlink).trans _ _ _ hfrom
    · rw [if_neg hv]
      exact hold (hg.resolve_resolve v).symm
  intro v w
  constructor
  · intro hvw
    have hw := (hroot w).symm
    rw [← hvw] at hw
    exact (hroot v).trans _ _ _ hw
  · intro hvw
    -- reading through the same variable is an equivalence that every pair belongs to
    have hequiv : Equivalence fun a b => g'.resolve a = g'.resolve b :=
      eq_equivalence.comap g'.resolve
    refine hequiv.eqvGen_iff.mp (hvw.mono ?_)
    rintro a b (hab | ⟨rfl, rfl⟩)
    · have hab : g.resolve a = g.resolve b := (hj a b).mpr (.rel a b hab)
      rw [hnew a, hnew b, hab]
    · rw [hnew a, hnew b, if_pos hself, if_neg hcycle]

/-! ## §5.  Runs of recordings -/

/-- Records links one after the other. -/
def recordAll (g : Merges) (pairs : List (Nat × Nat)) : Checked Merges :=
  pairs.foldlM (fun g pair => g.record pair.1 pair.2) g

/-- What a run of recordings keeps. -/
theorem grounded_and_joins_of_recordAll {pairs : List (Nat × Nat)}
    (h : none.recordAll pairs = .ok g) :
    g.Grounded ∧ g.Joins (fun a b => (a, b) ∈ pairs) ∧ g.size = pairs.length := by
  induction pairs using List.reverseRecOn generalizing g with
  | nil =>
    cases h
    refine ⟨grounded_none, ?_, rfl⟩
    -- Induction from the last pair on: it is recorded in the forest of the earlier ones.
    have := joins_none
    simpa using this
  | append_singleton pairs pair ih =>
    unfold recordAll at h
    rw [List.foldlM_append] at h
    obtain ⟨before, hbefore, h⟩ := Checked.bind_eq_ok.mp h
    obtain ⟨after, hafter, h⟩ := Checked.bind_eq_ok.mp h
    cases h
    have hafter : before.record pair.1 pair.2 = .ok g := hafter
    obtain ⟨hg, hj, hsize⟩ := ih hbefore
    refine ⟨(resolve_record hg hafter).1, ?_, ?_⟩
    · have := hj.record hg hafter
      simpa [List.mem_append, Prod.ext_iff] using this
    · have hok := record_eq before pair.1 pair.2
      rw [hafter] at hok
      split at hok
      · cases hok
      · split at hok
        · cases hok
        · cases hok
          simp [size] at hsize ⊢
          exact hsize

/-- **The links form a forest** after every run of recordings that were accepted.  Following them
    from any variable ends, at a variable that was not merged and that resolves to itself, as
    exactly those do.  There is no circle.  Two variables resolve to the same one iff the recorded
    pairs join them, and there are as many links as recordings.  The next recording is refused iff
    its source was merged or the new link would close a circle; one that is accepted sends what was
    read through its source to what its target was read through, and leaves the others alone. -/
theorem forest_of_recordAll {pairs : List (Nat × Nat)} (h : none.recordAll pairs = .ok g) :
    (∀ v r, g.LeadsTo v r ↔ g.resolve v = r)
      ∧ (∀ v, g.isMerged (g.resolve v) = false ∧ g.resolve (g.resolve v) = g.resolve v
          ∧ (g.resolve v = v ↔ g.isMerged v = false))
      ∧ ¬Cyclic g.Link
      ∧ (∀ v w, g.resolve v = g.resolve w ↔ Relation.EqvGen (fun a b => (a, b) ∈ pairs) v w)
      ∧ g.size = pairs.length
      ∧ ∀ source target,
          (g.record source target = .error (.alreadyMerged source) ↔ g.isMerged source = true)
          ∧ (g.record source target = .error .mergeCycle
              ↔ g.isMerged source = false ∧ Cyclic (g.LinkWith source target))
          ∧ ((∃ g', g.record source target = .ok g')
              ↔ ¬(g.isMerged source = true ∨ Cyclic (g.LinkWith source target)))
          ∧ ∀ g', g.record source target = .ok g' → ∀ v,
              g'.resolve v = if g.resolve v = source then g.resolve target else g.resolve v := by
  obtain ⟨hg, hj, hsize⟩ := grounded_and_joins_of_recordAll h
  refine ⟨fun v r => hg.leadsTo_iff, ?_, hg.not_cyclic, hj, hsize, ?_⟩
  · intro v
    exact ⟨stands_iff.mp (hg v), hg.resolve_resolve v, hg.resolve_eq_self_iff⟩
  · intro source target
    -- a merged source is found out by the second check, since nothing resolves to it
    cases hmerged : g.isMerged source with
    | true =>
      have hok := record_eq g source target
      rw [if_neg (hg.resolve_ne_of_isMerged hmerged), if_pos hmerged] at hok
      simp [hok]
    | false =>
      have hok := record_eq g source target
      rw [hmerged] at hok
      refine ⟨?_, ?_, ?_, fun g' h => (resolve_record hg h).2⟩
      · rw [hok]
        by_cases hback : g.resolve target = source <;> simp [hback]
      · rw [hg.cyclic_linkWith_iff hmerged, hok]
        by_cases hback : g.resolve target = source <;> simp [hback]
      · rw [hg.cyclic_linkWith_iff hmerged, hok]
        by_cases hback : g.resolve target = source <;> simp [hback]

/-- Two chains are joined, another variable is put below them, and the circle back is refused. -/
theorem forest_of_four_links :
    ∃ g, none.recordAll [(0, 1), (2, 3), (1, 3), (4, 0)] = .ok g
      ∧ g.LeadsTo 4 3
      ∧ Relation.EqvGen (fun a b => (a, b) ∈ [(0, 1), (2, 3), (1, 3), (4, 0)]) 4 2
      ∧ g.size = 4
      ∧ Cyclic (g.LinkWith 3 4) := by
  have hrun : none.recordAll [(0, 1), (2, 3), (1, 3), (4, 0)]
      = .ok ⟨[(0, 1), (1, 3), (2, 3), (4, 0)]⟩ := rfl
  obtain ⟨hpath, -, -, hclass, hsize, hnext⟩ := forest_of_recordAll hrun
  refine ⟨_, hrun, ?_⟩
  refine ⟨(hpath 4 3).mpr (by decide), (hclass 4 2).mp (by decide), hsize, ?_⟩
  exact ((hnext 3 4).2.1.mp (by decide)).2

end BoundedSimplex.Merges
