/-
  BoundedSimplex.Proofs.Basis.Partition — what a split that passes its own check is.

  The check counts the marked variables and looks whether the entries of the two lists know their
  places.  It says nothing about variables that are on neither list.  But each of the two lists is
  free of repetitions if its entries know their places, and the marks tell the lists apart; so once
  the lists have as many entries as there are variables, nothing can be missing.  Splits that are
  set up in a wrong way are turned down: a marked variable without a row, a row without a variable,
  or one variable for two rows.

  Main results:
    * `isConsistent_iff_isPartition` — the check is complete;
    * `Known.perform`, `known_of_editAll` — what is kept by every edit, whether the
      check is passed or not;
    * `isConsistent_pushBasic`, `exists_swap_of_isConsistent` — the edits that keep the check;
    * `partition_of_editAll` — all splits that edits lead to.
-/
import BoundedSimplex.Proofs.Basis.Exchange

namespace BoundedSimplex

namespace BasisSplit

variable {s t : BasisSplit}

/-! ## §1.  Partitions -/

/-- The two lists have as many entries as there are variables. -/
def AllListed (s : BasisSplit) : Prop :=
  s.basic.length + s.nonBasic.length = s.positions.length

instance decidableAllListed (s : BasisSplit) : Decidable s.AllListed :=
  inferInstanceAs (Decidable (_ = _))

/-- Both lists are free of repetitions, they have no variable in common and hold every variable, the
    rows belong to the marked variables, and the positions are the inverse of both lists. -/
structure IsPartition (s : BasisSplit) : Prop where
  basicNodup : s.basic.Nodup
  nonBasicNodup : s.nonBasic.Nodup
  disjoint : ∀ v, some v ∈ s.basic → v ∉ s.nonBasic
  covers : ∀ v < s.positions.length, some v ∈ s.basic ∨ v ∈ s.nonBasic
  marks : ∀ v, s.isBasic v = true ↔ some v ∈ s.basic
  row_iff : ∀ v i, s.basic[i]? = some (some v)
    ↔ s.isBasic v = true ∧ s.positions[v]? = some (some i)
  place_iff : ∀ v j, s.nonBasic[j]? = some v
    ↔ s.isBasic v = false ∧ s.positions[v]? = some (some j)

/-- A split in order is a partition. -/
theorem WellFormed.isPartition {m n : Nat} (h : s.WellFormed m n) (hmark : s.Marked) :
    s.IsPartition := by
  have hlt {v i : Nat} (hp : s.positions[v]? = some (some i)) : v < n := by
    rw [← h.places]
    exact (List.getElem?_eq_some_iff.mp hp).1
  have hnodup : (s.basic ++ s.nonBasic.map some).Nodup :=
    h.perm_range.nodup_iff.mpr (List.nodup_range.map (Option.some_injective _))
  obtain ⟨hbasic, hother, hdisjoint⟩ := List.nodup_append.mp hnodup
  refine ⟨hbasic, hother.of_map, ?_, ?_, h.isBasic_iff hmark, ?_, ?_⟩
  · intro v hv hv'
    exact hdisjoint _ hv _ (List.mem_map_of_mem hv') rfl
  · intro v hv
    have hv : v < n := h.places ▸ hv
    have hmem := h.perm_range.mem_iff.mpr (List.mem_map_of_mem (List.mem_range.mpr hv))
    simpa using hmem
  · intro v i
    constructor
    · intro hi
      obtain ⟨w, hw, -, hp, hb⟩ := h.basic.of_getElem? hi
      cases hw
      exact ⟨hb, hp⟩
    · rintro ⟨hb, hp⟩
      -- the row that the variable has is the one that it knows
      obtain ⟨k, -, hk⟩ := h.coversBasic v (hlt hp) hb
      obtain ⟨w, hw, -, hp', -⟩ := h.basic.of_getElem? hk
      cases hw
      rw [hp'] at hp
      cases hp
      exact hk
  · intro v j
    constructor
    · intro hj
      obtain ⟨-, hp, hb⟩ := h.nonBasic.of_getElem? hj
      exact ⟨hb, hp⟩
    · rintro ⟨hb, hp⟩
      obtain ⟨k, -, hk⟩ := h.coversOther v (hlt hp) hb
      obtain ⟨-, hp', -⟩ := h.nonBasic.of_getElem? hk
      rw [hp'] at hp
      cases hp
      exact hk

namespace IsPartition

/-- In a partition only variables are marked. -/
theorem marked (h : s.IsPartition) : s.Marked := by
  intro v hv
  obtain ⟨i, hi⟩ := List.mem_iff_getElem?.mp ((h.marks v).mp hv)
  exact (List.getElem?_eq_some_iff.mp ((h.row_iff v i).mp hi).2).1

/-- There is no place for a row without a variable. -/
theorem none_notMem (h : s.IsPartition) (hall : s.AllListed) : none ∉ s.basic := by
  intro hnone
  have hnodup : (none :: (List.range s.positions.length).map some).Nodup :=
    List.nodup_cons.mpr ⟨by simp, List.nodup_range.map (Option.some_injective _)⟩
  have hsub : none :: (List.range s.positions.length).map some
    ⊆ s.basic ++ s.nonBasic.map some := by
    intro slot hslot
    rcases List.mem_cons.mp hslot with rfl | hslot
    · exact List.mem_append_left _ hnone
    · obtain ⟨v, hv, rfl⟩ := List.mem_map.mp hslot
      rcases h.covers v (List.mem_range.mp hv) with hb | hn
      · exact List.mem_append_left _ hb
      · exact List.mem_append_right _ (List.mem_map_of_mem hn)
  -- all variables and the empty row are one entry more than there is room for
  have hle := (List.subperm_of_subset hnodup hsub).length_le
  have hall : s.basic.length + s.nonBasic.length = s.positions.length := hall
  simp at hle
  omega

/-- A partition is in order. -/
theorem wellFormed (h : s.IsPartition) (hall : s.AllListed) :
    s.WellFormed s.basic.length s.positions.length := by
  refine wellFormed_of_fits hall ?_ ?_ ?_ ?_
  · intro i slot hslot
    cases slot with
    | none => exact absurd (List.mem_of_getElem? hslot) (h.none_notMem hall)
    | some v => exact ⟨v, rfl, fits_iff.mpr ((h.row_iff v i).mp hslot)⟩
  · intro j v hv
    exact fits_iff.mpr ((h.place_iff v j).mp hv)
  · intro v hb
    obtain ⟨i, hi⟩ := List.mem_iff_getElem?.mp ((h.marks v).mp hb)
    exact ⟨i, (List.getElem?_eq_some_iff.mp hi).1, hi⟩
  · intro v hv hb
    rcases h.covers v hv with hrow | hother
    · rw [(h.marks v).mpr hrow] at hb
      cases hb
    · obtain ⟨j, hj⟩ := List.mem_iff_getElem?.mp hother
      exact ⟨j, (List.getElem?_eq_some_iff.mp hj).1, hj⟩

end IsPartition

/-- The check sees to it that only variables are marked. -/
theorem marked_of_isConsistent (hc : s.isConsistent = true) : s.Marked := by
  intro v hv
  obtain ⟨i, hi, hslot⟩ := exists_row_of_isBasic hc hv
  have hplace := (row_of_isConsistent hc hi).2.2
  rw [basicVar_of_getElem? hslot] at hplace
  exact (List.getElem?_eq_some_iff.mp hplace).1

/-- **The check is complete**: a split whose lists are long enough passes it iff
    it is a partition. -/
theorem isConsistent_iff_isPartition (hall : s.AllListed) :
    s.isConsistent = true ↔ s.IsPartition := by
  constructor
  · intro hc
    exact (wellFormed_of_isConsistent hc hall).isPartition (marked_of_isConsistent hc)
  · intro h
    exact (h.wellFormed hall).isConsistent h.marked

end BasisSplit

/-! ## §2.  Edits -/

/-- What can be done to a split. -/
inductive SplitEdit where
  | blank (m n : Nat)
  | markBasic (v : Nat)
  | assignRow (v i : Nat)
  | listNonBasic
  | pushBasic
  | swap (j i : Nat)

/-- The edit of a split, which for `blank` is thrown away. -/
def SplitEdit.perform (s : BasisSplit) : SplitEdit → Checked BasisSplit
  | blank m n => BasisSplit.blank? m n
  | markBasic v => s.markBasic v
  | assignRow v i => s.assignRow v i
  | listNonBasic => s.listNonBasic
  | pushBasic => return s.pushBasic
  | swap j i => do
    let (_, t) ← s.swap j i
    return t

namespace BasisSplit

variable {s t : BasisSplit}

/-- Edits one after the other. -/
def editAll (s : BasisSplit) (edits : List SplitEdit) : Checked BasisSplit :=
  edits.foldlM SplitEdit.perform s

/-- Whatever is marked or listed is a variable, and the others are listed all at once. -/
structure Known (s : BasisSplit) : Prop where
  marked : s.Marked
  rows : ∀ v, some v ∈ s.basic → v < s.positions.length
  others : ∀ v ∈ s.nonBasic, v < s.positions.length
  listed : s.nonBasic = [] ∨ s.AllListed

theorem known_blank (m n : Nat) : (blank m n).Known where
  marked := marked_blank m n
  rows v hv := by simp [blank] at hv
  others v hv := by simp [blank] at hv
  listed := .inl rfl

/-- One more basic variable keeps all variables listed. -/
theorem AllListed.pushBasic (h : s.AllListed) : s.pushBasic.AllListed := by
  have h : s.basic.length + s.nonBasic.length = s.positions.length := h
  show (s.basic ++ [_]).length + s.nonBasic.length = (s.positions ++ [_]).length
  rw [List.length_append, List.length_append, List.length_singleton, List.length_singleton]
  omega

/-- An exchange keeps all variables listed. -/
theorem AllListed.of_swap (h : s.AllListed) {j i : Nat} {names : Nat × Nat}
    (ht : s.swap j i = .ok (names, t)) : t.AllListed := by
  obtain ⟨-, -, -, rfl⟩ := swap_eq_ok_iff.mp ht
  show (s.basic.set i _).length + (s.nonBasic.set j _).length
    = ((s.positions.set _ _).set _ _).length
  rw [List.length_set, List.length_set, List.length_set, List.length_set]
  exact h

namespace Known

/-- Marking a variable needs a place for it. -/
theorem markBasic (h : s.Known) {v : Nat} (ht : s.markBasic v = .ok t) : t.Known := by
  have hmarked := h.marked.insert ht
  obtain ⟨_, -, ht⟩ := Checked.bind_eq_ok.mp ht
  cases ht
  exact ⟨hmarked, h.rows, h.others, h.listed⟩

/-- A row can be given to a marked variable only. -/
theorem assignRow (h : s.Known) {v i : Nat} (ht : s.assignRow v i = .ok t) : t.Known := by
  obtain ⟨⟨-, -, hv⟩, rfl⟩ := assignRow_spec ht
  have hlen : (s.positions.set v (some i)).length = s.positions.length := List.length_set
  refine ⟨?_, ?_, ?_, ?_⟩
  · intro w hw
    exact hlen.symm ▸ h.marked w hw
  · intro w hw
    rcases List.mem_or_eq_of_mem_set hw with hw | hw
    · exact hlen.symm ▸ h.rows w hw
    · cases hw
      exact hlen.symm ▸ hv
  · intro w hw
    exact hlen.symm ▸ h.others w hw
  · refine h.listed.imp_right fun hall => ?_
    show (s.basic.set i (some v)).length + s.nonBasic.length = _
    rw [List.length_set, hlen]
    exact hall

/-- After listing the others, all variables are listed if each row has one. -/
theorem listNonBasic (h : s.Known) (ht : s.listNonBasic = .ok t) : t.Known := by
  obtain ⟨_, hcount, ht⟩ := Checked.bind_eq_ok.mp ht
  have hcount := Checked.require_eq_ok.mp hcount
  cases ht
  refine ⟨?_, ?_, ?_, ?_⟩
  · intro v hv
    exact (length_placeAll _ _).symm ▸ h.marked v hv
  · intro v hv
    exact (length_placeAll _ _).symm ▸ h.rows v hv
  · intro v hv
    exact (length_placeAll _ _).symm ▸ List.mem_range.mp (List.mem_filter.mp hv).1
  · right
    show s.basic.length + _ = (placeAll s.positions _).length
    rw [length_placeAll, Nat.add_comm]
    exact hcount

/-- One more basic variable. -/
theorem pushBasic (h : s.Known) : s.pushBasic.Known := by
  have hlen : s.pushBasic.positions.length = s.positions.length + 1 :=
    List.length_append.trans (by rw [List.length_singleton])
  refine ⟨h.marked.pushBasic, ?_, ?_, h.listed.imp_right AllListed.pushBasic⟩
  · intro v hv
    rw [hlen]
    rcases List.mem_append.mp hv with hv | hv
    · exact Nat.lt_succ_of_lt (h.rows v hv)
    · cases List.mem_singleton.mp hv
      omega
  · intro v hv
    rw [hlen]
    exact Nat.lt_succ_of_lt (h.others v hv)

theorem swap (h : s.Known) {j i : Nat} {names : Nat × Nat} (ht : s.swap j i = .ok (names, t)) :
    t.Known := by
  obtain ⟨hent, hleave⟩ := (placed_of_swap ht).1
  -- the two variables of an exchange have places, which stay as many
  refine ⟨h.marked.swap ht, ?_, ?_, ?_⟩
  · intro v hv
    rw [positions_of_swap ht, List.length_set, List.length_set]
    obtain ⟨hother, -, -, rfl⟩ := swap_eq_ok_iff.mp ht
    rcases List.mem_or_eq_of_mem_set hv with hv | hv
    · exact h.rows v hv
    · cases hv
      rwa [nonBasicVar_of_getElem? hother]
  · intro v hv
    rw [positions_of_swap ht, List.length_set, List.length_set]
    obtain ⟨-, hrow, -, rfl⟩ := swap_eq_ok_iff.mp ht
    rcases List.mem_or_eq_of_mem_set hv with hv | rfl
    · exact h.others v hv
    · rwa [basicVar_of_getElem? hrow]
  · -- an exchange needs a variable on the list of the others
    right
    refine AllListed.of_swap (h.listed.resolve_left fun hnil => ?_) ht
    have hother := (swap_eq_ok_iff.mp ht).1
    rw [hnil] at hother
    cases hother

/-- **Every edit** keeps what is known, whether the split passes the check or not. -/
theorem perform (h : s.Known) {e : SplitEdit} (ht : e.perform s = .ok t) : t.Known := by
  cases e with
  | blank m n =>
    obtain ⟨_, -, ht⟩ := Checked.bind_eq_ok.mp ht
    obtain ⟨_, -, ht⟩ := Checked.bind_eq_ok.mp ht
    cases ht
    exact known_blank m n
  | markBasic v => exact h.markBasic ht
  | assignRow v i => exact h.assignRow ht
  | listNonBasic => exact h.listNonBasic ht
  | pushBasic =>
    cases ht
    exact h.pushBasic
  | swap j i =>
    obtain ⟨⟨names, u⟩, hu, ht⟩ := Checked.bind_eq_ok.mp ht
    cases ht
    exact h.swap hu

end Known

/-- So do all edits one after the other. -/
theorem known_of_editAll {edits : List SplitEdit} (h : empty.editAll edits = .ok s) : s.Known := by
  refine Checked.foldlM_inv (P := Known) ?_ (known_blank 0 0) h
  intro e _ s t hs ht
  exact hs.perform ht

end BasisSplit

/-! ## §3.  Edits that keep the check -/

theorem Increasing.length_insert {x : Nat} {ys : List Nat} (h : x ∉ ys) :
    (Increasing.insert x ys).length = ys.length + 1 := by
  induction ys with
  | nil => rfl
  | cons y ys ih =>
    rw [List.mem_cons, not_or] at h
    unfold Increasing.insert
    rw [if_neg h.1]
    split
    · rfl
    · rw [List.length_cons, ih h.2, List.length_cons]

namespace BasisSplit

variable {s t : BasisSplit}

/-- **One more basic variable** keeps the check. -/
theorem isConsistent_pushBasic (hc : s.isConsistent = true) : s.pushBasic.isConsistent = true := by
  obtain ⟨hsize, hrows, hothers⟩ := isConsistent_iff.mp hc
  have hfits {marked : Bool} {v i : Nat} (h : s.fits marked v i = true) :
      s.pushBasic.fits marked v i = true := by
    obtain ⟨hb, hp⟩ := fits_iff.mp h
    have hv := (List.getElem?_eq_some_iff.mp hp).1
    refine fits_iff.mpr ⟨?_, (List.getElem?_append_left hv).trans hp⟩
    show (s.basicSet.insert s.positions.length).contains v = marked
    rw [IndexSet.contains_insert, beq_eq_false_iff_ne.mpr (Nat.ne_of_lt hv), Bool.false_or]
    exact hb
  refine isConsistent_iff.mpr ⟨?_, ?_, fun j v hv => hfits (hothers j v hv)⟩
  · -- the new variable was not marked before
    have hnew : s.positions.length ∉ s.basicSet.toList := by
      intro hmem
      have hb : s.isBasic s.positions.length = true := by
        simpa [isBasic, IndexSet.contains] using hmem
      exact absurd (marked_of_isConsistent hc _ hb) (lt_irrefl _)
    show (Increasing.insert s.positions.length s.basicSet.toList).length = (s.basic ++ [_]).length
    rw [Increasing.length_insert hnew, List.length_append, List.length_singleton]
    exact congrArg (· + 1) hsize
  · intro i slot hslot
    by_cases hi : i < s.basic.length
    · obtain ⟨v, hv, hfit⟩ := hrows i slot ((List.getElem?_append_left hi).symm.trans hslot)
      exact ⟨v, hv, hfits hfit⟩
    · -- the last row is the new one
      have hlast := (List.getElem?_eq_some_iff.mp hslot).1
      have hi : i = s.basic.length := by
        have : (s.basic ++ [some s.positions.length]).length = s.basic.length + 1 := by simp
        have : i < (s.basic ++ [some s.positions.length]).length := hlast
        omega
      subst hi
      have hslot : (s.basic ++ [some s.positions.length])[s.basic.length]? = some slot := hslot
      rw [List.getElem?_concat_length] at hslot
      cases hslot
      refine ⟨_, rfl, fits_iff.mpr ⟨?_, List.getElem?_concat_length⟩⟩
      show (s.basicSet.insert s.positions.length).contains s.positions.length = true
      simp

/-- **An exchange of two places** that exist goes through and keeps the check. -/
theorem exists_swap_of_isConsistent (hc : s.isConsistent = true) (hall : s.AllListed) {j i : Nat}
    (hj : j < s.nonBasic.length) (hi : i < s.basic.length) :
    ∃ names t, s.swap j i = .ok (names, t) ∧ t.isConsistent = true := by
  have hcount : s.basic.length + s.nonBasic.length = s.positions.length := hall
  have hwf := wellFormed_of_isConsistent hc hall
  have hj : j < s.positions.length - s.basic.length := by omega
  have hswap := hwf.swap_eq hj hi
  exact ⟨_, _, hswap,
    (hwf.swap hj hi).isConsistent ((marked_of_isConsistent hc).swap hswap)⟩

/-- The variables of an exchange know their places if the check is passed. -/
theorem fits_of_isConsistent (hc : s.isConsistent = true) {j i : Nat} {names : Nat × Nat}
    (ht : s.swap j i = .ok (names, t)) :
    s.fits true names.2 i = true ∧ s.fits false names.1 j = true := by
  obtain ⟨-, hrows, hothers⟩ := isConsistent_iff.mp hc
  obtain ⟨hent, hleave, -⟩ := swap_eq_ok_iff.mp ht
  obtain ⟨v, hv, hfit⟩ := hrows i _ hleave
  cases hv
  exact ⟨hfit, hothers j _ hent⟩

/-- So exchanges of different places have no variable in common. -/
theorem apart_of_isConsistent (hc : s.isConsistent = true) {t' : BasisSplit} {j i j' i' : Nat}
    {names names' : Nat × Nat} (ht : s.swap j i = .ok (names, t))
    (ht' : s.swap j' i' = .ok (names', t')) (hj : j ≠ j') (hi : i ≠ i') :
    [names.1, names.2].Disjoint [names'.1, names'.2] := by
  obtain ⟨hleave, hent⟩ := fits_of_isConsistent hc ht
  obtain ⟨hleave', hent'⟩ := fits_of_isConsistent hc ht'
  have hne {v w k l : Nat} {marked marked' : Bool} (hv : s.fits marked v k = true)
      (hw : s.fits marked' w l = true) (hkl : marked = marked' → k ≠ l) : w ≠ v := by
    rintro rfl
    obtain ⟨hb, hp⟩ := fits_iff.mp hv
    obtain ⟨hb', hp'⟩ := fits_iff.mp hw
    rw [hp] at hp'
    exact hkl (hb.symm.trans hb') (Option.some.inj (Option.some.inj hp'))
  simp [hne hent hent' fun _ => hj, hne hleave hent' (by simp), hne hent hleave' (by simp),
    hne hleave hleave' fun _ => hi]

/-- The other split passes the check, and is a partition if the lists of this
    one are long enough. -/
def Keeps (s t : BasisSplit) : Prop :=
  t.isConsistent = true ∧ (s.AllListed → t.AllListed ∧ t.IsPartition)

/-- A split that passes the check keeps what it had if all variables stay listed. -/
theorem keeps_of_isConsistent (hc : t.isConsistent = true) (hall : s.AllListed → t.AllListed) :
    s.Keeps t :=
  ⟨hc, fun h => ⟨hall h, (isConsistent_iff_isPartition (hall h)).mp hc⟩⟩

/-! ## §4.  All splits that edits lead to -/

/-- **Splits after any edits that went through.**  Whatever is marked or listed is a variable.  A
    split whose lists have as many entries as there are variables passes the check iff it is a
    partition.  One more basic variable and an exchange of two places that exist keep this.  The
    same exchange once more puts both lists back; if it is about two different variables, it undoes
    the first one iff these were recorded where they stood.  Exchanges of different places lead to
    the same lists in either order, and to the same split if no variable takes part in both.  In a
    split that passes the check both conditions always hold. -/
theorem partition_of_editAll {edits : List SplitEdit} (h : empty.editAll edits = .ok s) :
    (∀ v, s.isBasic v = true ∨ some v ∈ s.basic ∨ v ∈ s.nonBasic → v < s.positions.length)
    ∧ (s.AllListed → (s.isConsistent = true ↔ s.IsPartition))
    ∧ (s.isConsistent = true → s.Keeps s.pushBasic
      ∧ ∀ j < s.nonBasic.length, ∀ i < s.basic.length,
          ∃ names t, s.swap j i = .ok (names, t) ∧ s.Keeps t)
    ∧ (∀ j i names t, s.swap j i = .ok (names, t) →
      ∃ u, t.swap j i = .ok (names.swap, u) ∧ u.basic = s.basic ∧ u.nonBasic = s.nonBasic
        ∧ (names.1 ≠ names.2 →
          (u = s ↔ s.fits true names.2 i = true ∧ s.fits false names.1 j = true))
        ∧ (s.isConsistent = true → u = s))
    ∧ ∀ j i names t j' i' names' t', j ≠ j' → i ≠ i' → s.swap j i = .ok (names, t) →
      s.swap j' i' = .ok (names', t') →
        ∃ u u', t.swap j' i' = .ok (names', u) ∧ t'.swap j i = .ok (names, u')
          ∧ u.basic = u'.basic ∧ u.nonBasic = u'.nonBasic
          ∧ ([names.1, names.2].Disjoint [names'.1, names'.2] → u = u')
          ∧ (s.isConsistent = true → u = u') := by
  have hknown := known_of_editAll h
  refine ⟨?_, isConsistent_iff_isPartition, ?_, ?_, ?_⟩
  -- the first part is what every edit keeps, whether or not the check is passed
  · rintro v (hv | hv | hv)
    · exact hknown.marked v hv
    · exact hknown.rows v hv
    · exact hknown.others v hv
  · intro hc
    refine ⟨keeps_of_isConsistent (isConsistent_pushBasic hc) AllListed.pushBasic, ?_⟩
    intro j hj i hi
    -- where there is an entry to exchange, all variables are listed
    have hall : s.AllListed := hknown.listed.resolve_left fun hnil => by
      rw [hnil] at hj
      exact absurd hj (Nat.not_lt_zero j)
    obtain ⟨names, t, ht, htc⟩ := exists_swap_of_isConsistent hc hall hj hi
    exact ⟨names, t, ht, keeps_of_isConsistent htc fun hall => hall.of_swap ht⟩
  · intro j i names t ht
    obtain ⟨hagain, hrows, hothers⟩ := swap_again ht
    refine ⟨_, hagain, hrows, hothers, swapped_again_iff ht, ?_⟩
    intro hc
    obtain ⟨hrow, hplace⟩ := fits_of_isConsistent hc ht
    exact swapped_again_of_fits ht hrow hplace
  · intro j i names t j' i' names' t' hj hi ht ht'
    obtain ⟨hrows, hothers⟩ := lists_beside_comm ht ht' hj hi
    refine ⟨_, _, swap_beside ht ht' hj hi, swap_beside ht' ht hj.symm hi.symm, hrows, hothers,
      swapped_beside_comm ht ht' hj hi, ?_⟩
    intro hc
    exact swapped_beside_comm ht ht' hj hi (apart_of_isConsistent hc ht ht' hj hi)

/-- Five variables are split, one exchange is made and a variable is added. -/
theorem partition_of_six_variables : ∃ s, empty.editAll [.blank 2 5, .markBasic 3, .markBasic 1,
      .assignRow 3 0, .assignRow 1 1, .listNonBasic, .swap 1 0, .pushBasic] = .ok s
    ∧ s.IsPartition
    ∧ (∃ names t, s.swap 2 1 = .ok (names, t) ∧ t.IsPartition ∧ t.swap 2 1 = .ok (names.swap, s))
    ∧ ∃ names t names' t' u, s.swap 2 1 = .ok (names, t) ∧ s.swap 0 2 = .ok (names', t')
      ∧ t.swap 0 2 = .ok (names', u) ∧ t'.swap 2 1 = .ok (names, u) := by
  have hrun : empty.editAll [.blank 2 5, .markBasic 3, .markBasic 1, .assignRow 3 0, .assignRow 1 1,
      .listNonBasic, .swap 1 0, .pushBasic] = .ok ⟨⟨[1, 2, 5], by simp⟩, [some 2, some 1, some 5],
        [0, 3, 4], [some 0, some 1, some 0, some 1, some 2, some 2]⟩ := rfl
  obtain ⟨-, hcheck, hkeeps, hagain, hbeside⟩ := partition_of_editAll hrun
  have hc : BasisSplit.isConsistent ⟨⟨[1, 2, 5], by simp⟩, [some 2, some 1, some 5], [0, 3, 4],
      [some 0, some 1, some 0, some 1, some 2, some 2]⟩ = true := by decide
  refine ⟨_, hrun, (hcheck (by decide)).mp hc, ?_, ?_⟩
  · obtain ⟨names, t, ht, -, hpartition⟩ := (hkeeps hc).2 2 (by decide) 1 (by decide)
    obtain ⟨u, hu, -, -, -, hsame⟩ := hagain 2 1 names t ht
    exact ⟨names, t, ht, (hpartition (by decide)).2, hsame hc ▸ hu⟩
  · obtain ⟨names, t, ht, -⟩ := (hkeeps hc).2 2 (by decide) 1 (by decide)
    obtain ⟨names', t', ht', -⟩ := (hkeeps hc).2 0 (by decide) 2 (by decide)
    obtain ⟨u, u', hu, hu', -, -, -, hsame⟩ :=
      hbeside 2 1 names t 0 2 names' t' (by decide) (by decide) ht ht'
    exact ⟨names, t, names', t', u, ht, ht', hu, (hsame hc).symm ▸ hu'⟩

/-- One variable is given two rows and another marked one none.  The lists are long enough, but the
    same exchange twice changes the position of that variable, which has a different one depending
    on the order of two exchanges of different places. -/
theorem exchanges_of_doubled_row : ∃ s, empty.editAll [.blank 2 4, .markBasic 0, .markBasic 1,
      .assignRow 0 0, .assignRow 0 1, .listNonBasic] = .ok s
    ∧ s.AllListed
    ∧ (∃ names t u, s.swap 0 0 = .ok (names, t) ∧ t.swap 0 0 = .ok (names.swap, u) ∧ u ≠ s)
    ∧ ∃ names t names' t' u u', s.swap 0 0 = .ok (names, t) ∧ s.swap 1 1 = .ok (names', t')
      ∧ t.swap 1 1 = .ok (names', u) ∧ t'.swap 0 0 = .ok (names, u') ∧ u ≠ u' := by
  refine ⟨_, rfl, by decide, ⟨_, _, _, rfl, rfl, ?_⟩, _, _, _, _, _, _, rfl, rfl, rfl, rfl, ?_⟩
  · intro heq
    exact absurd (congrArg positions heq) (by decide)
  · intro heq
    exact absurd (congrArg positions heq) (by decide)

end BasisSplit

end BoundedSimplex
