/-
  BoundedSimplex.Proofs.Tableau.Relaxed — what the relaxed ratio test selects.

  The first pass gives every row a little more room than it has and finds the shortest way under
  these terms.  The second pass looks at the rows that stop the move within that way, and takes the
  one with the largest entry, the first one of equals.  There is such a row unless the entering
  variable reaches its other bound before: the row that decided the first pass is one.

  Main results:
    * `relaxedBound_spec` — the first pass finds a least element;
    * `Scanned.look` — what one row does to the second pass;
    * `harrisRatioTest_settles` — what the test settles for.
-/
import BoundedSimplex.Proofs.Tableau.Textbook

namespace BoundedSimplex

open Extended

variable {K : Type} [Field K] [LinearOrder K]

/-! ## §1.  The least of some ways -/

namespace Extended

variable {a b : Extended K}

/-- Two ways of which neither is longer are the same. -/
theorem eq_of_le_of_le (ha : a = top ∨ ∃ d, a = fin d) (hb : b = top ∨ ∃ d, b = fin d) (h : a ≤ b)
    (h' : b ≤ a) : a = b := by
  obtain rfl | ⟨d, rfl⟩ := ha
  · obtain rfl | ⟨e, rfl⟩ := hb
    · rfl
    · exact absurd h Bool.false_ne_true
  · obtain rfl | ⟨e, rfl⟩ := hb
    · exact absurd h' Bool.false_ne_true
    · rw [le_antisymm ((fin_le_fin d e).mp h) ((fin_le_fin e d).mp h')]

theorem smaller_cases (ha : a = top ∨ ∃ d, a = fin d) :
    Scalar.smaller a b = b ∧ b < a ∨ Scalar.smaller a b = a ∧ ¬b < a := by
  have hsame : (a == a) = true := by
    obtain rfl | ⟨d, rfl⟩ := ha
    · rfl
    · exact decide_eq_true rfl
  unfold Scalar.smaller
  by_cases h : b < a
  · exact .inl ⟨if_pos h, h⟩
  · exact .inr ⟨by rw [if_neg h, if_pos hsame], h⟩

/-- **The smallest of a list** is one of them, and no longer than any of them. -/
theorem foldl_smaller {xs : List (Extended K)} (ha : a = top ∨ ∃ d, a = fin d)
    (hx : ∀ x ∈ xs, x = top ∨ ∃ d, x = fin d) :
    (xs.foldl Scalar.smaller a = a ∨ xs.foldl Scalar.smaller a ∈ xs)
      ∧ (xs.foldl Scalar.smaller a).UpTo a ∧ ∀ x ∈ xs, (xs.foldl Scalar.smaller a).UpTo x := by
  induction xs generalizing a with
  | nil => exact ⟨.inl rfl, .refl a, fun x hx => absurd hx List.not_mem_nil⟩
  | cons x xs ih =>
    have hx' := hx x List.mem_cons_self
    have hrest (y : Extended K) (hy : y ∈ xs) := hx y (List.mem_cons_of_mem x hy)
    rw [List.foldl_cons]
    -- The first element takes the lead, or the leader stays; the rest follows by induction.
    rcases smaller_cases (b := x) ha with ⟨hs, hlt⟩ | ⟨hs, hlt⟩
    · rw [hs]
      obtain ⟨hone, hleast, hall⟩ := ih hx' hrest
      refine ⟨.inr ?_, hleast.trans (upTo_of_lt hx' hlt), fun y hy => ?_⟩
      · rcases hone with h | h
        · rw [h]
          exact List.mem_cons_self
        · exact List.mem_cons_of_mem x h
      · rcases List.mem_cons.mp hy with rfl | hy
        · exact hleast
        · exact hall y hy
    · rw [hs]
      obtain ⟨hone, hleast, hall⟩ := ih ha hrest
      refine ⟨hone.imp_right (List.mem_cons_of_mem x), hleast, fun y hy => ?_⟩
      rcases List.mem_cons.mp hy with rfl | hy
      · exact hleast.trans (upTo_of_not_lt ha hlt)
      · exact hall y hy

end Extended

namespace Tableau

variable {t w : Tableau (Extended K)} {falls : Bool} {range bound : Extended K} {i p : Nat}

/-! ## §2.  The first pass -/

/-- The rows of the change column whose entry is not too small for a ratio test. -/
def Considered (t : Tableau (Extended K)) (i : Nat) : Prop :=
  i < t.rowCount ∧ t.settings.columnTolerance ≤ fin |coord t.plan.column i|

/-- A step is the least of the range of the entering variable and of the ratios of the rows, with
    the tolerance added to their room. -/
structure IsRelaxedBound (t : Tableau (Extended K)) (falls : Bool) (range bound : Extended K) :
    Prop where
  le_range : bound ≤ range
  le_ratio : ∀ i space, t.Considered i →
    t.basicRoom i (rises (fin (coord t.plan.column i)) falls) = .ok space →
      bound ≤ (space + t.settings.harrisTolerance) / fin |coord t.plan.column i|
  attained : bound = range ∨ ∃ i space, t.Considered i
    ∧ t.basicRoom i (rises (fin (coord t.plan.column i)) falls) = .ok space
    ∧ bound = (space + t.settings.harrisTolerance) / fin |coord t.plan.column i|

/-- Entries that are not too small are not zero. -/
theorem Considered.ne_zero [IsStrictOrderedRing K] (h : t.Considered i)
    (hτ : 0 < t.settings.columnTolerance) :
    coord t.plan.column i ≠ 0 := by
  intro hz
  have hle := h.2
  rw [hz, abs_zero] at hle
  exact not_fin_lt_of_le hle hτ

/-- An entry is passed over or considered. -/
theorem le_of_not_fin_lt {c : K} {τ : Extended K} (hτ : 0 < τ) (h : ¬(fin c : Extended K) < τ) :
    τ ≤ fin c := by
  cases τ with
  | fin e => exact (fin_le_fin e c).mpr (not_lt.mp fun hlt => h ((fin_lt_fin c e).mpr hlt))
  | top => exact absurd rfl h
  | bot | undefined => exact absurd hτ Bool.false_ne_true

/-- The entries that the two passes leave out are the same. -/
theorem considered_iff (hc : Numbers t.rowCount t.plan.column) {x : Extended K}
    (hx : t.plan.column[i]? = some x) : t.Considered i
      ↔ t.settings.columnTolerance ≤ Scalar.magnitude x := by
  have hi : i < t.rowCount := by
    rw [← hc.length]
    exact (List.getElem?_eq_some_iff.mp hx).1
  obtain rfl := Option.some.inj (hx.symm.trans (hc.getElem? hi))
  exact ⟨fun h => h.2, fun h => ⟨hi, h⟩⟩

section Passes

variable [IsStrictOrderedRing K] {τ h : K}

/-- A ratio with more room is a number or without limit. -/
theorem relaxed_cases {space : Extended K} {c : K} (hc : c ≠ 0)
    (hs : space = top ∨ ∃ d, 0 ≤ d ∧ space = fin d) :
    (space + fin h) / fin |c| = top ∨ ∃ d, (space + fin h) / fin |c| = fin d := by
  have hpos : 0 < |c| := abs_pos.mpr hc
  obtain rfl | ⟨d, -, rfl⟩ := hs
  · exact .inl (top_div hpos)
  · exact .inr ⟨(d + h) / |c|, by rw [fin_add, fin_div _ hpos.ne']⟩

/-- **The first pass.** -/
theorem relaxedBound_spec (hh : t.settings.harrisTolerance = fin h)
    (hpos : 0 < t.settings.columnTolerance) (hc : Numbers t.rowCount t.plan.column)
    (hrange : t.enteringRange falls = .ok range) (hbound : t.relaxedBound falls range = .ok bound) :
    (bound = top ∨ ∃ d, bound = fin d) ∧ t.IsRelaxedBound falls range bound := by
  obtain ⟨ratios, hratios, hbound⟩ := Checked.bind_eq_ok.mp hbound
  obtain rfl := Except.ok.inj hbound
  have hstart := way_of_nonneg (enteringRange_nonneg hrange)
  -- the entries that are counted, with the ratios that they lead to
  have hone {r : Extended K} (hr : r ∈ ratios) : ∃ i space, t.Considered i
      ∧ t.basicRoom i (rises (fin (coord t.plan.column i)) falls) = .ok space
      ∧ r = (space + t.settings.harrisTolerance) / fin |coord t.plan.column i| := by
    obtain ⟨⟨x, i⟩, hmem, hr⟩ := Checked.exists_of_mem_mapM hratios hr
    obtain ⟨hmem, hcounted⟩ := List.mem_filter.mp hmem
    have hx : t.plan.column[i]? = some x := List.mem_zipIdx_iff_getElem?.mp hmem
    have hi := (considered_iff hc hx).mpr (of_decide_eq_true hcounted)
    obtain rfl := Option.some.inj (hx.symm.trans (hc.getElem? hi.1))
    obtain ⟨space, hspace, hr⟩ := Checked.bind_eq_ok.mp hr
    cases hr
    exact ⟨i, space, hi, hspace, rfl⟩
  have hall {i : Nat} {space : Extended K} (hi : t.Considered i)
      (hspace : t.basicRoom i (rises (fin (coord t.plan.column i)) falls) = .ok space) :
      (space + t.settings.harrisTolerance) / fin |coord t.plan.column i| ∈ ratios := by
    have hmem : (fin (coord t.plan.column i), i) ∈ t.plan.column.zipIdx :=
      List.mem_zipIdx_iff_getElem?.mpr (hc.getElem? hi.1)
    obtain ⟨r, hr, hratio⟩ := Checked.exists_of_mapM hratios
      (List.mem_filter.mpr ⟨hmem, decide_eq_true hi.2⟩)
    obtain ⟨space', hspace', hratio⟩ := Checked.bind_eq_ok.mp hratio
    obtain rfl := Except.ok.inj (hspace.symm.trans hspace')
    cases hratio
    exact hr
  have hcases (r : Extended K) (hr : r ∈ ratios) : r = top ∨ ∃ d, r = fin d := by
    obtain ⟨i, space, hi, hspace, rfl⟩ := hone hr
    rw [hh]
    exact relaxed_cases (hi.ne_zero hpos) (basicRoom_cases hspace)
  obtain ⟨hfound, hrangeLe, hratioLe⟩ := foldl_smaller hstart hcases
  have hbound : ratios.foldl Scalar.smaller range = top
      ∨ ∃ d, ratios.foldl Scalar.smaller range = fin d := by
    rcases hfound with hfound | hfound
    · rw [hfound]
      exact hstart
    · exact hcases _ hfound
  exact ⟨hbound, (le_iff_upTo hbound hstart).mpr hrangeLe,
    fun i space hi hspace => (le_iff_upTo hbound (hcases _ (hall hi hspace))).mpr
      (hratioLe _ (hall hi hspace)), hfound.imp_right hone⟩

/-! ## §3.  The second pass -/

/-- A row has a larger entry than another one, or comes before it with an entry of the same size. -/
def Outranks (t : Tableau (Extended K)) (p i : Nat) : Prop :=
  |coord t.plan.column i| < |coord t.plan.column p|
    ∨ |coord t.plan.column i| = |coord t.plan.column p| ∧ p ≤ i

/-- What the second pass has found among the first `n` rows. -/
structure Scanned (t : Tableau (Extended K)) (falls : Bool) (bound : Extended K) (n : Nat)
    (scan : HarrisScan (Extended K)) : Prop where
  chosen : ∀ p size ratio, scan.chosen = some (p, size, ratio) → p < n ∧ t.Considered p
    ∧ size = fin |coord t.plan.column p|
    ∧ t.ratioAt p (fin (coord t.plan.column p)) falls = .ok ratio ∧ ratio ≤ bound
  largest : ∀ i < n, ∀ r, t.Considered i →
    t.ratioAt i (fin (coord t.plan.column i)) falls = .ok r → r ≤ bound →
      ∃ p size ratio, scan.chosen = some (p, size, ratio) ∧ t.Outranks p i

omit [IsStrictOrderedRing K] in
/-- A row that the chosen one outranks changes nothing. -/
theorem Scanned.keep {n : Nat} {scan next : HarrisScan (Extended K)}
    (hs : t.Scanned falls bound n scan) (hsame : next.chosen = scan.chosen)
    (hrow : ∀ r, t.Considered n → t.ratioAt n (fin (coord t.plan.column n)) falls = .ok r →
      r ≤ bound → ∃ p size ratio, scan.chosen = some (p, size, ratio) ∧ t.Outranks p n) :
    t.Scanned falls bound (n + 1) next := by
  refine ⟨fun p size ratio hp => ?_, fun i hi r hi' hr hle => ?_⟩
  · obtain ⟨hlt, hp⟩ := hs.chosen p size ratio (hsame.symm.trans hp)
    exact ⟨hlt.trans (Nat.lt_succ_self n), hp⟩
  · rw [hsame]
    rcases Nat.lt_succ_iff_lt_or_eq.mp hi with hi | rfl
    · exact hs.largest i hi r hi' hr hle
    · exact hrow r hi' hr hle

omit [IsStrictOrderedRing K] in
/-- A row with a larger entry than the chosen one takes its place. -/
theorem Scanned.take {n : Nat} {scan next : HarrisScan (Extended K)} {ratio : Extended K}
    (hs : t.Scanned falls bound n scan) (hn : t.Considered n)
    (hratio : t.ratioAt n (fin (coord t.plan.column n)) falls = .ok ratio) (hle : ratio ≤ bound)
    (hnext : next.chosen = some (n, fin |coord t.plan.column n|, ratio))
    (hlarger : ∀ p size r, scan.chosen = some (p, size, r) →
      |coord t.plan.column p| < |coord t.plan.column n|) : t.Scanned falls bound (n + 1) next := by
  refine ⟨fun p size r hp => ?_, fun i hi r hi' hr hle' => ⟨n, _, _, hnext, ?_⟩⟩
  · cases hnext.symm.trans hp
    exact ⟨Nat.lt_succ_self n, hn, rfl, hratio, hle⟩
  · rcases Nat.lt_succ_iff_lt_or_eq.mp hi with hi | rfl
    · obtain ⟨p, size, r', hp, hout⟩ := hs.largest i hi r hi' hr hle'
      rcases hout with hout | ⟨hout, -⟩
      · exact .inl (hout.trans (hlarger p size r' hp))
      · exact .inl (hout ▸ hlarger p size r' hp)
    · exact .inr ⟨rfl, le_rfl⟩

omit [IsStrictOrderedRing K] in
/-- **One row.** -/
theorem Scanned.look {n : Nat} {scan next : HarrisScan (Extended K)} {x : Extended K}
    (hs : t.Scanned falls bound n scan) (hpos : 0 < t.settings.columnTolerance)
    (hc : Numbers t.rowCount t.plan.column)
    (hx : t.plan.column[n]? = some x)
    (hnext : HarrisScan.look t falls bound scan (x, n) = .ok next) :
    t.Scanned falls bound (n + 1) next := by
  have hn : n < t.rowCount := by
    rw [← hc.length]
    exact (List.getElem?_eq_some_iff.mp hx).1
  obtain rfl := Option.some.inj (hx.symm.trans (hc.getElem? hn))
  unfold HarrisScan.look at hnext
  dsimp only at hnext
  rw [magnitude_fin] at hnext
  by_cases hsmall : (fin |coord t.plan.column n| : Extended K) < t.settings.columnTolerance
  · -- the row is passed over
    rw [if_pos hsmall] at hnext
    cases hnext
    exact hs.keep rfl fun r hcon => absurd hsmall (not_fin_lt_of_le hcon.2)
  rw [if_neg hsmall] at hnext
  obtain ⟨ratio, hratio, hnext⟩ := Checked.bind_eq_ok.mp hnext
  obtain rfl := Except.ok.inj hnext
  by_cases htake : ratio ≤ bound
      ∧ (scan.chosen.all fun (_, best, _) => decide (fin |coord t.plan.column n| > best)) = true
  · refine hs.take ⟨hn, le_of_not_fin_lt hpos hsmall⟩ hratio htake.1 (if_pos htake)
      fun p size r hp => ?_
    obtain ⟨-, -, rfl, -⟩ := hs.chosen p size r hp
    have hlarger := htake.2
    rw [hp] at hlarger
    exact (fin_lt_fin _ _).mp (of_decide_eq_true hlarger)
  · -- the row stops the move too late, or its entry is not larger
    refine hs.keep (if_neg htake) fun r hcon hr hle => ?_
    obtain rfl := Except.ok.inj (hr.symm.trans hratio)
    rcases hchosen : scan.chosen with _ | ⟨p, size, r'⟩
    · exact absurd ⟨hle, by rw [hchosen]; rfl⟩ htake
    · obtain ⟨hlt, -, rfl, -⟩ := hs.chosen p size r' hchosen
      have hle' : |coord t.plan.column n| ≤ |coord t.plan.column p| := not_lt.mp fun hlarger =>
        htake ⟨hle, by
          rw [hchosen]
          exact decide_eq_true ((fin_lt_fin _ _).mpr hlarger)⟩
      exact ⟨p, _, r', rfl, hle'.lt_or_eq.imp_right fun heq => ⟨heq, hlt.le⟩⟩

/-! ## §4.  The outcome -/

/-- What the test settles for: the entering variable if it reaches its other bound first, else the
    row of the highest rank among those that stop the move in time. -/
structure Settles (t w : Tableau (Extended K)) (falls : Bool)
    (range bound : Extended K) : Prop where
  entering : range = bound → w = t.concluded .entering range falls
  basic : range ≠ bound → ∃ p d, Silent (t.concluded (.basic p) (fin d) falls) w ∧ t.Considered p
    ∧ t.ratioAt p (fin (coord t.plan.column p)) falls = .ok (fin d) ∧ fin d ≤ bound
    ∧ ∀ i r, t.Considered i → t.ratioAt i (fin (coord t.plan.column i)) falls = .ok r → r ≤ bound →
      t.Outranks p i

omit [IsStrictOrderedRing K] in
/-- The ratio of a row from its room. -/
theorem ratioAt_of_basicRoom (hne : coord t.plan.column i ≠ 0) {space : Extended K}
    (hspace : t.basicRoom i (rises (fin (coord t.plan.column i)) falls) = .ok space) :
    t.ratioAt i (fin (coord t.plan.column i)) falls
      = .ok (space / fin |coord t.plan.column i|) := by
  unfold ratioAt
  rw [Checked.require, if_pos (by rw [zero_eq, fin_beq]; simpa using hne), Checked.ok_bind, hspace]
  rfl

/-- The row that decided the first pass stops the move in time. -/
theorem IsRelaxedBound.exists_ratio (hb : t.IsRelaxedBound falls range bound)
    (hh : t.settings.harrisTolerance = fin h) (hnonneg : 0 ≤ h)
    (hpos : 0 < t.settings.columnTolerance) (hrange : range = top ∨ ∃ d, range = fin d)
    (hne : range ≠ bound) : ∃ i d, t.Considered i
      ∧ t.ratioAt i (fin (coord t.plan.column i)) falls = .ok (fin d) ∧ fin d ≤ bound := by
  rcases hb.attained with heq | ⟨i, space, hi, hspace, hbound⟩
  · exact absurd heq.symm hne
  have hc := hi.ne_zero hpos
  have hsize : 0 < |coord t.plan.column i| := abs_pos.mpr hc
  rw [hh] at hbound
  rcases basicRoom_cases hspace with rfl | ⟨d, -, rfl⟩
  · -- without limit, the entering variable would reach its bound as well
    have htop : bound = top := hbound.trans (top_div hsize)
    obtain rfl | ⟨e, rfl⟩ := hrange
    · exact absurd htop.symm hne
    · have hle := hb.le_range
      rw [htop] at hle
      exact absurd hle Bool.false_ne_true
  · refine ⟨i, d / |coord t.plan.column i|, hi, ?_, ?_⟩
    · rw [ratioAt_of_basicRoom hc hspace, fin_div _ hsize.ne']
    · rw [hbound, fin_add, fin_div _ hsize.ne', fin_le_fin]
      exact div_le_div_of_nonneg_right (by linarith) hsize.le

/-- **What the relaxed test settles for.** -/
theorem harrisRatioTest_settles (hh : t.settings.harrisTolerance = fin h) (hnonneg : 0 ≤ h)
    (hpos : 0 < t.settings.columnTolerance) (hc : Numbers t.rowCount t.plan.column)
    (hw : t.harrisRatioTest = .ok w) : ∃ falls range bound, t.enteringFalls = .ok falls
      ∧ t.enteringRange falls = .ok range ∧ t.IsRelaxedBound falls range bound
      ∧ t.Settles w falls range bound := by
  obtain ⟨falls, hfalls, hw⟩ := Checked.bind_eq_ok.mp hw
  obtain ⟨range, hrange, hw⟩ := Checked.bind_eq_ok.mp hw
  obtain ⟨bound, hbound, hw⟩ := Checked.bind_eq_ok.mp hw
  obtain ⟨hcases, hrelaxed⟩ := relaxedBound_spec hh hpos hc hrange hbound
  have hrangeCases := way_of_nonneg (enteringRange_nonneg hrange)
  refine ⟨falls, range, bound, hfalls, hrange, hrelaxed, ?_⟩
  -- either the entering variable meets its own other bound first
  by_cases hle : range ≤ bound
  · rw [if_pos hle] at hw
    exact ⟨fun _ => of_conclude hw,
      fun hne => absurd (eq_of_le_of_le hrangeCases hcases hle hrelaxed.le_range) hne⟩
  rw [if_neg hle] at hw
  obtain ⟨scan, hscan, hw⟩ := Checked.bind_eq_ok.mp hw
  have hscanned : t.Scanned falls bound t.plan.column.length scan :=
    Checked.foldlM_zipIdx (P := fun n scan => t.Scanned falls bound n scan)
      (fun n x hx a b ha hb => ha.look hpos hc hx hb)
      ⟨fun p size ratio hp => (by cases hp), fun i hi => absurd hi (Nat.not_lt_zero i)⟩ hscan
  have hne : range ≠ bound := by
    rintro rfl
    exact hle ((le_iff_upTo hrangeCases hrangeCases).mpr (.refl range))
  refine ⟨fun heq => absurd heq hne, fun _ => ?_⟩
  -- or some row makes up the relaxed bound, and the second pass has something to choose from
  obtain ⟨i, d, hi, hratio, hin⟩ :=
    hrelaxed.exists_ratio hh hnonneg hpos hrangeCases hne
  obtain ⟨p, size, r, hchosen, -⟩ :=
    hscanned.largest i (by rw [hc.length]; exact hi.1) (fin d) hi hratio hin
  obtain ⟨-, hp, -, hr, hrle⟩ := hscanned.chosen p size r hchosen
  rw [hchosen] at hw
  obtain ⟨δ, hδ, rfl⟩ : ∃ δ, 0 ≤ δ ∧ r = fin δ := by
    rcases ratioAt_nonneg hr with rfl | hr
    · exfalso
      obtain rfl | ⟨e, rfl⟩ := hcases
      · obtain rfl | ⟨e, rfl⟩ := hrangeCases <;> exact hle rfl
      · exact Bool.false_ne_true hrle
    · exact hr
  refine ⟨p, δ, ?_, hp, hr, hrle, fun k s hk hs hsle => ?_⟩
  · have hlarger : Scalar.larger (fin δ : Extended K) 0 = fin δ := by
      rw [larger_fin, max_eq_left hδ]
    rw [of_conclude hw, hlarger]
    exact (silent_remarkIf t _ _).concluded _ _ _
  · obtain ⟨p', size', r', hchosen', hout⟩ :=
      hscanned.largest k (by rw [hc.length]; exact hk.1) s hk hs hsle
    cases hchosen.symm.trans hchosen'
    exact hout

end Passes

end Tableau

end BoundedSimplex
