/-
  BoundedSimplex.Proofs.TestsAgree — without a tolerance the relaxed test is the textbook test.

  The first pass then gives the rows the room that they have, so the step that it finds is the
  smallest ratio, and the rows that stop the move within it are those that attain it.  The two tests
  only differ in whom they take of these: the textbook test the first one, the relaxed test the one
  with the largest entry.

  Main results:
    * `Least.eq_of_relaxed` — the first pass finds the distance of the textbook test;
    * `tests_agree` — the outcomes side by side.
-/
import BoundedSimplex.Proofs.SafeStep

namespace BoundedSimplex.Tableau

open Extended

variable {K : Type} [Field K] [LinearOrder K] [IsStrictOrderedRing K] {t w : Tableau (Extended K)}
  {j : Nat} {falls : Bool} {range bound distance : Extended K} {leaving : Leaving}

/-! ## §1.  The first pass without a tolerance -/

/-- The first pass finds a least ratio, or the range of the entering variable. -/
theorem IsRelaxedBound.exact (hb : t.IsRelaxedBound falls range bound)
    (hh : t.settings.harrisTolerance = fin 0) (hpos : 0 < t.settings.columnTolerance) :
    (∀ i r, t.Considered i → t.ratioAt i (fin (coord t.plan.column i)) falls = .ok r → bound ≤ r)
      ∧ (bound = range ∨ ∃ i, t.Considered i
        ∧ t.ratioAt i (fin (coord t.plan.column i)) falls = .ok bound) := by
  -- No tolerance is added to the room of a row.
  have hadd {i : Nat} {space : Extended K}
      (hspace : t.basicRoom i (rises (fin (coord t.plan.column i)) falls) = .ok space) :
      space + t.settings.harrisTolerance = space := by
    rw [hh]
    obtain rfl | ⟨d, -, rfl⟩ := basicRoom_cases hspace
    · rfl
    · rw [fin_add, add_zero]
  refine ⟨fun i r hi hr => ?_, hb.attained.imp_right ?_⟩
  · obtain ⟨-, space, hspace, rfl⟩ := ratioAt_room hr
    have hle := hb.le_ratio i space hi hspace
    rwa [hadd hspace] at hle
  · rintro ⟨i, space, hi, hspace, rfl⟩
    rw [hadd hspace]
    exact ⟨i, hi, ratioAt_of_basicRoom (hi.ne_zero hpos) hspace⟩

/-- **The first pass finds the distance of the textbook test.** -/
theorem Least.eq_of_relaxed (hl : t.Least falls range leaving distance)
    (hb : t.IsRelaxedBound falls range bound) (hrange : t.enteringRange falls = .ok range)
    (hh : t.settings.harrisTolerance = fin 0) (hpos : 0 < t.settings.columnTolerance) :
    bound = distance := by
  obtain ⟨hleast, hattained⟩ := hb.exact hh hpos
  -- both are attained, and both are below whatever is attained
  have hway (a : Extended K) (h : a = range ∨ ∃ i, t.Considered i
      ∧ t.ratioAt i (fin (coord t.plan.column i)) falls = .ok a) : a = top ∨ ∃ d, a = fin d := by
    rcases h with rfl | ⟨i, -, hi⟩
    · exact way_of_nonneg (enteringRange_nonneg hrange)
    · exact way_of_nonneg (ratioAt_nonneg hi)
  have hdistance : distance = range ∨ ∃ i, t.Considered i
      ∧ t.ratioAt i (fin (coord t.plan.column i)) falls = .ok distance := by
    cases leaving with
    | entering => exact .inl (hl.entering.mp rfl).symm
    | basic p => exact .inr ⟨p, (hl.basic p rfl).1, (hl.basic p rfl).2.1⟩
  refine eq_of_le_of_le (hway bound hattained) (hway distance hdistance) ?_ ?_
  · rcases hdistance with rfl | ⟨i, hi, hratio⟩
    · exact hb.le_range
    · exact hleast i distance hi hratio
  · rcases hattained with rfl | ⟨i, hi, hratio⟩
    · exact hl.le_range
    · obtain ⟨r, hr, hle⟩ := hl.le_ratio i hi
      obtain rfl := Except.ok.inj (hr.symm.trans hratio)
      exact hle

/-! ## §2.  Side by side -/

/-- What the relaxed test settles for, by what the textbook test settles for: the same distance, and
    the entering variable or the row with the largest entry of those that attain it. -/
theorem Settles.of_least (hs : t.Settles w falls range distance)
    (hl : t.Least falls range leaving distance) :
    ∃ leaving', Silent (t.concluded leaving' distance falls) w
      ∧ (∀ q, leaving' = .basic q → t.Considered q) ∧ (leaving = .entering ↔ leaving' = .entering)
      ∧ ∀ p q, leaving = .basic p → leaving' = .basic q → p ≠ q →
        t.ratioAt q (fin (coord t.plan.column q)) falls = .ok distance
          ∧ |coord t.plan.column p| < |coord t.plan.column q| := by
  by_cases heq : range = distance
  · refine ⟨.entering, ?_, fun _ hq => (by cases hq), ⟨fun _ => rfl, fun _ => hl.entering.mpr heq⟩,
      fun _ _ _ hq => by cases hq⟩
    rw [hs.entering heq, heq]
    exact .refl _
  obtain ⟨q, d, hw, hq, hratio, hle, hout⟩ := hs.basic heq
  have hbasic : leaving ≠ .entering := fun he => heq (hl.entering.mp he)
  -- the row stops the move within the least ratio, so it attains that
  obtain rfl : distance = fin d := by
    obtain ⟨r, hr, hle'⟩ := hl.le_ratio q hq
    obtain rfl := Except.ok.inj (hratio.symm.trans hr)
    cases leaving with
    | entering => exact absurd rfl hbasic
    | basic p =>
      obtain ⟨-, hp, -⟩ := hl.basic p rfl
      exact eq_of_le_of_le (way_of_nonneg (ratioAt_nonneg hp)) (.inr ⟨d, rfl⟩) hle' hle
  refine ⟨.basic q, hw, fun _ hq' => (by cases hq'; exact hq),
    ⟨fun he => absurd he hbasic, fun he => by cases he⟩, fun p q' hp hq' hne => ?_⟩
  cases hq'
  obtain ⟨hcon, hratio', hfirst⟩ := hl.basic p hp
  refine ⟨hratio, ?_⟩
  rcases hout p (fin d) hcon hratio' hle with hlt | ⟨-, hqp⟩
  · exact hlt
  · exact absurd hratio (hfirst q (lt_of_le_of_ne hqp hne.symm) hq)

/-- **The relaxed test without a tolerance** comes to the distance and the direction of the textbook
    test, and takes the entering variable whenever that does.  Where the two take different rows,
    both rows attain the least ratio, and that of the relaxed test has the larger entry. -/
theorem tests_agree {solved : Prop} (ht : t.Shaped solved t.settings) (hb : t.hasBasis = true)
    (hj : t.Primed j) {c : Extended K} (hcost : t.pricing.costs[j]? = some c)
    (hh : t.settings.harrisTolerance = fin 0) (hpos : 0 < t.settings.columnTolerance) :
    ∃ falls range distance leaving leaving' u w, t.enteringFalls = .ok falls
      ∧ t.enteringRange falls = .ok range ∧ t.Least falls range leaving distance
      ∧ t.standardRatioTest = .ok u ∧ t.Outcome u leaving distance falls
      ∧ { u with plan := t.plan } = t
      ∧ t.harrisRatioTest = .ok w ∧ t.Outcome w leaving' distance falls
      ∧ (leaving = .entering ↔ leaving' = .entering)
      ∧ ∀ p q, leaving = .basic p → leaving' = .basic q → p ≠ q →
        t.ratioAt p (fin (coord t.plan.column p)) falls = .ok distance
          ∧ t.ratioAt q (fin (coord t.plan.column q)) falls = .ok distance
          ∧ |coord t.plan.column p| < |coord t.plan.column q| := by
  have htestable := ht.testable hb (passesZeros_of_pos hpos) hj.numbers.length hj.entering
    (Checked.exists_bind_of_ok (enteringIndex_eq_ok.mpr hj.entering)
      (Checked.exists_bind_of_ok (Checked.getAt_eq_ok.mpr hcost) ⟨_, rfl⟩))
  obtain ⟨u, hu⟩ := htestable.exists_standard
  obtain ⟨w, hw⟩ := htestable.exists_harris
  obtain ⟨falls, range, leaving, distance, hfalls, hrange, rfl, hleads⟩ :=
    standardRatioTest_leads hj.numbers hu
  obtain ⟨falls', range', bound, hfalls', hrange', hbound, hsettles⟩ :=
    harrisRatioTest_settles hh le_rfl hpos hj.numbers hw
  obtain rfl := Except.ok.inj (hfalls'.symm.trans hfalls)
  obtain rfl := Except.ok.inj (hrange'.symm.trans hrange)
  have hleast := hleads.least hpos hj.numbers hrange
  -- The bound of the first pass is the least ratio, so both distances are the same.
  obtain rfl := hleast.eq_of_relaxed hbound hrange hh hpos
  obtain ⟨leaving', hsilent, hrow, hentering, hrows⟩ := hsettles.of_least hleast
  have hlen := hj.numbers.length
  have houtcome := outcome_of_concluded (w := t.concluded leaving bound falls')
    (fun p hp => hlen.symm ▸ (hleast.basic p hp).1.1) (.refl _)
  have houtcome' := outcome_of_concluded (fun q hq => hlen.symm ▸ (hrow q hq).1) hsilent
  refine ⟨_, _, _, leaving, leaving', _, w, hfalls, hrange, hleast, hu, houtcome, rfl,
    hw, houtcome', hentering, fun p q hp hq hne => ?_⟩
  obtain ⟨hratio, hlarger⟩ := hrows p q hp hq hne
  exact ⟨(hleast.basic p hp).2.1, hratio, hlarger⟩

/-- Two rows that stop `x` at 4: the tests take different ones, by the sizes of their entries. -/
theorem tests_agree_on_tie : ∃ t w w' : Tableau (Extended ℚ), t.standardRatioTest = .ok w
    ∧ t.harrisRatioTest = .ok w' ∧ w.plan.leaving = some (.basic 0)
    ∧ w'.plan.leaving = some (.basic 1)
    ∧ w.plan.distance = fin 4 ∧ w'.plan.distance = fin 4
    ∧ w'.plan.enteringFalls = w.plan.enteringFalls
    ∧ |coord t.plan.column 0| < |coord t.plan.column 1| := by
  obtain ⟨t, w, w', hsized, hsteady, hprimed, -, hw, hw', -, hh, hpos, hcost, -, -, -, hleaving,
    hdistance, -, -, hleaving'⟩ := exists_tie
  obtain ⟨falls, range, distance, p, q, u, v, -, -, -, hstandard, houtcome, -, hharris,
    houtcome', -, hrows⟩ := tests_agree hsized.shaped hsteady.hasBasis hprimed hcost hh hpos
  obtain rfl := Except.ok.inj (hstandard.symm.trans hw)
  obtain rfl := Except.ok.inj (hharris.symm.trans hw')
  obtain rfl : p = .basic 0 := Option.some.inj (houtcome.leaving.symm.trans hleaving)
  obtain rfl : q = .basic 1 := Option.some.inj (houtcome'.leaving.symm.trans hleaving')
  obtain rfl : distance = fin 4 := houtcome.distance.symm.trans hdistance
  obtain ⟨-, -, hlarger⟩ := hrows 0 1 rfl rfl Nat.zero_ne_one
  exact ⟨t, u, v, hw, hw', hleaving, hleaving', hdistance, houtcome'.distance,
    houtcome'.enteringFalls.trans houtcome.enteringFalls.symm, hlarger⟩

end BoundedSimplex.Tableau
