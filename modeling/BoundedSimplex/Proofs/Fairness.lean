/-
  BoundedSimplex.Proofs.Fairness — the rule that goes around starves no candidate.

  The rule remembers its last choice and takes the first candidate above it, or starts over at the
  first one of all.  A candidate that is offered every time comes closer with every choice: either
  the choices climb towards it, or they are past it and have to run out above before they start over
  below.  That way around the circle is the measure, and it does not matter what else is offered
  from call to call.

  Main results:
    * `Next.wait_lt` — a choice that is not `j` brings the turn of `j` closer;
    * `mem_turns` — so `j` has its turn among as many calls as there are indices;
    * `turns_replicate` — among the same candidates the turns go around in order;
    * `cyclic_starves_none` — the calls of the rule.
-/
import BoundedSimplex.Proofs.Tableau.Progress
import Mathlib.Data.List.Rotate

namespace BoundedSimplex.EnteringRule

/-! ## §1.  Calls one after the other -/

section Calls

variable {α : Type} [Scalar α]

/-- What each call of a list of calls chose, and the rule with what it remembers afterwards.  A call
    is given by its candidates and costs. -/
def chooseAll (rule : EnteringRule) :
    List (List Nat × List α) → Checked (List (Option Nat) × EnteringRule)
  | [] => return ([], rule)
  | (candidates, costs) :: calls => do
    let (chosen, next) ← rule.choose candidates costs
    let (later, final) ← next.chooseAll calls
    return (chosen :: later, final)

/-- The choices of the rule that goes around, from what it remembers and what it is offered. -/
def turns (last : Option Nat) : List (List Nat) → List (Option Nat)
  | [] => []
  | candidates :: offers =>
    nextAfter last candidates :: turns (nextAfter last candidates) offers

/-- Every call has an outcome, and the costs do not matter. -/
theorem chooseAll_cyclic (last : Option Nat) (calls : List (List Nat × List α)) :
    ∃ next, (cyclic last).chooseAll calls = .ok (turns last (calls.map Prod.fst), next) := by
  induction calls generalizing last with
  | nil => exact ⟨_, rfl⟩
  | cons call calls ih =>
    obtain ⟨next, hnext⟩ := ih (nextAfter last call.1)
    refine ⟨next, ?_⟩
    show (do
      let (later, final) ← (cyclic (nextAfter last call.1)).chooseAll calls
      return (nextAfter last call.1 :: later, final) : Checked _) = _
    rw [hnext]
    rfl

end Calls

/-- The first so many calls do not depend on the others. -/
theorem take_turns (n : Nat) (last : Option Nat) (offers : List (List Nat)) :
    (turns last offers).take n = turns last (offers.take n) := by
  induction offers generalizing n last with
  | nil => simp [turns]
  | cons candidates offers ih =>
    cases n with
    | zero => rfl
    | succ n => simp [turns, ih]

/-- The later calls start from what the earlier ones left behind. -/
theorem exists_drop_turns (n : Nat) (last : Option Nat) (offers : List (List Nat)) :
    ∃ later, (turns last offers).drop n = turns later (offers.drop n) := by
  induction offers generalizing n last with
  | nil => exact ⟨last, by simp [turns]⟩
  | cons candidates offers ih =>
    cases n with
    | zero => exact ⟨last, rfl⟩
    | succ n => exact ih n (nextAfter last candidates)

/-! ## §2.  The next candidate -/

variable {last : Option Nat} {candidates : List Nat} {offers : List (List Nat)} {n j p : Nat}

/-- There is a next candidate unless there is none at all. -/
theorem nextAfter_eq_none_iff : nextAfter last candidates = none ↔ candidates = [] := by
  constructor
  · intro h
    exact List.head?_eq_none_iff.mp (Option.or_eq_none_iff.mp h).2
  · rintro rfl
    cases last <;> rfl

/-- `p` comes next among the candidates: it is the least one above the last choice, or there is none
    above and it is the least one of all. -/
inductive Next (last : Option Nat) (candidates : List Nat) (p : Nat) : Prop
  | onward {l : Nat} (from_last : last = some l) (above : l < p)
      (least : ∀ q ∈ candidates, l < q → p ≤ q)
  | around (passed : ∀ l, last = some l → ∀ q ∈ candidates, q ≤ l)
      (least : ∀ q ∈ candidates, p ≤ q)

/-- **What comes next** among increasing candidates. -/
theorem next_of_nextAfter (hs : candidates.Pairwise (· < ·))
    (h : nextAfter last candidates = some p) : Next last candidates p := by
  rcases Option.or_eq_some_iff.mp h with h | ⟨hnone, hhead⟩
  · obtain ⟨l, rfl, hfind⟩ := Option.bind_eq_some_iff.mp h
    obtain ⟨habove, before, after, rfl, hbefore⟩ := List.find?_eq_some_iff_append.mp hfind
    refine .onward rfl (of_decide_eq_true habove) ?_
    intro q hq hlq
    -- a candidate in front of the first one above would have been found
    rcases List.mem_append.mp hq with hq | hq
    · have := hbefore q hq
      simp at this
      omega
    · rcases List.mem_cons.mp hq with rfl | hq
      · exact Nat.le_refl q
      · have := (List.pairwise_cons.mp (List.pairwise_append.mp hs).2.1).1 q hq
        omega
  · refine .around ?_ ?_
    · rintro l rfl q hq
      have := List.find?_eq_none.mp hnone q hq
      simp at this
      exact this
    · intro q hq
      obtain ⟨rest, rfl⟩ := List.head?_eq_some_iff.mp hhead
      rcases List.mem_cons.mp hq with rfl | hq
      · exact Nat.le_refl q
      · have := (List.pairwise_cons.mp hs).1 q hq
        omega

/-! ## §3.  Waiting for a turn -/

/-- The number of calls until `j` has its turn at the latest, among indices below `n`: the way up to
    `j`, or the way up to the end and from the start up to `j`. -/
def wait (n : Nat) (last : Option Nat) (j : Nat) : Nat :=
  match last with
  | none => j + 1
  | some l => if l < j then j - l else n - (l + 1) + (j + 1)

/-- The candidate that was not taken last is at least one call away. -/
theorem wait_pos (n : Nat) (last : Option Nat) (j : Nat) : 0 < wait n last j := by
  unfold wait
  split
  · omega
  · split <;> omega

/-- Nobody waits for longer than one round. -/
theorem wait_le (last : Option Nat) (hj : j < n) : wait n last j ≤ n := by
  unfold wait
  split
  · omega
  · split <;> omega

/-- **A choice that is not `j` brings the turn of `j` closer.** -/
theorem Next.wait_lt (h : Next last candidates p) (hp : p < n) (hj : j ∈ candidates) (hne : p ≠ j) :
    wait n (some p) j < wait n last j := by
  cases h with
  | @onward l hlast above least =>
    subst hlast
    unfold wait
    dsimp only
    by_cases hlj : l < j
    · -- still below: the choice lies between the last one and `j`
      have := least j hj hlj
      rw [if_pos (by omega), if_pos hlj]
      omega
    · -- past it: the choice uses up a place above
      rw [if_neg (by omega), if_neg hlj]
      omega
  | around passed least =>
    have hpj := least j hj
    have hstart : wait n (some p) j < j + 1 := by
      unfold wait
      dsimp only
      rw [if_pos (by omega)]
      omega
    cases last with
    | none => exact hstart
    | some l =>
      have := passed l rfl j hj
      unfold wait at hstart ⊢
      dsimp only at hstart ⊢
      rw [if_neg (show ¬l < j by omega)]
      omega

/-- **Who is offered every time has a turn** before the wait is over. -/
theorem mem_turns (hs : ∀ candidates ∈ offers, candidates.Pairwise (· < ·)
    ∧ ∀ i ∈ candidates, i < n)
    (hj : ∀ candidates ∈ offers, j ∈ candidates) (hwait : wait n last j ≤ offers.length) :
    some j ∈ turns last offers := by
  induction offers generalizing last with
  | nil =>
    -- No calls are left, but the wait is never zero.
    have := wait_pos n last j
    simp at hwait
    omega
  | cons candidates offers ih =>
    have hmem := hj candidates List.mem_cons_self
    obtain ⟨hsorted, hlt⟩ := hs candidates List.mem_cons_self
    unfold turns
    cases hp : nextAfter last candidates with
    | none =>
      rw [nextAfter_eq_none_iff.mp hp] at hmem
      simp at hmem
    | some p =>
      by_cases hpj : p = j
      · subst hpj
        exact List.mem_cons_self
      -- Some other candidate is taken, and that brings the turn of this one nearer.
      · have hcloser :=
          (next_of_nextAfter hsorted hp).wait_lt (hlt p (mem_of_nextAfter hp)) hmem hpj
        rw [List.length_cons] at hwait
        apply List.mem_cons_of_mem
        apply ih (fun c hc => hs c (List.mem_cons_of_mem _ hc))
          (fun c hc => hj c (List.mem_cons_of_mem _ hc))
        omega

/-! ## §4.  The same candidates every time -/

/-- After a candidate comes the one at the next place, around the end. -/
theorem nextAfter_getElem (hs : candidates.Pairwise (· < ·)) {i : Nat}
    (hi : i < candidates.length) :
    nextAfter (some candidates[i]) candidates = candidates[(i + 1) % candidates.length]? := by
  have hmono := List.pairwise_iff_getElem.mp hs
  cases hp : nextAfter (some candidates[i]) candidates with
  | none =>
    rw [nextAfter_eq_none_iff.mp hp] at hi
    simp at hi
  | some p =>
    obtain ⟨k, hk, rfl⟩ := List.mem_iff_getElem.mp (mem_of_nextAfter hp)
    suffices hplace : (i + 1) % candidates.length = k by
      rw [hplace, List.getElem?_eq_getElem hk]
    cases next_of_nextAfter hs hp with
    | @onward l hlast above least =>
      cases hlast
      have hik : i < k := by
        by_contra hle
        rcases Nat.lt_or_eq_of_le (Nat.le_of_not_lt hle) with hki | rfl
        · have := hmono k i hk hi hki
          omega
        · omega
      have hnext : i + 1 < candidates.length := by omega
      -- nothing lies between two neighbours
      have hki : ¬i + 1 < k := by
        intro hlt
        have := least _ (List.getElem_mem hnext) (hmono i (i + 1) hi hnext (Nat.lt_succ_self i))
        have := hmono (i + 1) k hnext hk hlt
        omega
      rw [Nat.mod_eq_of_lt hnext]
      omega
    | around passed least =>
      have hend : i + 1 = candidates.length := by
        by_contra hne
        have hnext : i + 1 < candidates.length := by omega
        have := passed _ rfl _ (List.getElem_mem hnext)
        have := hmono i (i + 1) hi hnext (Nat.lt_succ_self i)
        omega
      have hfirst : k = 0 := by
        by_contra hne
        have := least _ (List.getElem_mem (show 0 < candidates.length by omega))
        have := hmono 0 k (by omega) hk (by omega)
        omega
      rw [hend, hfirst, Nat.mod_self]

/-- The places of the choices, from the place of the first one on. -/
theorem getElem?_turns_replicate (hs : candidates.Pairwise (· < ·)) {r : Nat}
    (hr : r < candidates.length) (hfirst : nextAfter last candidates = candidates[r]?) (k t : Nat)
    (ht : t < k) :
    (turns last (List.replicate k candidates))[t]?
      = some candidates[(r + t) % candidates.length]? := by
  induction k generalizing last r t with
  | zero => omega
  | succ k ih =>
    rw [List.replicate_succ]
    unfold turns
    cases t with
    | zero => rw [List.getElem?_cons_zero, hfirst, Nat.add_zero, Nat.mod_eq_of_lt hr]
    | succ t =>
      have hsecond : nextAfter (nextAfter last candidates) candidates
          = candidates[(r + 1) % candidates.length]? := by
        rw [hfirst, List.getElem?_eq_getElem hr, nextAfter_getElem hs hr]
      rw [List.getElem?_cons_succ, ih (Nat.mod_lt _ (by omega)) hsecond t (by omega),
        Nat.mod_add_mod, show r + 1 + t = r + (t + 1) by omega]

/-- **Among the same candidates the turns go around in order.** -/
theorem turns_replicate (hs : candidates.Pairwise (· < ·)) (last : Option Nat) :
    ∃ r, turns last (List.replicate candidates.length candidates)
      = (candidates.rotate r).map some := by
  cases hp : nextAfter last candidates with
  | none =>
    rw [nextAfter_eq_none_iff.mp hp]
    exact ⟨0, rfl⟩
  | some p =>
    obtain ⟨r, hr, rfl⟩ := List.mem_iff_getElem.mp (mem_of_nextAfter hp)
    have hfirst : nextAfter last candidates = candidates[r]? := by
      rw [hp, List.getElem?_eq_getElem hr]
    -- One answer per call.
    have hlen (k : Nat) (last : Option Nat) :
        (turns last (List.replicate k candidates)).length = k := by
      induction k generalizing last with
      | zero => rfl
      | succ k ih => simp [List.replicate_succ, turns, ih]
    refine ⟨r, List.ext_getElem? ?_⟩
    intro t
    by_cases ht : t < candidates.length
    · have hplace : (r + t) % candidates.length < candidates.length := Nat.mod_lt _ (by omega)
      rw [getElem?_turns_replicate hs hr hfirst _ t ht, List.getElem?_map,
        List.getElem?_rotate ht, Nat.add_comm t r, List.getElem?_eq_getElem hplace, Option.map_some]
    · rw [List.getElem?_eq_none (by rw [hlen]; omega), List.getElem?_eq_none (by simp; omega)]

/-- Going around once meets every candidate once. -/
theorem count_rotate (hs : candidates.Pairwise (· < ·)) (hj : j ∈ candidates) (r : Nat) :
    ((candidates.rotate r).map some).count (some j) = 1 := by
  have hnodup : candidates.Nodup := hs.imp Nat.ne_of_lt
  rw [List.count_map_of_injective _ _ (Option.some_injective _),
    (candidates.rotate_perm r).count_eq, List.count_eq_one_of_mem hnodup hj]

/-! ## §5.  The calls of the rule -/

variable {α : Type} [Scalar α]

omit [Scalar α] in
/-- Each turn is given to somebody who is offered, unless nobody is. -/
theorem forall₂_turns (last : Option Nat) (calls : List (List Nat × List α)) :
    List.Forall₂ (fun call chosen => (chosen = none ↔ call.1 = [])
        ∧ ∀ j, chosen = some j → j ∈ call.1)
      calls (turns last (calls.map Prod.fst)) := by
  induction calls generalizing last with
  | nil => exact .nil
  | cons call calls ih => exact .cons ⟨nextAfter_eq_none_iff, fun _ => mem_of_nextAfter⟩ (ih _)

/-- **The rule that goes around starves no candidate.**  The candidates of every call are increasing
    indices below `n`, and may be others from call to call.  Whatever the rule remembers at first,
    every call chooses one of its candidates, and none only if there is none; an index that is among
    the candidates of `n` calls in a row is chosen by one of them; and as many calls in a row as
    there are candidates, with the same ones each time, choose each of them once, in increasing
    order around the end. -/
theorem cyclic_starves_none (n : Nat) (last : Option Nat) (calls : List (List Nat × List α))
    (hcalls : ∀ call ∈ calls, call.1.Pairwise (· < ·) ∧ ∀ i ∈ call.1, i < n) :
    ∃ chosen next, (cyclic last).chooseAll calls = .ok (chosen, next)
      ∧ List.Forall₂ (fun call pick => (pick = none ↔ call.1 = [])
          ∧ ∀ j, pick = some j → j ∈ call.1)
          calls chosen
      ∧ (∀ j < n, ∀ start, start + n ≤ calls.length →
          (∀ call ∈ (calls.drop start).take n, j ∈ call.1) → some j ∈ (chosen.drop start).take n)
      ∧ ∀ candidates start, start + candidates.length ≤ calls.length →
          (∀ call ∈ (calls.drop start).take candidates.length, call.1 = candidates) →
            (∃ r, (chosen.drop start).take candidates.length = (candidates.rotate r).map some)
              ∧ ∀ j ∈ candidates,
                  ((chosen.drop start).take candidates.length).count (some j) = 1 := by
  obtain ⟨next, hrun⟩ := chooseAll_cyclic last calls
  -- a stretch of the calls is a run from what was remembered when it began
  have hstretch (start len : Nat) : ∃ last',
      ((turns last (calls.map Prod.fst)).drop start).take len
        = turns last' (((calls.drop start).take len).map Prod.fst) := by
    obtain ⟨last', h⟩ := exists_drop_turns start last (calls.map Prod.fst)
    refine ⟨last', ?_⟩
    rw [h, take_turns, ← List.map_drop, ← List.map_take]
  have hwithin (start len : Nat) : ∀ call ∈ (calls.drop start).take len,
      call.1.Pairwise (· < ·) ∧ ∀ i ∈ call.1, i < n :=
    fun call h => hcalls call (List.mem_of_mem_drop (List.mem_of_mem_take h))
  refine ⟨_, next, hrun, forall₂_turns last calls, ?_, ?_⟩
  · intro j hj start hlen hall
    obtain ⟨last', h⟩ := hstretch start n
    rw [h]
    apply mem_turns (n := n)
    · intro candidates hc
      obtain ⟨call, hcall, rfl⟩ := List.mem_map.mp hc
      exact hwithin start n call hcall
    · intro candidates hc
      obtain ⟨call, hcall, rfl⟩ := List.mem_map.mp hc
      exact hall call hcall
    · have := wait_le last' hj
      rw [List.length_map, List.length_take, List.length_drop]
      omega
  · intro candidates start hlen hall
    obtain ⟨last', h⟩ := hstretch start candidates.length
    have hsame : ((calls.drop start).take candidates.length).map Prod.fst
        = List.replicate candidates.length candidates := by
      refine List.eq_replicate_iff.mpr ⟨by simp; omega, ?_⟩
      intro candidates' hc
      obtain ⟨call, hcall, rfl⟩ := List.mem_map.mp hc
      exact hall call hcall
    have hsorted : candidates.Pairwise (· < ·) := by
      by_cases hnil : candidates.length = 0
      · rw [List.length_eq_zero_iff.mp hnil]
        exact .nil
      · have hmem : candidates ∈ ((calls.drop start).take candidates.length).map Prod.fst := by
          rw [hsame]
          exact List.mem_replicate.mpr ⟨hnil, rfl⟩
        obtain ⟨call, hcall, hfst⟩ := List.mem_map.mp hmem
        rw [← hfst]
        exact (hwithin start _ call hcall).1
    obtain ⟨r, hr⟩ := turns_replicate hsorted last'
    rw [h, hsame, hr]
    exact ⟨⟨r, rfl⟩, fun j hj => count_rotate hsorted hj r⟩

/-- The last choice was `1`, so `1` comes last of all, with the third call of three: the first call
    goes on to `2`, the second one finds nothing above it and starts over at `0`. -/
theorem starved_for_one_round : ∃ chosen next,
    (cyclic (some 1)).chooseAll [([1, 2], []), ([0, 1], []), ([0, 1, 2], ([] : List Float))]
        = .ok (chosen, next)
      ∧ chosen = [some 2, some 0, some 1] ∧ some 1 ∈ (chosen.drop 0).take 3 := by
  obtain ⟨chosen, next, hrun, -, hturn, -⟩ := cyclic_starves_none 3 (some 1)
    [([1, 2], []), ([0, 1], []), ([0, 1, 2], ([] : List Float))] (by decide)
  have hmem := hturn 1 (by decide) 0 (by decide) (by decide)
  refine ⟨chosen, next, hrun, ?_, hmem⟩
  cases hrun
  rfl

end BoundedSimplex.EnteringRule
