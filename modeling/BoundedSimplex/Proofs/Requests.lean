/-
  BoundedSimplex.Proofs.Requests — everything that a caller can ask of a tableau, as data.

  A caller performs operations, registers watchers, and has events counted.  A conversation is a
  list of requests; what comes back is a list of replies, as long as no contract is broken.

  Main results:
    * `Alike.serve` — a request to two tableaux that are alike;
    * `run_eq_converse` — a conversation of operations is a run.
-/
import BoundedSimplex.Proofs.Tableau.AlikePerform

namespace BoundedSimplex

/-- What a caller can ask for. -/
inductive Request (α : Type) where
  | perform (op : Operation α)
  | watchAll (name : Watcher)
  | watchVariable (name : Watcher) (v : Nat)
  | unwatchVariable (name : Watcher) (v : Nat)
  | watchDimensions (name : Watcher)
  | startCounting

variable {α : Type} [Scalar α]

/-- The numbers that a request brings along to solve with are in a set. -/
def Request.Over (N : NumberSet α) : Request α → Prop
  | .perform op => op.Over N
  | _ => True

namespace Tableau

variable {L : Likeness α} {t u : Tableau α}

/-- Answers a request. -/
def serve (t : Tableau α) : Request α → Checked (Reply α × Tableau α)
  | .perform op => t.perform op
  | .watchAll name => return (.done, t.watchAll name)
  | .watchVariable name v => return (.done, t.watchVariable name v)
  | .unwatchVariable name v => return (.done, t.unwatchVariable name v)
  | .watchDimensions name => return (.done, t.watchDimensions name)
  | .startCounting => return (.done, t.startCounting)

/-- Answers requests one after the other. -/
def converse (t : Tableau α) : List (Request α) → Checked (List (Reply α) × Tableau α)
  | [] => return ([], t)
  | r :: rs => do
    let (reply, t) ← t.serve r
    let (replies, t) ← t.converse rs
    return (reply :: replies, t)

/-- The first reply, then those of the rest. -/
theorem converse_cons {r : Request α} {rs : List (Request α)} {a : Reply α × Tableau α}
    {b : List (Reply α) × Tableau α} (h : t.serve r = .ok a) (hs : a.2.converse rs = .ok b) :
    t.converse (r :: rs) = .ok (a.1 :: b.1, b.2) := by
  rw [converse, h]
  show (a.2.converse rs >>= _) = _
  rw [hs]
  rfl

theorem run_eq_converse (t : Tableau α) (ops : List (Operation α)) :
    t.run ops = (t.converse (ops.map .perform)).map (·.2) := by
  induction ops generalizing t with
  | nil => rfl
  | cons op ops ih =>
    rw [run, List.map_cons, converse]
    show (t.perform op >>= fun r => r.2.run ops) = (t.perform op >>= _).map _
    cases t.perform op with
    | error e => rfl
    | ok r =>
      show r.2.run ops = (r.2.converse (ops.map .perform) >>= _).map _
      rw [ih]
      cases r.2.converse (ops.map .perform) with
      | error e => rfl
      | ok s => rfl

/-- The conversation behind a run. -/
theorem converse_of_run {ops : List (Operation α)} (h : t.run ops = .ok u) :
    ∃ replies, t.converse (ops.map .perform) = .ok (replies, u) := by
  rw [run_eq_converse] at h
  cases hc : t.converse (ops.map .perform) with
  | error e =>
    rw [hc] at h
    cases h
  | ok r =>
    rw [hc] at h
    cases h
    exact ⟨r.1, rfl⟩

/-- **A request to two tableaux that are alike.** -/
theorem Alike.serve (h : Alike L t u) (r : Request α)
    (hr : ∀ op, r = .perform op → Agree (AlikeWith L) (t.perform op) (u.perform op)) :
    Agree (AlikeWith L) (t.serve r) (u.serve r) := by
  cases r with
  | perform op => exact hr op rfl
  | startCounting =>
    obtain ⟨f, j, s, rfl, hf, hs, hj⟩ := h.cases
    exact .ok ⟨rfl, rfl, hf, L.restart, hj⟩
  | watchAll name =>
    obtain ⟨f, j, s, rfl, hf, hs, hj⟩ := h.cases
    exact .ok ⟨rfl, rfl, hf, hs, hj⟩
  | watchVariable name v =>
    obtain ⟨f, j, s, rfl, hf, hs, hj⟩ := h.cases
    exact .ok ⟨rfl, rfl, hf, hs, hj⟩
  | unwatchVariable name v =>
    obtain ⟨f, j, s, rfl, hf, hs, hj⟩ := h.cases
    exact .ok ⟨rfl, rfl, hf, hs, hj⟩
  | watchDimensions name =>
    obtain ⟨f, j, s, rfl, hf, hs, hj⟩ := h.cases
    exact .ok ⟨rfl, rfl, hf, hs, hj⟩

end Tableau

end BoundedSimplex
