import Mathlib.Tactic

/-!
# Queues with a history

A queue that several parties use: some put elements in, others take the first one out. `Fifo`
keeps the elements that were taken beside those that wait, so that what became of an element can
be said of a run.

* `history_run` — nothing is lost, doubled or moved: the elements that were taken, and behind them
  those that wait, are the elements that were put in, in this order;
* `waiting_delivered` — what waits now is taken by as many takes as there are elements, whatever
  is put in meanwhile.
-/

namespace Guthi

/-- What has been taken out, and what is waiting to be. -/
structure Fifo (α : Type*) where
  taken : List α := []
  waiting : List α := []

namespace Fifo

variable {α : Type*}

/-- Some elements are put in (also none), or the first one is taken out if there is one. -/
inductive Op (α : Type*) where
  | put (xs : List α)
  | take

/-- What an operation puts in. -/
def Op.elements : Op α → List α
  | .put xs => xs
  | .take => []

/-- The operation takes an element out, if there is one. -/
def Op.isTake : Op α → Bool
  | .put _ => false
  | .take => true

/-- New elements wait at the end, and the first one is taken. -/
def step (q : Fifo α) : Op α → Fifo α
  | .put xs => { q with waiting := q.waiting ++ xs }
  | .take =>
    match q.waiting with
    | [] => q
    | x :: rest => { taken := q.taken ++ [x], waiting := rest }

/-- Operations one after the other. -/
def run (q : Fifo α) (ops : List (Op α)) : Fifo α := ops.foldl step q

/-- All that was ever put in. -/
def history (q : Fifo α) : List α := q.taken ++ q.waiting

variable (q : Fifo α)

/-- The order of all elements is settled when they are put in: a take moves none. -/
theorem history_step (op : Op α) : (q.step op).history = q.history ++ op.elements := by
  unfold history
  cases op with
  | put xs => simp [step, Op.elements]
  | take =>
    unfold step
    cases hwaiting : q.waiting with
    | nil => simp [hwaiting, Op.elements]
    | cons x rest => simp [Op.elements]

/-- All that was put in is there in this order, taken or waiting. -/
theorem history_run (ops : List (Op α)) :
    (q.run ops).history = q.history ++ ops.flatMap Op.elements := by
  induction ops generalizing q with
  | nil => simp [run]
  | cons op ops ih =>
    rw [run, List.foldl_cons, ← run, ih, history_step, List.flatMap_cons, List.append_assoc]

/-- A take that finds an element takes one. -/
theorem length_taken_step (op : Op α) :
    min q.history.length (q.taken.length + if op.isTake then 1 else 0) ≤
      (q.step op).taken.length := by
  cases op with
  | put xs =>
    simp only [Op.isTake, step]
    exact Nat.min_le_right _ _
  | take =>
    -- a take from an empty queue takes none, and then there is nothing to be taken
    unfold step history
    cases hwaiting : q.waiting with
    | nil => simp
    | cons x rest => simp [Op.isTake]

/-- After a run, as many elements are out as there were takes, or all that had been put in before.
-/
theorem length_taken_run (ops : List (Op α)) :
    min q.history.length (q.taken.length + ops.countP Op.isTake) ≤ (q.run ops).taken.length := by
  induction ops generalizing q with
  | nil => exact Nat.min_le_right _ _
  | cons op ops ih =>
    have hrest := ih (q.step op)
    have hstep := q.length_taken_step op
    rw [history_step, List.length_append] at hrest
    rw [List.countP_cons]
    show _ ≤ ((q.step op).run ops).taken.length
    omega

/-- What was put in before has been taken out after as many takes as there were elements
waiting. -/
theorem waiting_delivered {ops : List (Op α)} (h : q.waiting.length ≤ ops.countP Op.isTake) :
    q.history <+: (q.run ops).taken := by
  -- both are parts of one history, from its beginning, so the shorter is a part of the longer
  have hold : q.history <+: (q.run ops).history := by
    rw [history_run]
    exact List.prefix_append _ _
  have hnew : (q.run ops).taken <+: (q.run ops).history := List.prefix_append _ _
  have hlen := q.length_taken_run ops
  have hall : q.history.length = q.taken.length + q.waiting.length := List.length_append
  exact List.prefix_of_prefix_length_le hold hnew (by omega)

end Fifo

end Guthi
