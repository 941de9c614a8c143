import Guthi.Lib.Exclusive
import Guthi.Lib.Run

/-!
# Guthi — the semaphore of the shared memory

`Semaphore` of `shared_memory/semaphore.hpp` on Linux, a System V semaphore that all processes
get under one key, beside the kernel's value. The processes are arbitrary and their steps
interleave freely; `semget` and `semctl(SETVAL)` of the constructor are two steps.

* `lock`, `unlock` — the methods, over `semop` as the kernel performs it;
* `held_step` — the value plus the processes inside never exceed one, as long as no
  constructor sets the value while a process is inside and no process takes the error of
  `lock(false)` for permission;
* `mutualExclusion_of_sound` — so at most one process is inside.
-/

namespace Guthi

/-- How `semop` ends. `waiting` is a caller that is put to sleep. -/
inductive SemopResult where
  | done (value : Nat)
  | waiting
  | again
  | invalid
deriving DecidableEq, Repr

/-- `semop(id, &buffer, 1)` with `sem_op` being `-1`, on a semaphore of the given value. `valid`
says whether `id` names a semaphore set. -/
def semopDecrement (valid noWait : Bool) (value : Nat) : SemopResult :=
  if !valid then .invalid
  else if 0 < value then .done (value - 1)
  else if noWait then .again
  else .waiting

/-- `semop(id, &buffer, 1)` with `sem_op` being `1`. -/
def semopIncrement (valid : Bool) (value : Nat) : SemopResult :=
  if !valid then .invalid else .done (value + 1)

namespace Semaphore

/-- How `lock` ends: with the decrement done, asleep, or with an error code. -/
inductive LockResult where
  | acquired (value : Nat)
  | waiting
  | returned (code : Int)
deriving DecidableEq, Repr

def lock (valid blockCall : Bool) (value : Nat) : LockResult :=
  match semopDecrement valid (!blockCall) value with
  | .done value' => .acquired value'
  | .waiting => .waiting
  -- an invalid semaphore is an error, but for a non-blocking caller it is reported as success
  | .invalid => if !blockCall then .returned 0 else .returned (-1)
  | .again => .returned (-1)

/-- `unlock()`: the value afterwards. -/
def unlock (valid : Bool) (value : Nat) : Nat :=
  match semopIncrement valid value with
  | .done value' => value'
  | _ => value

/-! ## Processes -/

inductive Handle where
  | absent
  | created
  | ready
  | failed
deriving DecidableEq, Repr

/-- The semaphore and the processes. `inside` counts the calls of `lock` that let the process
proceed and have no `unlock` yet. The kernel creates the semaphore with value zero. -/
structure System (π : Type*) where
  value : Nat := 0
  handle : π → Handle := fun _ => .absent
  inside : π → Nat := fun _ => 0

/-- A step of process `p`: the two halves of the constructor, and the methods. -/
inductive Action (π : Type*) where
  | semget (p : π) (found : Bool)
  | setval (p : π)
  | lock (p : π) (blockCall : Bool)
  | unlock (p : π)

variable {π : Type*} [DecidableEq π]

def System.enter (s : System π) (p : π) (value : Nat) : System π :=
  { s with value := value, inside := Function.update s.inside p (s.inside p + 1) }

/-- One step. A process locks only after its constructor and unlocks only while it is inside; a
caller that sleeps does not step. -/
def System.step (s : System π) : Action π → Option (System π)
  | .semget p found =>
    if s.handle p = .absent then
      some { s with handle := Function.update s.handle p (if found then .created else .failed) }
    else none
  | .setval p =>
    if s.handle p = .created then
      some { s with value := 1, handle := Function.update s.handle p .ready }
    else none
  | .lock p blockCall =>
    if s.handle p = .ready ∨ s.handle p = .failed then
      match Semaphore.lock (s.handle p = .ready) blockCall s.value with
      | .acquired value => some (s.enter p value)
      | .waiting => none
      | .returned code => if code = 0 then some (s.enter p s.value) else some s
    else none
  | .unlock p =>
    if 0 < s.inside p then
      some { s with
        value := Semaphore.unlock (s.handle p = .ready) s.value
        inside := Function.update s.inside p (s.inside p - 1) }
    else none

def System.MutualExclusion (s : System π) : Prop :=
  ∀ p q, 0 < s.inside p → 0 < s.inside q → p = q

/-- A step that respects the others: no constructor sets the value while a process is inside,
and nobody calls `lock(false)` on a semaphore it did not get. -/
def System.Sound (s : System π) : Action π → Prop
  | .setval _ => ∀ q, s.inside q = 0
  | .lock p blockCall => s.handle p = .failed → blockCall = true
  | _ => True

/-- The value plus the processes inside are at most one, and who is inside has the semaphore. -/
structure System.Held (s : System π) : Prop where
  exclusive : Exclusive s.value s.inside
  holder : ∀ p, 0 < s.inside p → s.handle p = .ready

theorem lock_ready (blockCall : Bool) (value : Nat) :
    Semaphore.lock true blockCall value =
      if 0 < value then .acquired (value - 1)
      else if blockCall then .waiting else .returned (-1) := by
  cases blockCall <;> by_cases hvalue : 0 < value <;> simp [Semaphore.lock, semopDecrement, hvalue]

theorem lock_failed (value : Nat) : Semaphore.lock false true value = .returned (-1) := rfl

/-- The value is one, so nobody else is inside. -/
theorem System.Held.enter {s : System π} (hs : s.Held) {p : π} (hvalue : s.value = 1)
    (hp : s.handle p = .ready) : (s.enter p 0).Held := by
  have hexclusive : Exclusive 1 s.inside := hvalue ▸ hs.exclusive
  refine ⟨hexclusive.enter p, fun q hq => ?_⟩
  by_cases hqp : q = p
  · rw [hqp]
    exact hp
  · have hq' : 0 < Function.update s.inside p (s.inside p + 1) q := hq
    rw [Function.update_of_ne hqp] at hq'
    exact hs.holder q hq'

/-- The value is zero while somebody is inside, and nobody else is. -/
theorem System.Held.unlock {s : System π} (hs : s.Held) {p : π} (hp : 0 < s.inside p) :
    System.Held { s with
      value := Semaphore.unlock (s.handle p = .ready) s.value
      inside := Function.update s.inside p (s.inside p - 1) } := by
  have hone : s.inside p - 1 = 0 := Nat.sub_eq_zero_of_le (hs.exclusive.once p)
  have hvalue : Semaphore.unlock (s.handle p = .ready) s.value ≤ 1 := by
    simp [hs.holder p hp, Semaphore.unlock, semopIncrement, hs.exclusive.ne_free hp]
  rw [hone]
  exact ⟨hs.exclusive.leave hp hvalue,
    fun q hq => absurd (hs.exclusive.nobody_update hp q) hq.ne'⟩

/-- A sound step keeps the value plus the processes inside at most one. -/
theorem held_step {s s' : System π} {a : Action π} (hs : s.Held) (ha : s.Sound a)
    (h : s.step a = some s') : s'.Held := by
  cases a with
  | semget p found =>
    by_cases habsent : s.handle p = .absent
    · rw [System.step, if_pos habsent] at h
      cases h
      refine ⟨hs.exclusive, fun q hq => ?_⟩
      -- who is inside has its semaphore already, so it is another process
      have hready := hs.holder q hq
      have hne : q ≠ p := by
        rintro rfl
        exact absurd (habsent.symm.trans hready) (by simp)
      exact (Function.update_of_ne hne _ _).trans hready
    · rw [System.step, if_neg habsent] at h
      cases h
  | setval p =>
    -- nobody is inside, so the value may as well be one
    rw [System.step] at h
    split_ifs at h
    cases h
    exact ⟨Exclusive.of_nobody le_rfl ha, fun q hq => absurd (ha q) hq.ne'⟩
  | lock p blockCall =>
    rw [System.step] at h
    split_ifs at h with hready
    rcases hready with hready | hfailed
    · -- with a semaphore the value decides
      simp only [hready, decide_true, lock_ready] at h
      by_cases hvalue : 0 < s.value
      · have hone : s.value = 1 := by have := hs.exclusive.value_le; omega
        simp only [hone] at h
        cases h
        exact hs.enter hone hready
      · cases blockCall with
        | true => simp [hvalue] at h
        | false =>
          have hsame : s = s' := by simpa [hvalue] using h
          exact hsame ▸ hs
    · -- without one, a call that may block fails
      obtain rfl : blockCall = true := ha hfailed
      have hsame : s = s' := by simpa [hfailed, lock_failed] using h
      exact hsame ▸ hs
  | unlock p =>
    rw [System.step] at h
    split_ifs at h with hp
    cases h
    exact hs.unlock hp

/-- In every run of sound steps, of any number of processes in any order, at most one process is
inside at any time. -/
theorem mutualExclusion_of_sound (actions : List (Action π))
    (h : EachStep System.step System.Sound ({} : System π) actions) :
    Throughout System.step System.MutualExclusion {} actions := by
  have hinit : ({} : System π).Held :=
    ⟨Exclusive.of_nobody (Nat.zero_le 1) fun _ => rfl, fun p hp => absurd hp (by simp)⟩
  exact (throughout_of_eachStep (P := System.Held)
    (fun s a s' hs ha hstep => held_step hs ha hstep) hinit h).imp fun s hs => hs.exclusive.alone

/-- Two processes take turns; the second one constructs its semaphore in between. -/
theorem mutualExclusion_of_sound_example :
    Throughout System.step System.MutualExclusion ({} : System Bool)
      [.semget true true, .setval true, .lock true true, .unlock true,
        .semget false true, .setval false, .lock false false] := by
  apply mutualExclusion_of_sound
  refine .cons rfl trivial <| .cons rfl (fun q => rfl) <| .cons rfl (fun _ => rfl) <|
    .cons rfl trivial <| .cons rfl trivial <| .cons rfl (fun q => ?_) <|
    .cons rfl (fun hfailed => ?_) trivial
  · cases q <;> rfl
  · exact absurd hfailed (by decide)

/-- The second process constructs its semaphore while the first one is inside, and enters. -/
theorem late_constructor_breaks_exclusion :
    ¬ Throughout System.step System.MutualExclusion ({} : System Bool)
      [.semget true true, .setval true, .lock true true,
        .semget false true, .setval false, .lock false true] := by
  intro h
  have hlast := ((((((h.2 _ rfl).2 _ rfl).2 _ rfl).2 _ rfl).2 _ rfl).2 _ rfl)
  exact absurd (hlast true false (by decide) (by decide)) (by decide)

end Semaphore

end Guthi
