import Guthi.Lib.Exclusive
import Guthi.SharedMemory.Semaphore

/-!
# Guthi — the semaphore on Windows

The other implementation of `Semaphore` in `shared_memory/semaphore.hpp`. `CreateSemaphore` with
a name opens the semaphore that has this name, and leaves its count alone, if there is one; it
lives as long as a process has it open. A process can end at any time: the system closes its
handles, and gives nothing back that it held.

* `lock`, `unlock` — the methods, over the calls of the system;
* `exclusion_throughout` — at most one process is inside, in every run, whoever constructs, locks,
  unlocks and ends at whatever time;
* `available_iff` — while nobody is inside the next one can enter, exactly if no process ends
  while it is inside and others have the semaphore open.
-/

namespace Guthi

namespace WinSemaphore

/-- What `WaitForSingleObject` returns. -/
inductive WaitResult where
  | object0 (count : Nat)
  | timeout
  | failed
  | waiting
deriving DecidableEq, Repr

/-- `WaitForSingleObject(semHnd, timeout_time)`; there is no count behind a `NULL` handle. -/
def waitForSingleObject (count : Option Nat) (infinite : Bool) : WaitResult :=
  match count with
  | none => .failed
  | some (c + 1) => .object0 c
  | some 0 => if infinite then .waiting else .timeout

/-- `ReleaseSemaphore(semHnd, 1, NULL)`, for a semaphore whose count is at most 1. -/
def releaseSemaphore (count : Option Nat) : Option (Option Nat) :=
  match count with
  | none => none
  | some c => if c + 1 ≤ 1 then some (some (c + 1)) else none

/-- `lock`: 0 when the wait is over, -1 on a time-out or an error. -/
def lock (count : Option Nat) (blockCall : Bool) : Semaphore.LockResult :=
  match waitForSingleObject count blockCall with
  | .object0 c => .acquired c
  | .waiting => .waiting
  | .timeout => .returned (-1)
  | .failed => .returned (-1)

/-- `unlock()`: the count afterwards, and what is returned. -/
def unlock (count : Option Nat) : Option Nat × Int :=
  match releaseSemaphore count with
  | some count' => (count', 0)
  | none => (count, -1)

/-! ## Processes -/

/-- The semaphore under the name, if there is one, and the processes: those that have constructed
their `Semaphore`, and among them those that got a handle. -/
structure System (π : Type*) where
  count : Option Nat := none
  constructed : π → Bool := fun _ => false
  opened : Finset π := ∅
  inside : π → Nat := fun _ => 0

/-- A step of process `p`. It ends in its destructor or in any other way: its handle is closed. -/
inductive Action (π : Type*) where
  | create (p : π) (created : Bool)
  | lock (p : π) (blockCall : Bool)
  | unlock (p : π)
  | exit (p : π)

variable {π : Type*} [DecidableEq π]

namespace System

/-- What the handle of a process leads to. -/
def object (s : System π) (p : π) : Option Nat := if p ∈ s.opened then s.count else none

/-- A process goes into the critical section. -/
def enter (s : System π) (p : π) (count : Option Nat) : System π :=
  { s with count := count, inside := Function.update s.inside p (s.inside p + 1) }

/-- One step. A process locks only after its constructor, and unlocks only while it is inside; a
caller that waits does not step. -/
def step (s : System π) : Action π → Option (System π)
  | .create p created =>
    if s.constructed p then none
    else if created then
      -- `CreateSemaphore(NULL, 1, 1, "guthi_semaphore")`
      some { s with
        count := some (s.count.getD 1)
        constructed := Function.update s.constructed p true
        opened := insert p s.opened }
    else some { s with constructed := Function.update s.constructed p true }
  | .lock p blockCall =>
    if s.constructed p then
      match WinSemaphore.lock (s.object p) blockCall with
      | .acquired c => some (s.enter p (some c))
      | .waiting => none
      | .returned code => if code = 0 then some (s.enter p s.count) else some s
    else none
  | .unlock p =>
    if 0 < s.inside p then
      some { s with
        count := if p ∈ s.opened then (WinSemaphore.unlock s.count).1 else s.count
        inside := Function.update s.inside p (s.inside p - 1) }
    else none
  | .exit p =>
    if s.constructed p then
      some { s with
        -- the semaphore goes with its last handle
        count := if s.opened.erase p = ∅ then none else s.count
        constructed := Function.update s.constructed p false
        opened := s.opened.erase p
        inside := Function.update s.inside p 0 }
    else none

/-- No two processes are inside. -/
def MutualExclusion (s : System π) : Prop :=
  ∀ p q, 0 < s.inside p → 0 < s.inside q → p = q

/-- While nobody is inside, whoever has the semaphore open can enter. -/
def Available (s : System π) : Prop :=
  (∀ p, s.inside p = 0) → ∀ p ∈ s.opened, ∀ blockCall, ∃ c,
    WinSemaphore.lock (s.object p) blockCall = .acquired c

/-- The semaphore is there as long as it is open, and its count agrees with who is inside. -/
structure Sound (s : System π) : Prop where
  there : s.opened.Nonempty → ∃ c, s.count = some c ∧ Exclusive c s.inside
  gone : s.opened = ∅ → s.count = none
  holder : ∀ p, 0 < s.inside p → p ∈ s.opened
  handle : ∀ p ∈ s.opened, s.constructed p = true

omit [DecidableEq π] in
/-- There is no semaphore at the start. -/
theorem sound_start : Sound ({} : System π) := by
  refine ⟨fun h => ?_, fun _ => rfl, fun p hp => ?_, fun p hp => ?_⟩
  · simp at h
  · simp at hp
  · simp at hp

variable {s s' : System π} {p : π}

/-- A process with a handle sees the count that is exclusive. -/
theorem Sound.exclusive (hs : s.Sound) (hp : p ∈ s.opened) :
    ∃ c, s.count = some c ∧ s.object p = some c ∧ Exclusive c s.inside := by
  obtain ⟨c, hcount, hexcl⟩ := hs.there ⟨p, hp⟩
  refine ⟨c, hcount, ?_, hexcl⟩
  rw [object, if_pos hp, hcount]

/-- A sound system has one process inside at most. -/
theorem Sound.mutualExclusion (hs : s.Sound) : s.MutualExclusion := by
  intro p q hp hq
  obtain ⟨_, _, _, hexcl⟩ := hs.exclusive (hs.holder p hp)
  exact hexcl.alone p q hp hq

/-- The first handle makes the semaphore, with a count of 1; another one opens it. -/
theorem Sound.create (hs : s.Sound) (hp : ¬ s.constructed p = true) :
    Sound { s with
      count := some (s.count.getD 1)
      constructed := Function.update s.constructed p true
      opened := insert p s.opened } := by
  refine ⟨fun _ => ?_, fun h => absurd h (Finset.insert_ne_empty p s.opened), fun q hq => ?_,
    fun q hq => ?_⟩
  · -- a new semaphore, or one that is open elsewhere
    rcases s.opened.eq_empty_or_nonempty with hempty | hopen
    · -- a new semaphore, and nobody can be inside
      have hnobody : ∀ q, s.inside q = 0 := by
        intro q
        by_contra hpos
        have hmem := hs.holder q (Nat.pos_of_ne_zero hpos)
        rw [hempty] at hmem
        exact absurd hmem (Finset.notMem_empty q)
      refine ⟨1, ?_, Exclusive.of_nobody le_rfl hnobody⟩
      show some (s.count.getD 1) = some 1
      rw [hs.gone hempty]
      rfl
    · obtain ⟨c, hcount, hexcl⟩ := hs.there hopen
      refine ⟨c, ?_, hexcl⟩
      show some (s.count.getD 1) = some c
      rw [hcount]
      rfl
  · exact Finset.mem_insert_of_mem (hs.holder q hq)
  · show Function.update s.constructed p true q = true
    rcases Finset.mem_insert.mp hq with rfl | hold
    · exact Function.update_self ..
    · rw [Function.update_apply]
      split_ifs
      · rfl
      · exact hs.handle q hold

/-- `lock` enters only with the count. -/
theorem Sound.lock (hs : s.Sound) {blockCall : Bool}
    (h : s.step (.lock p blockCall) = some s') : s'.Sound := by
  rw [step] at h
  split_ifs at h
  by_cases hp : p ∈ s.opened
  · obtain ⟨c, hcount, hobject, hexcl⟩ := hs.exclusive hp
    rw [hobject] at h
    cases c with
    | zero =>
      cases blockCall with
      | true => cases h
      | false =>
        cases h
        exact hs
    | succ c =>
      cases h
      -- the count is 1, and 0 from now on
      have hone : c = 0 := by have := hexcl.value_le; omega
      subst hone
      refine ⟨fun _ => ⟨0, rfl, hexcl.enter p⟩, fun h => ?_, fun q hq => ?_, hs.handle⟩
      · exact absurd (h ▸ hp) (Finset.notMem_empty p)
      · by_cases hq' : q = p
        · exact hq' ▸ hp
        · change 0 < Function.update s.inside p (s.inside p + 1) q at hq
          rw [Function.update_of_ne hq'] at hq
          exact hs.holder q hq
  · -- without a handle the wait fails
    rw [object, if_neg hp] at h
    cases h
    exact hs

/-- `unlock` gives the count back. -/
theorem Sound.unlock (hs : s.Sound) (h : s.step (.unlock p) = some s') : s'.Sound := by
  rw [step] at h
  split_ifs at h with hinside hp
  · cases h
    obtain ⟨c, hcount, _, hexcl⟩ := hs.exclusive hp
    obtain rfl := hexcl.ne_free hinside
    -- it was inside once
    have hlast : s.inside p - 1 = 0 := by have := hexcl.once p; omega
    refine ⟨fun _ => ⟨1, ?_, ?_⟩, fun h => ?_, fun q hq => ?_, hs.handle⟩
    · rw [hcount]
      rfl
    · show Exclusive 1 (Function.update s.inside p (s.inside p - 1))
      rw [hlast]
      exact hexcl.leave hinside le_rfl
    · exact absurd (h ▸ hp) (Finset.notMem_empty p)
    · change 0 < Function.update s.inside p (s.inside p - 1) q at hq
      rw [hlast, hexcl.nobody_update hinside] at hq
      exact absurd hq (Nat.lt_irrefl 0)
  · exact absurd (hs.holder p hinside) hp

/-- A process that ends closes its handle, and the count it has taken is lost. -/
theorem Sound.exit (hs : s.Sound) (h : s.step (.exit p) = some s') : s'.Sound := by
  rw [step] at h
  split_ifs at h with _ hlast
  · -- the last handle: nobody else can be inside
    cases h
    refine ⟨fun hopen => absurd hlast hopen.ne_empty, fun _ => rfl, fun q hq => ?_, fun q hq => ?_⟩
    · change 0 < Function.update s.inside p 0 q at hq
      rw [Function.update_apply] at hq
      split_ifs at hq with hqp
      · exact absurd hq (Nat.lt_irrefl 0)
      · exact Finset.mem_erase.mpr ⟨hqp, hs.holder q hq⟩
    · exact absurd (hlast ▸ hq) (Finset.notMem_empty q)
  · cases h
    refine ⟨fun hopen => ?_, fun hempty => absurd hempty hlast, fun q hq => ?_, fun q hq => ?_⟩
    · obtain ⟨c, hcount, hexcl⟩ := hs.there (hopen.mono (Finset.erase_subset p s.opened))
      refine ⟨c, hcount, ?_⟩
      show Exclusive c (Function.update s.inside p 0)
      -- a process that is not inside changes nothing
      rcases Nat.eq_zero_or_pos (s.inside p) with hout | hin
      · rw [update_zero_of_outside hout]
        exact hexcl
      · exact hexcl.leave hin hexcl.value_le
    · change 0 < Function.update s.inside p 0 q at hq
      rw [Function.update_apply] at hq
      split_ifs at hq with hqp
      · exact absurd hq (Nat.lt_irrefl 0)
      · exact Finset.mem_erase.mpr ⟨hqp, hs.holder q hq⟩
    · obtain ⟨hqp, hold⟩ := Finset.mem_erase.mp hq
      show Function.update s.constructed p false q = true
      rw [Function.update_of_ne hqp]
      exact hs.handle q hold

theorem Sound.step {a : Action π} (hs : s.Sound) (h : s.step a = some s') : s'.Sound := by
  cases a with
  | create p created =>
    rw [System.step] at h
    split_ifs at h with hp hcreated
    · cases h
      exact hs.create hp
    · cases h
      refine ⟨hs.there, hs.gone, hs.holder, fun q hq => ?_⟩
      show Function.update s.constructed p true q = true
      rw [Function.update_apply]
      split_ifs
      · rfl
      · exact hs.handle q hq
  | lock p blockCall => exact hs.lock h
  | unlock p => exact hs.unlock h
  | exit p => exact hs.exit h

/-- **Exclusion.** In every run, of any number of processes that construct their semaphore, lock,
unlock and end at any time, at most one process is inside. -/
theorem exclusion_throughout (actions : List (Action π)) :
    Throughout step MutualExclusion ({} : System π) actions :=
  (throughout_of_invariant (fun _ _ _ hs h => Sound.step hs h) sound_start actions).imp
    fun _ hs => hs.mutualExclusion

/-! ## Availability -/

/-- The count is 1 if nobody is inside. -/
def Free (s : System π) : Prop := (∀ p, s.inside p = 0) → ∀ c, s.count = some c → c = 1

/-- The step does not end a process that is inside while others have the semaphore open. -/
def Returns (s : System π) : Action π → Prop
  | .exit p => 0 < s.inside p → s.opened.erase p = ∅
  | _ => True

/-- A count above 0 is taken at once. -/
theorem lock_some (c : Nat) (blockCall : Bool) :
    WinSemaphore.lock (some (c + 1)) blockCall = .acquired c := rfl

/-- Whoever has a handle can enter exactly if the count is 1 while nobody is inside. -/
theorem Sound.available_iff_free (hs : s.Sound) : s.Available ↔ s.Free := by
  constructor
  · intro hav hnobody c hcount
    have hopen : s.opened.Nonempty := by
      rw [Finset.nonempty_iff_ne_empty]
      intro hempty
      rw [hs.gone hempty] at hcount
      cases hcount
    -- somebody who could enter
    obtain ⟨q, hq⟩ := hopen
    obtain ⟨c', hcount', hobject, hexcl⟩ := hs.exclusive hq
    obtain ⟨c'', hlock⟩ := hav hnobody q hq false
    rw [hcount, Option.some.injEq] at hcount'
    subst hcount'
    have hle := hexcl.value_le
    cases c with
    | zero =>
      rw [hobject] at hlock
      cases hlock
    | succ c => omega
  · intro hfree hnobody q hq blockCall
    obtain ⟨c, hcount, hobject, _⟩ := hs.exclusive hq
    rw [hobject, hfree hnobody c hcount]
    exact ⟨0, lock_some 0 blockCall⟩

/-- One step keeps the semaphore free exactly if it does not end a process inside. -/
theorem free_step_iff (hs : s.Sound) (hfree : s.Free) {a : Action π} (h : s.step a = some s') :
    s'.Free ↔ s.Returns a := by
  cases a with
  -- a new semaphore has the count 1
  | create p created =>
    refine iff_of_true ?_ trivial
    rw [step] at h
    split_ifs at h
    · cases h
      intro hnobody c hcount
      cases hold : s.count with
      | none =>
        change some (s.count.getD 1) = some c at hcount
        rw [hold] at hcount
        cases hcount
        rfl
      | some c' =>
        change some (s.count.getD 1) = some c at hcount
        rw [hold] at hcount
        cases hcount
        exact hfree hnobody _ hold
    · cases h
      exact hfree
  | lock p blockCall =>
    refine iff_of_true ?_ trivial
    rw [step] at h
    split_ifs at h
    split at h
    · cases h
      -- now somebody is inside
      intro hnobody
      have hp : Function.update s.inside p (s.inside p + 1) p = 0 := hnobody p
      rw [Function.update_self] at hp
      omega
    · cases h
    · split_ifs at h
      · cases h
        intro hnobody
        have hp : Function.update s.inside p (s.inside p + 1) p = 0 := hnobody p
        rw [Function.update_self] at hp
        omega
      · cases h
        exact hfree
  -- the count is 1 again
  | unlock p =>
    refine iff_of_true ?_ trivial
    rw [step] at h
    split_ifs at h with hinside hp
    · cases h
      obtain ⟨c, hcount, _, hexcl⟩ := hs.exclusive hp
      obtain rfl := hexcl.ne_free hinside
      intro _ c hc
      change (WinSemaphore.unlock s.count).1 = some c at hc
      rw [hcount] at hc
      cases hc
      rfl
    · exact absurd (hs.holder p hinside) hp
  | exit p =>
    rw [step] at h
    split_ifs at h with _ hlast
    · cases h
      refine iff_of_true (fun _ c hc => ?_) fun _ => hlast
      cases hc
    · cases h
      constructor
      · -- the count of a holder that is gone stays zero
        intro hfree' hin
        obtain ⟨c, hcount, _, hexcl⟩ := hs.exclusive (hs.holder p hin)
        obtain rfl := hexcl.ne_free hin
        exact absurd (hfree' (hexcl.nobody_update hin) 0 hcount) (by decide)
      · intro hret
        have hout : s.inside p = 0 := by
          by_contra hpos
          exact hlast (hret (Nat.pos_of_ne_zero hpos))
        intro hnobody
        change ∀ q, Function.update s.inside p 0 q = 0 at hnobody
        rw [update_zero_of_outside hout] at hnobody
        exact hfree hnobody

/-- **Availability.** In a run the semaphore can be entered whenever nobody is inside, exactly if no
process ends while it is inside and another one has the semaphore open. -/
theorem available_iff (actions : List (Action π)) :
    Throughout step Available ({} : System π) actions ↔
      EachStep step Returns ({} : System π) actions := by
  have hstart : Free ({} : System π) := by
    intro _ c hc
    cases hc
  refine throughout_iff_eachStep (J := Sound) (fun _ _ _ hs h => hs.step h)
    (fun s a s' hs hav h => ?_) sound_start (sound_start.available_iff_free.mpr hstart) actions
  rw [(hs.step h).available_iff_free]
  exact free_step_iff hs (hs.available_iff_free.mp hav) h

end System

end WinSemaphore

end Guthi
