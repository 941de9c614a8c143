import Guthi.Lib.Exclusive
import Guthi.SharedMemory.Semaphore

/-!
# Guthi — ends of processes and the semaphore

The System V semaphore of `shared_memory/semaphore.hpp` with what becomes of it when a process
ends. `lock()` asks for `SEM_UNDO`, so the kernel notes that the process owes an increment, and
makes it when the process dies. `unlock()` leaves `sem_flg` as it finds it, so whether the note is
taken back is not determined. The destructor removes the semaphore for all processes, and the next
constructor makes one with another id.

* `System.step` — the steps of the processes, with the notes of the kernel;
* `Settled` — nobody but one holds the semaphore, the kernel owes for it exactly what it holds, and
  whoever wants to can enter when nobody does;
* `settled_iff` — in a run this is so at any time exactly if every step is `Careful`. To die is
  careful at any time.
-/

namespace Guthi

namespace UndoSemaphore

/-- The `id` of a process: of no set, or of the set with this number, before and after `SETVAL`. -/
inductive Handle where
  | absent
  | failed
  | created (id : Nat)
  | ready (id : Nat)
deriving DecidableEq, Repr

/-- The set under the key, the sets that were ever made, the semaphore's value, what the kernel is
to add when a process ends, and the processes. -/
structure System (π : Type*) where
  live : Option Nat := none
  made : Nat := 0
  value : Nat := 0
  undo : π → Int := fun _ => 0
  handle : π → Handle := fun _ => .absent
  inside : π → Nat := fun _ => 0

/-- A step of process `p`: the two halves of the constructor, the methods, a death, and the
destructor with the end of the process. `undo` says whether the flags that `unlock` leaves have
`SEM_UNDO` among them. -/
inductive Action (π : Type*) where
  | semget (p : π) (found : Bool)
  | setval (p : π)
  | lock (p : π) (blockCall : Bool)
  | unlock (p : π) (undo : Bool)
  | die (p : π)
  | destroy (p : π)

namespace System

variable {π : Type*} [DecidableEq π]

/-- The process has the id of the set that is there. -/
def valid (s : System π) (p : π) : Bool :=
  match s.handle p with
  | .created id => s.live = some id
  | .ready id => s.live = some id
  | _ => false

/-- A process goes into the critical section. -/
def enter (s : System π) (p : π) (value : Nat) : System π :=
  { s with value := value, inside := Function.update s.inside p (s.inside p + 1) }

/-- The process and what it held are gone. -/
def leave (s : System π) (p : π) : System π :=
  { s with
    undo := Function.update s.undo p 0
    handle := Function.update s.handle p .absent
    inside := Function.update s.inside p 0 }

/-- The constructor is through with `semget` and what follows it. -/
def constructed (s : System π) (p : π) : Bool :=
  match s.handle p with
  | .failed => true
  | .ready _ => true
  | _ => false

/-- One step. A process locks only after its constructor and unlocks only while it is inside; a
caller that sleeps does not step. -/
def step (s : System π) : Action π → Option (System π)
  | .semget p found =>
    if s.handle p = .absent then
      if found then
        match s.live with
        | some id => some { s with handle := Function.update s.handle p (.created id) }
        | none => some { s with
            live := some s.made
            made := s.made + 1
            value := 0
            undo := fun _ => 0
            handle := Function.update s.handle p (.created s.made) }
      else some { s with handle := Function.update s.handle p .failed }
    else none
  | .setval p =>
    match s.handle p with
    | .created id =>
      let s' := { s with handle := Function.update s.handle p (.ready id) }
      -- the notes about this semaphore are dropped, for all processes
      if s.live = some id then some { s' with value := 1, undo := fun _ => 0 } else some s'
    | _ => none
  | .lock p blockCall =>
    if s.constructed p then
      match Semaphore.lock (s.valid p) blockCall s.value with
      | .acquired value =>
        some { s.enter p value with undo := Function.update s.undo p (s.undo p + 1) }
      | .waiting => none
      | .returned code => if code = 0 then some (s.enter p s.value) else some s
    else none
  | .unlock p undo =>
    if 0 < s.inside p then
      some { s with
        value := Semaphore.unlock (s.valid p) s.value
        undo := if s.valid p ∧ undo = true then Function.update s.undo p (s.undo p - 1) else s.undo
        inside := Function.update s.inside p (s.inside p - 1) }
    else none
  | .die p =>
    if s.handle p = .absent then none
    else some { s.leave p with value := (s.value + s.undo p).toNat }
  | .destroy p =>
    if s.constructed p then
      -- `semctl(id, SEM_NUM, IPC_RMID)`
      if s.valid p then some { s.leave p with live := none, undo := fun _ => 0 }
      else some (s.leave p)
    else none

/-- A step that respects the others: no constructor sets the value and no destructor removes the
semaphore while another process is inside, nobody calls `lock(false)` with an id that is not
valid, and the flags of an `unlock` have `SEM_UNDO`. -/
def Careful (s : System π) : Action π → Prop
  | .setval p => s.valid p = true → ∀ q, s.inside q = 0
  | .lock p blockCall => s.valid p = false → blockCall = true
  | .unlock _ undo => undo = true
  | .destroy p => s.valid p = true → ∀ q, q ≠ p → s.inside q = 0
  | _ => True

/-- Who is inside holds the semaphore that is there, alone; the kernel notes what it holds; and if
nobody is inside, the semaphore can be taken. -/
structure Settled (s : System π) : Prop where
  holder : ∀ p, 0 < s.inside p → ∃ id, s.live = some id ∧ s.handle p = .ready id
  exclusive : Exclusive s.value s.inside
  owed : ∀ p, s.undo p = s.inside p
  available : ∀ p id, s.live = some id → s.handle p = .ready id → (∀ q, s.inside q = 0) →
    s.value = 1

/-- The ids that are in use have been given. -/
structure Numbered (s : System π) : Prop where
  live_lt : ∀ id, s.live = some id → id < s.made
  created_lt : ∀ p id, s.handle p = .created id → id < s.made
  ready_lt : ∀ p id, s.handle p = .ready id → id < s.made

omit [DecidableEq π] in
/-- There is no set at the start. -/
theorem numbered_start : Numbered ({} : System π) := ⟨by simp, by simp, by simp⟩

omit [DecidableEq π] in
/-- Nobody is inside at the start. -/
theorem settled_start : Settled ({} : System π) :=
  ⟨by simp, Exclusive.of_nobody (Nat.zero_le 1) fun _ => rfl, by simp, by simp⟩

variable {s s' : System π} {p : π}

omit [DecidableEq π] in
/-- The id of the set that is there is valid. -/
theorem valid_of_ready {id : Nat} (hlive : s.live = some id) (hp : s.handle p = .ready id) :
    s.valid p = true := by
  simp [valid, hp, hlive]

omit [DecidableEq π] in
/-- Whoever is inside has a valid id. -/
theorem Settled.valid (hs : s.Settled) (hp : 0 < s.inside p) : s.valid p = true := by
  obtain ⟨id, hlive, hready⟩ := hs.holder p hp
  exact valid_of_ready hlive hready

omit [DecidableEq π] in
/-- Who does not hold the semaphore that is there is not inside. -/
theorem Settled.outside (hs : s.Settled) (hp : ∀ id, s.live = some id → s.handle p ≠ .ready id) :
    s.inside p = 0 := by
  by_contra hpos
  obtain ⟨id, hlive, hready⟩ := hs.holder p (Nat.pos_of_ne_zero hpos)
  exact hp id hlive hready

omit [DecidableEq π] in
/-- A process is outside and owed nothing, or inside once and owed one. -/
theorem Settled.inside_cases (hs : s.Settled) (p : π) :
    (s.inside p = 0 ∧ s.undo p = 0) ∨ (s.inside p = 1 ∧ s.undo p = 1 ∧ s.value = 0) := by
  have howed := hs.owed p
  have honce := hs.exclusive.once p
  rcases Nat.eq_zero_or_pos (s.inside p) with hout | hin
  · exact Or.inl ⟨hout, by rw [howed, hout]; rfl⟩
  · have hone : s.inside p = 1 := by omega
    exact Or.inr ⟨hone, by rw [howed, hone]; rfl, hs.exclusive.ne_free hin⟩

/-- A process that holds nothing gets another handle, which is not of the semaphore that is
there. -/
theorem Settled.rehandle (hs : s.Settled) {h : Handle} (hout : s.inside p = 0)
    (hh : ∀ id, s.live = some id → h ≠ .ready id) :
    Settled { s with handle := Function.update s.handle p h } := by
  refine ⟨fun q hq => ?_, hs.exclusive, hs.owed, fun q id hlive hq => ?_⟩
  · obtain ⟨id, hlive, hready⟩ := hs.holder q hq
    have hne : q ≠ p := by
      rintro rfl
      exact absurd hout hq.ne'
    exact ⟨id, hlive, (Function.update_of_ne hne _ _).trans hready⟩
  · change Function.update s.handle p h q = .ready id at hq
    -- the process itself, or another one
    by_cases hqp : q = p
    · subst hqp
      rw [Function.update_self] at hq
      exact absurd hq (hh id hlive)
    · rw [Function.update_of_ne hqp] at hq
      exact hs.available q id hlive hq

/-! ## The steps -/

/-- `semget` keeps the semaphore settled: a new set has an id that nobody has. -/
theorem settled_semget (hn : s.Numbered) (hs : s.Settled) {found : Bool}
    (h : s.step (.semget p found) = some s') : s'.Settled := by
  rw [step] at h
  split_ifs at h with habsent hfound
  · have hout : s.inside p = 0 := hs.outside fun id _ hready => by
      rw [habsent] at hready
      cases hready
    cases hlive : s.live with
    | some id =>
      rw [hlive] at h
      cases h
      have hset := hs.rehandle (h := .created id) hout fun _ _ h => by cases h
      rwa [hlive] at hset
    | none =>
      rw [hlive] at h
      cases h
      -- nobody has the id of the new set
      have hnobody : ∀ q, s.inside q = 0 := fun q => hs.outside fun id hid => by
        rw [hlive] at hid
        cases hid
      refine ⟨fun q hq => absurd (hnobody q) hq.ne',
        Exclusive.of_nobody (Nat.zero_le 1) hnobody, fun q => ?_, fun q id hid hq => ?_⟩
      · show (0 : Int) = s.inside q
        rw [hnobody q]
        rfl
      · cases hid
        change Function.update s.handle p _ q = .ready s.made at hq
        rw [Function.update_apply] at hq
        split_ifs at hq
        exact absurd (hn.ready_lt q s.made hq) (Nat.lt_irrefl _)
  · cases h
    refine hs.rehandle (hs.outside fun id _ hready => ?_) fun _ _ h => by cases h
    rw [habsent] at hready
    cases hready

/-- `SETVAL` keeps it settled exactly if nobody is inside. -/
theorem settled_setval_iff (hs : s.Settled) (h : s.step (.setval p) = some s') :
    s'.Settled ↔ s.Careful (.setval p) := by
  rw [step] at h
  cases hp : s.handle p with
  | created id =>
    rw [hp] at h
    have hout : s.inside p = 0 := hs.outside fun id _ hready => by
      rw [hp] at hready
      cases hready
    -- the set is there, or was removed in between
    by_cases hlive : s.live = some id
    · have hvalid : s.valid p = true := by simp [valid, hp, hlive]
      simp only [if_pos hlive] at h
      cases h
      constructor
      · intro hs' _ q
        have howed : (0 : Int) = s.inside q := hs'.owed q
        omega
      · intro hcareful
        have hnobody := hcareful hvalid
        refine ⟨fun q hq => absurd (hnobody q) hq.ne', Exclusive.of_nobody le_rfl hnobody,
          fun q => ?_, fun _ _ _ _ _ => rfl⟩
        show (0 : Int) = s.inside q
        rw [hnobody q]
        rfl
    · have hinvalid : s.valid p = false := by simp [valid, hp, hlive]
      simp only [if_neg hlive] at h
      cases h
      refine iff_of_true (hs.rehandle hout fun id' hid' hready => ?_) fun hvalid => ?_
      · cases hready
        exact hlive hid'
      · rw [hinvalid] at hvalid
        cases hvalid
  | absent =>
    rw [hp] at h
    cases h
  | failed =>
    rw [hp] at h
    cases h
  | ready id =>
    rw [hp] at h
    cases h

/-- `lock` keeps it settled, unless it takes the error of an invalid id for permission. -/
theorem settled_lock_iff (hs : s.Settled) {blockCall : Bool}
    (h : s.step (.lock p blockCall) = some s') : s'.Settled ↔ s.Careful (.lock p blockCall) := by
  rw [step] at h
  split_ifs at h with hconstructed
  cases hvalid : s.valid p with
  | true =>
    refine iff_of_true ?_ fun hinvalid => ?_
    · rw [hvalid, Semaphore.lock_ready] at h
      -- the semaphore is free, or the call waits or gives up
      by_cases hvalue : 0 < s.value
      · have hone : s.value = 1 := by have := hs.exclusive.value_le; omega
        simp only [hone] at h
        cases h
        -- whose id is valid and who is through with the constructor is ready
        obtain ⟨id, hlive, hready⟩ : ∃ id, s.live = some id ∧ s.handle p = .ready id := by
          unfold constructed at hconstructed
          unfold valid at hvalid
          cases hp : s.handle p with
          | ready id =>
            rw [hp] at hvalid
            exact ⟨id, of_decide_eq_true hvalid, rfl⟩
          | _ =>
            rw [hp] at hconstructed hvalid
            cases hconstructed
            try cases hvalid
        have hexcl := hs.exclusive
        rw [hone] at hexcl
        refine ⟨fun q hq => ?_, hexcl.enter p, fun q => ?_, fun _ _ _ _ hnobody => ?_⟩
        · by_cases hqp : q = p
          · exact ⟨id, hlive, hqp ▸ hready⟩
          · change 0 < Function.update s.inside p (s.inside p + 1) q at hq
            rw [Function.update_of_ne hqp] at hq
            exact hs.holder q hq
        · show Function.update s.undo p (s.undo p + 1) q =
            (Function.update s.inside p (s.inside p + 1) q : Nat)
          rw [Function.update_apply, Function.update_apply, hs.owed p, hs.owed q]
          split_ifs <;> push_cast <;> rfl
        · have hp : Function.update s.inside p (s.inside p + 1) p = 0 := hnobody p
          rw [Function.update_self] at hp
          omega
      · cases blockCall with
        | true => simp [hvalue] at h
        | false =>
          have hsame : s = s' := by simpa [hvalue] using h
          exact hsame ▸ hs
    · rw [hvalid] at hinvalid
      cases hinvalid
  | false =>
    rw [hvalid] at h
    cases blockCall with
    | true =>
      cases h
      exact iff_of_true hs fun _ => rfl
    | false =>
      -- the error is taken for permission
      cases h
      refine iff_of_false (fun hs' => ?_) fun hcareful => absurd (hcareful hvalid) (by decide)
      have hin : 0 < (s.enter p s.value).inside p := by
        show 0 < Function.update s.inside p (s.inside p + 1) p
        rw [Function.update_self]
        omega
      obtain ⟨id, hlive, hready⟩ := hs'.holder p hin
      have hvalid' : s.valid p = true := valid_of_ready hlive hready
      rw [hvalid] at hvalid'
      cases hvalid'

/-- `unlock` keeps it settled exactly if it undoes what `lock` has noted down. -/
theorem settled_unlock_iff (hs : s.Settled) {undo : Bool}
    (h : s.step (.unlock p undo) = some s') : s'.Settled ↔ s.Careful (.unlock p undo) := by
  rw [step] at h
  split_ifs at h with hin hflag
  · cases h
    have hvalid := hs.valid hin
    obtain ⟨hout, _⟩ | ⟨hone, howed, hzero⟩ := hs.inside_cases p
    · exact absurd hout hin.ne'
    refine iff_of_true ?_ hflag.2
    have hlast : Function.update s.inside p (s.inside p - 1) = Function.update s.inside p 0 := by
      rw [hone]
    have hnobody := hs.exclusive.nobody_update hin
    refine ⟨fun q hq => ?_, Exclusive.of_nobody ?_ ?_, fun q => ?_, fun _ _ _ _ _ => ?_⟩
    · change 0 < Function.update s.inside p (s.inside p - 1) q at hq
      rw [hlast, hnobody q] at hq
      exact absurd hq (Nat.lt_irrefl 0)
    · show Semaphore.unlock (s.valid p) s.value ≤ 1
      rw [hvalid, hzero]
      exact le_rfl
    · show ∀ q, Function.update s.inside p (s.inside p - 1) q = 0
      rw [hlast]
      exact hnobody
    · show Function.update s.undo p (s.undo p - 1) q =
        (Function.update s.inside p (s.inside p - 1) q : Nat)
      rw [Function.update_apply, Function.update_apply, howed, hone, hs.owed q]
      split_ifs <;> rfl
    · show Semaphore.unlock (s.valid p) s.value = 1
      rw [hvalid, hzero]
      rfl
  · cases h
    have hvalid := hs.valid hin
    obtain ⟨hout, _⟩ | ⟨hone, howed, _⟩ := hs.inside_cases p
    · exact absurd hout hin.ne'
    refine iff_of_false (fun hs' => ?_) fun hcareful => hflag ⟨hvalid, hcareful⟩
    -- the kernel still owes an increment for a semaphore that was given back
    have howed' : s.undo p = (Function.update s.inside p (s.inside p - 1) p : Nat) := hs'.owed p
    rw [Function.update_self, howed, hone] at howed'
    exact absurd howed' (by decide)

/-- A process can die at any time: if it is inside, the kernel gives the semaphore back. -/
theorem settled_die (hs : s.Settled) (h : s.step (.die p) = some s') : s'.Settled := by
  rw [step] at h
  split_ifs at h
  cases h
  -- outside nothing is owed, inside exactly one
  obtain ⟨hout, howed⟩ | ⟨hone, howed, hzero⟩ := hs.inside_cases p
  · have hsame : (s.value + s.undo p).toNat = s.value := by
      rw [howed, add_zero, Int.toNat_natCast]
    have hundo : Function.update s.undo p 0 = s.undo := by
      rw [← howed, Function.update_eq_self]
    have hset := hs.rehandle (h := .absent) hout fun _ _ h => by cases h
    unfold leave
    rw [hsame, update_zero_of_outside hout, hundo]
    exact hset
  · have hin : 0 < s.inside p := by omega
    have hback : (s.value + s.undo p).toNat = 1 := by
      rw [howed, hzero]
      rfl
    have hnobody := hs.exclusive.nobody_update hin
    rw [hback]
    refine ⟨fun q hq => absurd (hnobody q) hq.ne', Exclusive.of_nobody le_rfl hnobody,
      fun q => ?_, fun _ _ _ _ _ => rfl⟩
    show Function.update s.undo p 0 q = (Function.update s.inside p 0 q : Nat)
    rw [Function.update_apply, Function.update_apply, hs.owed q]
    split_ifs <;> rfl

/-- Removing the set keeps it settled exactly if nobody else is inside. -/
theorem settled_destroy_iff (hs : s.Settled) (h : s.step (.destroy p) = some s') :
    s'.Settled ↔ s.Careful (.destroy p) := by
  rw [step] at h
  split_ifs at h with _ hvalid
  · cases h
    constructor
    · intro hs' _ q hqp
      by_contra hpos
      have hin : 0 < Function.update s.inside p 0 q := by
        rw [Function.update_of_ne hqp]
        exact Nat.pos_of_ne_zero hpos
      obtain ⟨_, hlive, _⟩ := hs'.holder q hin
      cases hlive
    · intro hcareful
      have hnobody : ∀ q, Function.update s.inside p 0 q = 0 := by
        intro q
        rw [Function.update_apply]
        split_ifs with hqp
        · rfl
        · exact hcareful hvalid q hqp
      refine ⟨fun q hq => absurd (hnobody q) hq.ne',
        Exclusive.of_nobody hs.exclusive.value_le hnobody, fun q => ?_, fun _ _ hlive => ?_⟩
      · show (0 : Int) = (Function.update s.inside p 0 q : Nat)
        rw [hnobody q]
        rfl
      · cases hlive
  · cases h
    have hout : s.inside p = 0 := by
      by_contra hpos
      exact hvalid (hs.valid (Nat.pos_of_ne_zero hpos))
    have hundo : Function.update s.undo p 0 = s.undo := by
      have howed := hs.owed p
      rw [hout] at howed
      rw [show (0 : Int) = s.undo p from howed.symm, Function.update_eq_self]
    refine iff_of_true ?_ fun h => absurd h hvalid
    have hset := hs.rehandle (h := .absent) hout fun _ _ h => by cases h
    unfold leave
    rw [update_zero_of_outside hout, hundo]
    exact hset

/-- A process gets a handle with a number that has been given. -/
theorem Numbered.rehandle (hn : s.Numbered) {h : Handle}
    (hcreated : ∀ id, h = .created id → id < s.made) (hready : ∀ id, h = .ready id → id < s.made) :
    Numbered { s with handle := Function.update s.handle p h } := by
  refine ⟨hn.live_lt, fun q id hq => ?_, fun q id hq => ?_⟩
  · change Function.update s.handle p h q = .created id at hq
    rw [Function.update_apply] at hq
    split_ifs at hq
    · exact hcreated id hq
    · exact hn.created_lt q id hq
  · change Function.update s.handle p h q = .ready id at hq
    rw [Function.update_apply] at hq
    split_ifs at hq
    · exact hready id hq
    · exact hn.ready_lt q id hq

/-- A process that leaves has no handle. -/
theorem Numbered.leave (hn : s.Numbered) (p : π) : (s.leave p).Numbered := by
  have habsent := hn.rehandle (p := p) (h := .absent) (fun _ h => by cases h) fun _ h => by cases h
  exact ⟨habsent.live_lt, habsent.created_lt, habsent.ready_lt⟩

/-- A new set gets the next number. -/
theorem Numbered.semget (hn : s.Numbered) {found : Bool}
    (h : s.step (.semget p found) = some s') : s'.Numbered := by
  rw [System.step] at h
  split_ifs at h
  · cases hlive : s.live with
    | some id =>
      rw [hlive] at h
      cases h
      have hset := hn.rehandle (p := p) (h := .created id)
        (fun id' h => by cases h; exact hn.live_lt id hlive) fun _ h => by cases h
      exact ⟨fun id' hid' => hn.live_lt id' (hlive.trans hid'), hset.created_lt, hset.ready_lt⟩
    | none =>
      rw [hlive] at h
      cases h
      refine ⟨fun id hid => ?_, fun q id hq => ?_, fun q id hq => ?_⟩
      · cases hid
        exact Nat.lt_succ_self _
      · change Function.update s.handle p _ q = .created id at hq
        rw [Function.update_apply] at hq
        split_ifs at hq
        · cases hq
          exact Nat.lt_succ_self _
        · exact Nat.lt_succ_of_lt (hn.created_lt q id hq)
      · change Function.update s.handle p _ q = .ready id at hq
        rw [Function.update_apply] at hq
        split_ifs at hq
        exact Nat.lt_succ_of_lt (hn.ready_lt q id hq)
  · cases h
    exact hn.rehandle (fun _ h => by cases h) fun _ h => by cases h

/-- Every step gives numbers in order. -/
theorem Numbered.step {a : Action π} (hn : s.Numbered) (h : s.step a = some s') :
    s'.Numbered := by
  cases a with
  | semget p found => exact hn.semget h
  | setval p =>
    rw [System.step] at h
    cases hp : s.handle p with
    | created id =>
      rw [hp] at h
      have hset := hn.rehandle (p := p) (h := .ready id) (fun _ h => by cases h)
        fun id' h => by cases h; exact hn.created_lt p id hp
      dsimp only at h
      split_ifs at h <;> cases h
      · exact ⟨hset.live_lt, hset.created_lt, hset.ready_lt⟩
      · exact hset
    | absent =>
      rw [hp] at h
      cases h
    | failed =>
      rw [hp] at h
      cases h
    | ready id =>
      rw [hp] at h
      cases h
  | lock p blockCall =>
    rw [System.step] at h
    split_ifs at h
    split at h
    · cases h
      exact ⟨hn.live_lt, hn.created_lt, hn.ready_lt⟩
    · cases h
    · split_ifs at h <;> cases h
      · exact ⟨hn.live_lt, hn.created_lt, hn.ready_lt⟩
      · exact hn
  | unlock p undo =>
    rw [System.step] at h
    split_ifs at h <;> cases h <;> exact ⟨hn.live_lt, hn.created_lt, hn.ready_lt⟩
  | die p =>
    rw [System.step] at h
    split_ifs at h
    cases h
    have hleave := hn.leave p
    exact ⟨hleave.live_lt, hleave.created_lt, hleave.ready_lt⟩
  | destroy p =>
    have hleave := hn.leave p
    rw [System.step] at h
    split_ifs at h <;> cases h
    · exact ⟨fun id hid => (by cases hid), hleave.created_lt, hleave.ready_lt⟩
    · exact hleave

/-- One step keeps the semaphore settled exactly if it is careful. -/
theorem settled_step_iff (hn : s.Numbered) (hs : s.Settled) {a : Action π}
    (h : s.step a = some s') : s'.Settled ↔ s.Careful a := by
  cases a with
  | semget p found => exact iff_of_true (settled_semget hn hs h) trivial
  | setval p => exact settled_setval_iff hs h
  | lock p blockCall => exact settled_lock_iff hs h
  | unlock p undo => exact settled_unlock_iff hs h
  | die p => exact iff_of_true (settled_die hs h) trivial
  | destroy p => exact settled_destroy_iff hs h

/-- **The semaphore is settled** throughout a run, of any number of processes that come, take
turns, die and end in any order, exactly if every step of the run is careful. -/
theorem settled_iff (actions : List (Action π)) :
    Throughout step Settled ({} : System π) actions ↔
      EachStep step Careful ({} : System π) actions :=
  throughout_iff_eachStep (J := Numbered) (fun _ _ _ hn h => hn.step h)
    (fun _ _ _ hn hs h => settled_step_iff hn hs h) numbered_start settled_start actions

end System

end UndoSemaphore

end Guthi
