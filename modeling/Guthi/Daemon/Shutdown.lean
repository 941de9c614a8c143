import Guthi.FileTrack.InnerLoop
import Guthi.Lib.Run

/-!
# Guthi — the end of the daemon

How `main` of `daemon/runtime.cpp` comes to its end: it leaves its loop when `ReadNonBlocking`
returns -1, calls `StopListening` and joins the tracking thread, which looks at the flag between
two batches of events (`ListenForChanges` of `file_track_linux.cpp`). All events are of tracked
files, so they have no name.

* `readNonBlocking` — it returns -1 only if the `ioctl` fails. For a client that is gone there are
  0 bytes to read, and `main` stays in its loop;
* `Shutdown.step` — the two threads, round by round;
* `can_end_iff` — from which states the daemon can still end while the `ioctl` does not fail;
* `can_end_alone_iff` — and from which it can if no file changes any more.
-/

namespace Guthi

open Tracker BatchEvent

/-! ## The threads -/

/-- `ReadNonBlocking` of `linux_pipe.cpp`, where `ioctl(…, FIONREAD, …)` has failed or has found
`available` bytes, and `read` returns `bytesRead`. -/
def readNonBlocking (available : Option Nat) (bytesRead : Int) : Int :=
  match available with
  | none => -1
  | some 0 => 0
  -- `ReadMessage` returns 0 when `read` fails
  | some _ => if bytesRead = -1 then 0 else bytesRead

theorem readNonBlocking_eq_iff {available : Option Nat} {bytesRead : Int} :
    readNonBlocking available bytesRead = -1 ↔ available = none := by
  match available with
  | none => simp [readNonBlocking]
  | some 0 => simp [readNonBlocking]
  -- a `read` of -1 is reported as 0
  | some (n + 1) =>
    show (if bytesRead = -1 then (0 : Int) else bytesRead) = -1 ↔ _
    split_ifs with h <;> simp [h]

/-- `main`: in the loop, behind it, in `join`, or through. -/
inductive MainThread where
  | serving
  | leaving
  | joining
  | exited
deriving DecidableEq, Repr

/-- The tracking thread: at the test of the outer loop, in `read`, between two rounds of the inner
loop, or through. -/
inductive TrackingThread where
  | testing
  | reading
  | walking (loop : InnerLoop)
  | returned
deriving DecidableEq, Repr

structure Shutdown where
  main : MainThread := .serving
  tracking : TrackingThread := .testing
  stopListening : Bool := false
deriving DecidableEq, Repr

namespace Shutdown

/-- A step of one of the threads. `visit` is a round of the inner loop, on the tracker as it is
then and with what `inotify_add_watch` answers. -/
inductive Action where
  | round (available : Option Nat) (bytesRead : Int)
  | stopListening
  | join
  | test
  | receive (batch : List BatchEvent)
  | readFails
  | visit (t : Tracker) (answer : TrackHandle) (stale : Bytes)
  | leave

/-- A step that is `none` cannot be taken, or an assertion of it ends the process. -/
def step (s : Shutdown) : Action → Option Shutdown
  | .round available bytesRead =>
    if s.main = .serving then
      some (if readNonBlocking available bytesRead = -1 then { s with main := .leaving } else s)
    else none
  | .stopListening =>
    if s.main = .leaving then some { s with main := .joining, stopListening := true } else none
  | .join =>
    if s.main = .joining ∧ s.tracking = .returned then some { s with main := .exited } else none
  | .test =>
    if s.tracking = .testing then
      some { s with tracking := if s.stopListening then .returned else .reading }
    else none
  | .receive batch =>
    -- `assert(bytes_read < 1024)`
    if s.tracking = .reading ∧ (batch.flatMap encode).length < 1024 then
      some { s with tracking := .walking { batch } }
    else none
  -- with -1 the inner loop has nothing to do
  | .readFails => if s.tracking = .reading then some { s with tracking := .testing } else none
  | .visit t answer stale =>
    match s.tracking with
    | .walking loop =>
      if loop.goesOn then
        (loop.event stale).bind fun event =>
          (t.handleEvent event.wd event.len answer).map fun _ =>
            { s with tracking := .walking (loop.next event) }
      else none
    | _ => none
  | .leave =>
    match s.tracking with
    | .walking loop => if loop.goesOn then none else some { s with tracking := .testing }
    | _ => none

/-- The events are of tracked files. -/
def Action.OfFiles : Action → Prop
  | .receive batch => batch ≠ [] ∧ ∀ e ∈ batch, e.name = []
  | _ => True

/-- No two events are read at once. -/
def Action.Single : Action → Prop
  | .receive batch => batch.length = 1
  | _ => True

/-- A round of `main` in which the `ioctl` fails. -/
def Action.IoctlFails : Action → Prop
  | .round available _ => available = none
  | _ => False

/-- What the daemon does while its calls of the system do not fail. -/
def Action.Works (a : Action) : Prop := a.OfFiles ∧ ¬ a.IoctlFails

/-- Besides, nothing comes from the kernel. -/
def Action.Alone : Action → Prop
  | .round available _ => available ≠ none
  | .receive _ => False
  | .readFails => False
  | _ => True

/-! ## What can be said of every state -/

/-- The inner loop is at a batch that it will not come to the end of. -/
def Hung (s : Shutdown) : Prop := ∃ loop, s.tracking = .walking loop ∧ 2 ≤ loop.batch.length

structure Sound (s : Shutdown) : Prop where
  walking : ∀ loop, s.tracking = .walking loop → loop.batch ≠ [] ∧ loop.Nameless
  joining : s.main = .joining → s.stopListening = true
  exited : s.main = .exited → s.tracking = .returned

variable {s s' : Shutdown} {a : Action} {actions : List Action}

theorem sound_start : Sound {} where
  walking _ h := by cases h
  joining h := by cases h
  exited h := by cases h

/-- All that a step can be. -/
inductive Moves (s : Shutdown) : Action → Shutdown → Prop
  | stays {available : Option Nat} {bytesRead : Int} (hmain : s.main = .serving)
      (havailable : available ≠ none) : Moves s (.round available bytesRead) s
  | fails {bytesRead : Int} (hmain : s.main = .serving) :
      Moves s (.round none bytesRead) { s with main := .leaving }
  | stopListening (hmain : s.main = .leaving) :
      Moves s .stopListening { s with main := .joining, stopListening := true }
  | join (hmain : s.main = .joining) (htracking : s.tracking = .returned) :
      Moves s .join { s with main := .exited }
  | test (htracking : s.tracking = .testing) :
      Moves s .test { s with tracking := if s.stopListening then .returned else .reading }
  | receive {batch : List BatchEvent} (htracking : s.tracking = .reading) :
      Moves s (.receive batch) { s with tracking := .walking { batch } }
  | readFails (htracking : s.tracking = .reading) :
      Moves s .readFails { s with tracking := .testing }
  | visit {loop : InnerLoop} {event : InotifyEvent} {t : Tracker} {answer : TrackHandle}
      {stale : Bytes} (htracking : s.tracking = .walking loop) (hgo : loop.goesOn = true)
      (hevent : loop.event stale = some event) :
      Moves s (.visit t answer stale) { s with tracking := .walking (loop.next event) }
  | leave {loop : InnerLoop} (htracking : s.tracking = .walking loop) (hgo : loop.goesOn = false) :
      Moves s .leave { s with tracking := .testing }

theorem moves_of_step (h : s.step a = some s') : s.Moves a s' := by
  cases a with
  -- `main` leaves its loop on -1 alone
  | round available bytesRead =>
    obtain ⟨hmain, h⟩ := Option.ite_none_right_eq_some.mp h
    split_ifs at h with hreturns
    · cases h
      obtain rfl := readNonBlocking_eq_iff.mp hreturns
      exact .fails hmain
    · cases h
      exact .stays hmain fun havailable => hreturns (readNonBlocking_eq_iff.mpr havailable)
  | stopListening =>
    obtain ⟨hmain, ⟨⟩⟩ := Option.ite_none_right_eq_some.mp h
    exact .stopListening hmain
  | join =>
    obtain ⟨⟨hmain, htracking⟩, ⟨⟩⟩ := Option.ite_none_right_eq_some.mp h
    exact .join hmain htracking
  | test =>
    obtain ⟨htracking, ⟨⟩⟩ := Option.ite_none_right_eq_some.mp h
    exact .test htracking
  | receive batch =>
    obtain ⟨⟨htracking, _⟩, ⟨⟩⟩ := Option.ite_none_right_eq_some.mp h
    exact .receive htracking
  | readFails =>
    obtain ⟨htracking, ⟨⟩⟩ := Option.ite_none_right_eq_some.mp h
    exact .readFails htracking
  -- a round of the inner loop, at the event of its position
  | visit t answer stale =>
    rw [step] at h
    cases htracking : s.tracking with
    | walking loop =>
      simp only [htracking] at h
      obtain ⟨hgo, h⟩ := Option.ite_none_right_eq_some.mp h
      obtain ⟨event, hevent, h⟩ := Option.bind_eq_some_iff.mp h
      obtain ⟨_, _, rfl⟩ := Option.map_eq_some_iff.mp h
      exact .visit htracking hgo hevent
    | testing => simp [htracking] at h
    | reading => simp [htracking] at h
    | returned => simp [htracking] at h
  | leave =>
    rw [step] at h
    cases htracking : s.tracking with
    | walking loop =>
      simp only [htracking] at h
      obtain ⟨hgo, ⟨⟩⟩ := Option.ite_none_left_eq_some.mp h
      exact .leave htracking (Bool.eq_false_iff.mpr hgo)
    | testing => simp [htracking] at h
    | reading => simp [htracking] at h
    | returned => simp [htracking] at h

/-- A tracking thread that is not through keeps `main` from being so. -/
theorem Sound.not_exited (hs : s.Sound) (h : s.tracking ≠ .returned) : s.main ≠ .exited :=
  fun hexited => h (hs.exited hexited)

theorem Sound.step (hs : s.Sound) (ha : a.OfFiles) (h : s.step a = some s') : s'.Sound := by
  -- only the tracking thread starts and ends a walk
  cases moves_of_step h with
  | stays hmain havailable => exact hs
  | fails hmain => exact ⟨hs.walking, fun h => (by cases h), fun h => (by cases h)⟩
  | stopListening hmain => exact ⟨hs.walking, fun _ => rfl, fun h => (by cases h)⟩
  | join hmain htracking => exact ⟨hs.walking, fun h => (by cases h), fun _ => htracking⟩
  | test htracking =>
    refine ⟨fun loop h => ?_, hs.joining, fun h => absurd h (hs.not_exited (by simp [htracking]))⟩
    dsimp only at h
    split_ifs at h
  | receive htracking =>
    refine ⟨fun loop h => ?_, hs.joining, fun h => absurd h (hs.not_exited (by simp [htracking]))⟩
    cases h
    exact ⟨ha.1, InnerLoop.nameless_start ha.2⟩
  | readFails htracking =>
    refine ⟨fun loop h => (by cases h), hs.joining, fun h => ?_⟩
    exact absurd h (hs.not_exited (by simp [htracking]))
  | @visit loop event t answer stale htracking hgo hevent =>
    refine ⟨fun loop' h => ?_, hs.joining, fun h => absurd h (hs.not_exited (by simp [htracking]))⟩
    cases h
    obtain ⟨hne, hnameless⟩ := hs.walking loop htracking
    refine ⟨by rwa [InnerLoop.next_batch], ?_⟩
    -- what the round has visited is one of the events
    obtain ⟨e, rest, hleft⟩ := List.exists_cons_of_ne_nil (hnameless.goesOn_iff.mp hgo)
    cases hevent.symm.trans (hnameless.event_eq hleft stale)
    exact hnameless.next (hnameless.names e (InnerLoop.mem_of_left hleft))
  | leave htracking hgo =>
    refine ⟨fun loop h => (by cases h), hs.joining, fun h => ?_⟩
    exact absurd h (hs.not_exited (by simp [htracking]))

theorem not_hung_of (h : ∀ loop, s.tracking ≠ .walking loop) : ¬ s.Hung := by
  rintro ⟨loop, hwalking, _⟩
  exact h loop hwalking

/-- The loop that does not end is the only thing that a step cannot mend, and only a batch of
several events brings it about. -/
theorem not_hung_step_iff (hs : s.Sound) (ha : a.OfFiles) (h : s.step a = some s') :
    ¬ s'.Hung ↔ ¬ s.Hung ∧ a.Single := by
  cases moves_of_step h with
  | stays hmain havailable => exact (and_iff_left trivial).symm
  | fails hmain => exact (and_iff_left trivial).symm
  | stopListening hmain => exact (and_iff_left trivial).symm
  | join hmain htracking => exact (and_iff_left trivial).symm
  | test htracking =>
    refine iff_of_true (not_hung_of ?_) ⟨not_hung_of (by simp [htracking]), trivial⟩
    intro loop hwalking
    dsimp only at hwalking
    split_ifs at hwalking
  | @receive batch htracking =>
    obtain ⟨hne, hnames⟩ := ha
    have hpos : 0 < batch.length := List.length_pos_iff.mpr hne
    rw [and_iff_right (not_hung_of (by simp [htracking]))]
    constructor
    · -- two events: the walk over them is entered, and is not left again
      intro hnot
      by_contra hsingle
      have htwo : 2 ≤ batch.length := by
        have hone : batch.length ≠ 1 := hsingle
        omega
      exact hnot ⟨{ batch }, rfl, htwo⟩
    · rintro hsingle ⟨loop, hwalking, htwo⟩
      cases hwalking
      have hone : batch.length = 1 := hsingle
      have htwo' : 2 ≤ batch.length := htwo
      omega
  | readFails htracking =>
    exact iff_of_true (not_hung_of (by simp)) ⟨not_hung_of (by simp [htracking]), trivial⟩
  -- a round keeps the batch
  | @visit loop event t answer stale htracking hgo hevent =>
    refine Iff.trans (not_congr ?_) (and_iff_left trivial).symm
    rw [Hung, Hung, htracking]
    simp
  | @leave loop htracking hgo =>
    refine iff_of_true (not_hung_of (by simp)) ⟨?_, trivial⟩
    rintro ⟨loop', hwalking, htwo⟩
    cases htracking.symm.trans hwalking
    rw [(hs.walking loop htracking).2.goesOn_of_two htwo] at hgo
    cases hgo

/-- `main` leaves its loop when the `ioctl` fails, and does not come back. -/
theorem left_step_iff (h : s.step a = some s') :
    s'.main ≠ .serving ↔ s.main ≠ .serving ∨ a.IoctlFails := by
  cases moves_of_step h with
  | stays hmain havailable => exact (or_iff_left havailable).symm
  | fails hmain => exact iff_of_true (by simp) (Or.inr rfl)
  | stopListening hmain => exact iff_of_true (by simp) (Or.inl (by simp [hmain]))
  | join hmain htracking => exact iff_of_true (by simp) (Or.inl (by simp [hmain]))
  | test htracking => exact (or_iff_left id).symm
  | receive htracking => exact (or_iff_left id).symm
  | readFails htracking => exact (or_iff_left id).symm
  | visit htracking hgo hevent => exact (or_iff_left id).symm
  | leave htracking hgo => exact (or_iff_left id).symm

/-- What a run has brought about, from its steps. -/
theorem run_iff (hs : s.Sound) (hfiles : ∀ a ∈ actions, a.OfFiles)
    (hrun : actions.foldlM step s = some s') :
    s'.Sound ∧ (¬ s'.Hung ↔ ¬ s.Hung ∧ ∀ a ∈ actions, a.Single) ∧
      (s'.main ≠ .serving ↔ s.main ≠ .serving ∨ ∃ a ∈ actions, a.IoctlFails) := by
  induction actions generalizing s with
  | nil =>
    cases hrun
    exact ⟨hs, by simp, by simp⟩
  | cons a actions ih =>
    rw [List.forall_mem_cons] at hfiles
    rw [List.foldlM_cons] at hrun
    -- the first step, and the run behind it
    obtain ⟨s₁, hstep, hrest⟩ := Option.bind_eq_some_iff.mp hrun
    obtain ⟨hs', hhung, hleft⟩ := ih (hs.step hfiles.1 hstep) hfiles.2 hrest
    refine ⟨hs', ?_, ?_⟩
    · rw [hhung, not_hung_step_iff hs hfiles.1 hstep, List.forall_mem_cons, and_assoc]
    · simp only [hleft, left_step_iff hstep, List.mem_cons, exists_eq_or_imp, or_assoc]

/-- The same for a run of the daemon from its start. -/
theorem run_from_start (hfiles : ∀ a ∈ actions, a.OfFiles)
    (hrun : actions.foldlM step {} = some s) :
    s.Sound ∧ (¬ s.Hung ↔ ∀ a ∈ actions, a.Single) ∧
      (s.main ≠ .serving ↔ ∃ a ∈ actions, a.IoctlFails) := by
  obtain ⟨hs, hhung, hleft⟩ := run_iff sound_start hfiles hrun
  rw [and_iff_right (not_hung_of (by simp))] at hhung
  rw [or_iff_right (by simp)] at hleft
  exact ⟨hs, hhung, hleft⟩

/-! ## The way out -/

theorem Action.Alone.works (ha : a.Alone) : a.Works := by
  cases a with
  | round available bytesRead => exact ⟨trivial, ha⟩
  | receive batch => cases ha
  | readFails => cases ha
  | stopListening => exact ⟨trivial, id⟩
  | join => exact ⟨trivial, id⟩
  | test => exact ⟨trivial, id⟩
  | visit t answer stale => exact ⟨trivial, id⟩
  | leave => exact ⟨trivial, id⟩

variable {main : MainThread} {tracking : TrackingThread} {stop : Bool} {loop : InnerLoop}
  {P : Shutdown → Prop}

/-- The thread leaves the inner loop when it has no event left. -/
theorem canReach_of_left (hnameless : loop.Nameless) (hleft : loop.left = [])
    (h : CanReach step Action.Alone P ⟨main, .testing, stop⟩) :
    CanReach step Action.Alone P ⟨main, .walking loop, stop⟩ := by
  have hgo : loop.goesOn ≠ true := fun hgo => hnameless.goesOn_iff.mp hgo hleft
  exact .next (a := .leave) trivial (if_neg hgo) h

/-- It comes back from a batch of one event, which is handled on whatever tracker. -/
theorem canReach_of_single (hnameless : loop.Nameless) (hsingle : loop.batch.length ≤ 1)
    (h : CanReach step Action.Alone P ⟨main, .testing, stop⟩) :
    CanReach step Action.Alone P ⟨main, .walking loop, stop⟩ := by
  -- the event is handled, or still to be visited
  match hleft : loop.left with
  | [] => exact canReach_of_left hnameless hleft h
  | e :: rest =>
    have hname : e.name = [] := hnameless.names e (InnerLoop.mem_of_left hleft)
    have hgo : loop.goesOn = true := hnameless.goesOn_iff.mpr (by simp [hleft])
    obtain ⟨t', ht'⟩ : ∃ t', Tracker.handleEvent {} e.header.wd e.header.len 0 = some t' :=
      handleEvent_isSome (show (0 : TrackHandle) ≤ 0 by decide)
    have hstep : Shutdown.step ⟨main, .walking loop, stop⟩ (.visit {} 0 []) =
        some ⟨main, .walking (loop.next e.header), stop⟩ := by
      rw [step]
      dsimp only
      rw [if_pos hgo, hnameless.event_eq hleft, Option.bind_some, ht', Option.map_some]
    refine .next (a := .visit {} 0 []) trivial hstep ?_
    exact canReach_of_left (hnameless.next hname) (InnerLoop.left_next_single hsingle hname) h

/-- After `StopListening`: a thread that is not in `read` comes to the flag. -/
theorem exits_of_joining (hs : Sound ⟨.joining, tracking, true⟩)
    (hhung : ¬ Hung ⟨.joining, tracking, true⟩) (hreading : tracking ≠ .reading) :
    CanReach step Action.Alone (fun s => s.main = .exited) ⟨.joining, tracking, true⟩ := by
  -- the last step, and what leads to it
  have hreturned : CanReach step Action.Alone (fun s => s.main = .exited)
      ⟨.joining, .returned, true⟩ :=
    .next (a := .join) trivial rfl (.here rfl)
  have htesting : CanReach step Action.Alone (fun s => s.main = .exited)
      ⟨.joining, .testing, true⟩ :=
    .next (a := .test) trivial rfl hreturned
  cases tracking with
  | returned => exact hreturned
  | testing => exact htesting
  | reading => exact absurd rfl hreading
  | walking loop =>
    have hsingle : ¬ 2 ≤ loop.batch.length := fun htwo => hhung ⟨loop, rfl, htwo⟩
    exact canReach_of_single (hs.walking loop rfl).2 (by omega) htesting

theorem exits_alone (hs : s.Sound) (hhung : ¬ s.Hung) (hleft : s.main ≠ .serving)
    (hreading : s.tracking ≠ .reading) :
    CanReach step Action.Alone (fun s => s.main = .exited) s := by
  obtain ⟨main, tracking, stop⟩ := s
  have hjoining : CanReach step Action.Alone (fun s => s.main = .exited)
      ⟨.joining, tracking, true⟩ :=
    exits_of_joining ⟨hs.walking, fun _ => rfl, fun h => (by cases h)⟩ hhung hreading
  -- `StopListening`, `join`, and the end
  cases main with
  | serving => exact absurd rfl hleft
  | leaving => exact .next (a := .stopListening) trivial rfl hjoining
  | joining =>
    obtain rfl : stop = true := hs.joining rfl
    exact hjoining
  | exited => exact .here rfl

theorem not_exits_of_hung (hs : s.Sound) (hhung : s.Hung) :
    ¬ CanReach step Action.OfFiles (fun s => s.main = .exited) s := by
  -- the walk is never left, so the thread never returns
  have hkept : ∀ s a s', s.Sound ∧ s.Hung → a.OfFiles → step s a = some s' →
      s'.Sound ∧ s'.Hung := by
    rintro s a s' ⟨hs, hhung⟩ ha hstep
    refine ⟨hs.step ha hstep, ?_⟩
    by_contra hnot
    exact ((not_hung_step_iff hs ha hstep).mp hnot).1 hhung
  refine not_canReach hkept ?_ ⟨hs, hhung⟩
  rintro s ⟨hs, loop, hwalking, _⟩ hexited
  cases (hs.exited hexited).symm.trans hwalking

/-- As long as the `ioctl` does not fail, `main` goes round in its loop. -/
theorem not_exits_of_serving (hserving : s.main = .serving) :
    ¬ CanReach step Action.Works (fun s => s.main = .exited) s := by
  have hkept : ∀ s a s', s.main = .serving → a.Works → step s a = some s' →
      s'.main = .serving := by
    intro s a s' hserving ha hstep
    by_contra hleft
    rcases (left_step_iff hstep).mp hleft with hbefore | hfails
    · exact hbefore hserving
    · exact ha.2 hfails
  refine not_canReach hkept ?_ hserving
  intro s hserving hexited
  cases hserving.symm.trans hexited

theorem not_exits_of_reading (hs : s.Sound) (hreading : s.tracking = .reading) :
    ¬ CanReach step Action.Alone (fun s => s.main = .exited) s := by
  -- `StopListening` does not wake the thread
  have hkept : ∀ s a s', s.Sound ∧ s.tracking = .reading → a.Alone → step s a = some s' →
      s'.Sound ∧ s'.tracking = .reading := by
    rintro s a s' ⟨hs, hreading⟩ ha hstep
    refine ⟨hs.step ha.works.1 hstep, ?_⟩
    cases moves_of_step hstep with
    | stays hmain havailable => exact hreading
    | fails hmain => exact hreading
    | stopListening hmain => exact hreading
    | join hmain htracking => exact hreading
    | test htracking => cases htracking.symm.trans hreading
    | receive htracking => cases ha
    | readFails htracking => cases ha
    | visit htracking hgo hevent => cases htracking.symm.trans hreading
    | leave htracking hgo => cases htracking.symm.trans hreading
  refine not_canReach hkept ?_ ⟨hs, hreading⟩
  rintro s ⟨hs, hreading⟩ hexited
  cases (hs.exited hexited).symm.trans hreading

/-- From where a run has come to, the daemon can end while the `ioctl` does not fail exactly if it
has failed before and no two changes were ever read at once. -/
theorem can_end_iff (hfiles : ∀ a ∈ actions, a.OfFiles) (hrun : actions.foldlM step {} = some s) :
    CanReach step Action.Works (fun s => s.main = .exited) s ↔
      (∃ a ∈ actions, a.IoctlFails) ∧ ∀ a ∈ actions, a.Single := by
  obtain ⟨hs, hhung, hleft⟩ := run_from_start hfiles hrun
  rw [← hhung, ← hleft]
  constructor
  · intro h
    refine ⟨fun hserving => not_exits_of_serving hserving h, fun hhung => ?_⟩
    exact not_exits_of_hung hs hhung (h.mono fun _ ha => ha.1)
  · -- unless the thread waits in `read`, no change is needed
    rintro ⟨hleft, hhung⟩
    by_cases hreading : s.tracking = .reading
    · -- one more change lets the thread come back from `read`
      have hstep : s.step (.receive [exampleEvent]) =
          some { s with tracking := .walking { batch := [exampleEvent] } } :=
        if_pos ⟨hreading, by decide⟩
      have hfile : (Action.receive [exampleEvent]).OfFiles := ⟨by simp, by simp [exampleEvent]⟩
      refine .next ⟨hfile, id⟩ hstep (CanReach.mono (fun _ => Action.Alone.works) ?_)
      exact exits_alone (hs.step hfile hstep)
        ((not_hung_step_iff hs hfile hstep).mpr ⟨hhung, rfl⟩) hleft (by simp)
    · exact (exits_alone hs hhung hleft hreading).mono fun _ => Action.Alone.works

/-- The client has closed its end, a file changes, and only then the `ioctl` fails. -/
theorem can_end_iff_client_gone :
    CanReach step Action.Works (fun s => s.main = .exited)
        ⟨.leaving, .walking { batch := [exampleEvent] }, false⟩ ↔
      (∃ a ∈ [Action.round (some 0) 0, .test, .receive [exampleEvent], .round none 0],
        a.IoctlFails) ∧
      ∀ a ∈ [Action.round (some 0) 0, .test, .receive [exampleEvent], .round none 0], a.Single :=
  can_end_iff (by simp [Action.OfFiles, exampleEvent]) rfl

/-- It can end without another change exactly if, besides, the tracking thread is not in `read`:
`StopListening` does not wake it. -/
theorem can_end_alone_iff (hfiles : ∀ a ∈ actions, a.OfFiles)
    (hrun : actions.foldlM step {} = some s) :
    CanReach step Action.Alone (fun s => s.main = .exited) s ↔
      ((∃ a ∈ actions, a.IoctlFails) ∧ ∀ a ∈ actions, a.Single) ∧ s.tracking ≠ .reading := by
  obtain ⟨hs, hhung, hleft⟩ := run_from_start hfiles hrun
  rw [← hhung, ← hleft]
  constructor
  · intro h
    have hworks := h.mono fun _ => Action.Alone.works
    refine ⟨⟨fun hserving => not_exits_of_serving hserving hworks, fun hhung => ?_⟩, ?_⟩
    · exact not_exits_of_hung hs hhung (hworks.mono fun _ ha => ha.1)
    · exact fun hreading => not_exits_of_reading hs hreading h
  · rintro ⟨⟨hleft, hhung⟩, hreading⟩
    exact exits_alone hs hhung hleft hreading

/-- `main` is in `join` while the thread waits for the next change. -/
theorem can_end_alone_iff_waiting :
    CanReach step Action.Alone (fun s => s.main = .exited) ⟨.joining, .reading, true⟩ ↔
      ((∃ a ∈ [Action.test, .receive [exampleEvent], .visit {} 0 [], .leave, .test, .round none 0,
          .stopListening], a.IoctlFails) ∧
        ∀ a ∈ [Action.test, .receive [exampleEvent], .visit {} 0 [], .leave, .test, .round none 0,
          .stopListening], a.Single) ∧
      TrackingThread.reading ≠ .reading :=
  can_end_alone_iff (by simp [Action.OfFiles, exampleEvent]) rfl

end Shutdown

end Guthi
