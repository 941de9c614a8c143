import Guthi.Lib.Run

/-!
# Guthi — the Windows change listener

`filesystem/file_track.cpp`: one thread runs `FileTracker::ListenForChanges`, any number of others
call `TrackFile` and `TrackFolder`. The steps of all of them are interleaved. The locked section
of `TrackFile` is one step, and it waits while the listener holds the lock; the two flags are read
in steps of their own.

The listener keeps four arrays (`events`, `overlap`, `completed`, `read_buffer`) that are
allocated together. What they hold at one index is a `Slot`. What the listener does with the
names of changed files, and the file names that `TrackFile` records, have no part in this.
-/

namespace Guthi

abbrev DirHandle := UInt64

/-- One index of the arrays: `completed[j]`, the status in `overlap[j]`, and the number of
requests on `overlap[j]` and `read_buffer[j]` that the system has not completed. -/
structure Slot where
  completed : Bool
  pending : Bool
  outstanding : Nat
deriving DecidableEq, Repr

/-- Where the listening thread stands: `check` and `poll` are the tests of `stop_listening` of the
two loops, `testReset` and `lock` the tests of `reset_tracking` behind them, the latter under the
lock. An iteration over `tracked_directory` has visited as many directories as its index says, and
has so many ahead. -/
inductive ListenPc where
  | check
  | testReset
  | measure
  | allocate (dirCount : Nat)
  | clear
  | begin
  | queue (c ahead : Nat)
  | poll
  | lock
  | visit (j ahead : Nat) (relisten : Bool)
  | stopped
deriving DecidableEq, Repr

/-- A directory is put where an iteration still has to come by. -/
def ListenPc.lengthen : ListenPc → ListenPc
  | .queue c ahead => .queue c (ahead + 1)
  | .visit j ahead relisten => .visit j (ahead + 1) relisten
  | pc => pc

structure WinTracker where
  trackedDirectory : List DirHandle
  resetTracking : Bool
  stopListening : Bool
  slots : List Slot
  pc : ListenPc
deriving DecidableEq, Repr

/-- A step of some thread or of the system: `TrackFile` for a directory that is tracked already
and for a new one, `TrackFolder`, `StopListening`, the next step of the listener, and the
completion of a request on `overlap[j]`. The table is unordered: a new directory comes to lie
ahead of an iteration that is under way, or behind it. -/
inductive WinAction where
  | trackKnown
  | trackFile (handle : DirHandle) (ahead : Bool)
  | trackFolder (handle : DirHandle) (ahead : Bool)
  | stop
  | listen
  | complete (j : Nat)
deriving DecidableEq, Repr

namespace WinTracker

/-- `ListenForChanges` is called when these directories are tracked. -/
def start (trackedDirectory : List DirHandle) : WinTracker where
  trackedDirectory := trackedDirectory
  resetTracking := true
  stopListening := false
  slots := []
  pc := .check

/-- `tracked_directory.insert` -/
def insert (s : WinTracker) (handle : DirHandle) (ahead : Bool) : WinTracker :=
  if handle ∈ s.trackedDirectory then s
  else { s with
    trackedDirectory := handle :: s.trackedDirectory
    pc := if ahead then s.pc.lengthen else s.pc }

def locked (s : WinTracker) : Bool :=
  match s.pc with
  | .visit _ _ _ => true
  | _ => false

/-- The listener's next step; `none` if it indexes an array out of bounds, or has ended. -/
def listen (s : WinTracker) : Option WinTracker :=
  match s.pc with
  | .check =>
    some { s with pc := if s.stopListening then .stopped else .testReset }
  | .testReset =>
    if s.resetTracking then some { s with slots := [], pc := .measure }
    else some { s with pc := .begin }
  | .measure => some { s with pc := .allocate s.trackedDirectory.length }
  | .allocate dirCount =>
    -- `completed[j]` is set to true and `overlap[j]` is zeroed
    some { s with slots := List.replicate dirCount ⟨true, false, 0⟩, pc := .clear }
  | .clear => some { s with resetTracking := false, pc := .begin }
  | .begin => some { s with pc := .queue 0 s.trackedDirectory.length }
  | .queue _ 0 => some { s with pc := .poll }
  | .queue c (ahead + 1) =>
    match s.slots[c]? with
    | none => none
    | some slot =>
      -- `ReadDirectoryChangesW`; `completed[c]` stays as it is
      let slot := if slot.completed then
        { slot with pending := true, outstanding := slot.outstanding + 1 } else slot
      some { s with slots := s.slots.set c slot, pc := .queue (c + 1) ahead }
  | .poll =>
    some { s with pc := if s.stopListening then .check else .lock }
  | .lock =>
    -- with a reset to come, the lock is given up again
    if s.resetTracking then some { s with pc := .check }
    else some { s with pc := .visit 0 s.trackedDirectory.length false }
  | .visit _ 0 relisten => some { s with pc := if relisten then .check else .poll }
  | .visit j (ahead + 1) relisten =>
    match s.slots[j]? with
    | none => none
    | some slot =>
      -- `GetOverlappedResult` succeeds when no request is pending
      if slot.pending then some { s with pc := .visit (j + 1) ahead relisten }
      else some { s with
        slots := s.slots.set j { slot with completed := true }
        pc := .visit (j + 1) ahead true }
  | .stopped => none

/-- The system completes a request, and the status of its `OVERLAPPED` shows it. -/
def complete (s : WinTracker) (j : Nat) : Option WinTracker :=
  match s.slots[j]? with
  | none => none
  | some slot =>
    if slot.outstanding = 0 then none
    else some { s with
      slots := s.slots.set j { slot with pending := false, outstanding := slot.outstanding - 1 } }

/-- What a step of the listener does, and where it is taken. -/
inductive Listens (s : WinTracker) : WinTracker → Prop where
  | leave : s.pc = .check → s.stopListening = true → Listens s { s with pc := .stopped }
  | stay : s.pc = .check → s.stopListening = false → Listens s { s with pc := .testReset }
  | reset : s.pc = .testReset → s.resetTracking = true →
      Listens s { s with slots := [], pc := .measure }
  | goOn : s.pc = .testReset → s.resetTracking = false → Listens s { s with pc := .begin }
  | measure : s.pc = .measure →
      Listens s { s with pc := .allocate s.trackedDirectory.length }
  | allocate (n : Nat) : s.pc = .allocate n →
      Listens s { s with slots := List.replicate n ⟨true, false, 0⟩, pc := .clear }
  | clear : s.pc = .clear → Listens s { s with resetTracking := false, pc := .begin }
  | begin : s.pc = .begin → Listens s { s with pc := .queue 0 s.trackedDirectory.length }
  | queued (c : Nat) : s.pc = .queue c 0 → Listens s { s with pc := .poll }
  | queue (c ahead : Nat) (slot : Slot) : s.pc = .queue c (ahead + 1) → s.slots[c]? = some slot →
      Listens s { s with
        slots := s.slots.set c (if slot.completed then
          { slot with pending := true, outstanding := slot.outstanding + 1 } else slot)
        pc := .queue (c + 1) ahead }
  | quit : s.pc = .poll → s.stopListening = true → Listens s { s with pc := .check }
  | poll : s.pc = .poll → s.stopListening = false → Listens s { s with pc := .lock }
  | interrupt : s.pc = .lock → s.resetTracking = true → Listens s { s with pc := .check }
  | lock : s.pc = .lock → s.resetTracking = false →
      Listens s { s with pc := .visit 0 s.trackedDirectory.length false }
  | visited (j : Nat) (relisten : Bool) : s.pc = .visit j 0 relisten →
      Listens s { s with pc := if relisten then .check else .poll }
  | skip (j ahead : Nat) (relisten : Bool) (slot : Slot) : s.pc = .visit j (ahead + 1) relisten →
      s.slots[j]? = some slot → slot.pending = true →
      Listens s { s with pc := .visit (j + 1) ahead relisten }
  | notify (j ahead : Nat) (relisten : Bool) (slot : Slot) :
      s.pc = .visit j (ahead + 1) relisten → s.slots[j]? = some slot → slot.pending = false →
      Listens s { s with
        slots := s.slots.set j { slot with completed := true }
        pc := .visit (j + 1) ahead true }

theorem listens_of_listen {s s' : WinTracker} (h : s.listen = some s') : s.Listens s' := by
  unfold listen at h
  split at h
  case h_1 hpc =>
    split_ifs at h with hstop <;> cases h
    · exact .leave hpc hstop
    · exact .stay hpc (by simpa using hstop)
  case h_2 hpc =>
    split_ifs at h with hreset <;> cases h
    · exact .reset hpc hreset
    · exact .goOn hpc (by simpa using hreset)
  case h_3 hpc =>
    cases h
    exact .measure hpc
  case h_4 n hpc =>
    cases h
    exact .allocate n hpc
  case h_5 hpc =>
    cases h
    exact .clear hpc
  case h_6 hpc =>
    cases h
    exact .begin hpc
  case h_7 c hpc =>
    cases h
    exact .queued c hpc
  case h_8 c ahead hpc =>
    split at h
    · cases h
    · next slot hslot =>
      cases h
      exact .queue c ahead slot hpc hslot
  case h_9 hpc =>
    split_ifs at h with hstop <;> cases h
    · exact .quit hpc hstop
    · exact .poll hpc (by simpa using hstop)
  case h_10 hpc =>
    split_ifs at h with hreset <;> cases h
    · exact .interrupt hpc hreset
    · exact .lock hpc (by simpa using hreset)
  case h_11 j relisten hpc =>
    cases h
    exact .visited j relisten hpc
  case h_12 j ahead relisten hpc =>
    split at h
    · cases h
    · next slot hslot =>
      split_ifs at h with hpending <;> cases h
      · exact .skip j ahead relisten slot hpc hslot hpending
      · exact .notify j ahead relisten slot hpc hslot (by simpa using hpending)
  case h_13 => cases h

def step (s : WinTracker) : WinAction → Option WinTracker
  | .trackKnown => if s.locked then none else some { s with resetTracking := true }
  | .trackFile handle ahead =>
    if s.locked then none else some { s.insert handle ahead with resetTracking := true }
  -- takes no lock, and asks for no reset
  | .trackFolder handle ahead => some (s.insert handle ahead)
  | .stop => some { s with stopListening := true }
  | .listen => s.listen
  | .complete j => s.complete j

end WinTracker

end Guthi
