import Guthi.FileTrack.InnerLoop
import Guthi.FileTrack.Inotify
import Guthi.Lib.Run

/-!
# Guthi — from a file that changes to the queue of changes

The Linux `FileTracker` together with the files that it tracks: programs write to files, remove and
replace them; the main thread is in `TrackFile`; the tracking thread reads events and goes over
them round by round in `ListenForChanges`, which registers a file again at every event, "since that
file would have been replaced by another one". Between two calls of the system by one thread the
other thread and the programs can take any steps.

* `Watching.step` — the steps of all of them, in any order;
* `Sound` — how names, descriptors and watches belong together;
* `Accounted` — every change that has not been reported has an event on its way;
* `no_change_lost` — and so it is throughout every run, as long as no read returns more than one
  event, two names never lead to one file and a tracked file that is replaced ends with that.
-/

namespace Guthi

open Tracker BatchEvent

/-! ## The system -/

/-- A call of `TrackFile` between `inotify_add_watch` and the two `insert`s. -/
structure TrackCall where
  fileName : Bytes
  fullPath : Bytes
  changeHandle : TrackHandle

/-- The name that `TrackFile` enters, up to its first NUL. -/
def TrackCall.name (call : TrackCall) : Bytes := cStr call.fileName

/-- `loop` is the inner loop, with an empty batch while the tracking thread is outside it; `tracked`
holds the names for which `TrackFile` is through, and `changed` those whose file has changed since
it was reported. -/
structure Watching where
  inotify : Inotify
  tracker : Tracker := {}
  entering : Option TrackCall := none
  loop : InnerLoop := {}
  tracked : List Bytes := []
  changed : List Bytes := []

namespace Watching

/-- No file is tracked yet. -/
def start (fileAt : Bytes → Option Inode) : Watching := { inotify := { fileAt } }

/-- The events that have been queued and not handled. -/
def inFlight (s : Watching) : List BatchEvent := s.loop.left ++ s.inotify.pending

/-- The names that inotify has been asked about. -/
def names (s : Watching) : List Bytes := (s.entering.map TrackCall.name).toList ++ s.tracked

/-- `TrackFile`, up to its call of `inotify_add_watch`. -/
def trackFile (s : Watching) (fileName fullPath : Bytes) (fresh : TrackHandle) : Option Watching :=
  if s.entering.isSome || !(cStr fullPath).contains '/'.toUInt8 then none
  else (s.inotify.addWatch (cStr fileName) fresh).map fun (inotify, changeHandle) =>
    { s with inotify, entering := some { fileName, fullPath, changeHandle } }

/-- The rest of `TrackFile`. -/
def enter (s : Watching) : Option Watching :=
  s.entering.bind fun call =>
    (s.tracker.trackFile call.fileName call.fullPath call.changeHandle).map fun tracker =>
      { s with tracker, entering := none, tracked := call.name :: s.tracked }

/-- A program writes to a file. -/
def write (s : Watching) (file : Inode) : Watching :=
  { s with
    inotify := s.inotify.write file
    changed := s.changed ++ s.tracked.filter fun n => s.inotify.fileAt n = some file }

/-- Names come to lead to other files. -/
def relink (s : Watching) (fileAt : Bytes → Option Inode) (gone : Option Inode) : Watching :=
  { s with
    inotify := s.inotify.relink fileAt gone
    changed := s.changed ++ s.tracked.filter fun n => fileAt n ≠ s.inotify.fileAt n }

/-- `read(inotify_handle, storage.buffer, 1024)`: the events have no names, so 64 fit. -/
def read (s : Watching) : Option Watching :=
  let batch := s.inotify.pending.take 64
  -- `assert(bytes_read < 1024)`
  if s.loop.batch = [] ∧ batch ≠ [] ∧ (batch.flatMap encode).length < 1024 then
    some { s with
      inotify := { s.inotify with pending := s.inotify.pending.drop 64 }
      loop := { batch } }
  else none

/-- What `inotify_add_watch` answers while the event is handled, if it is called. -/
def register (s : Watching) (event : InotifyEvent) (fresh : TrackHandle) :
    Option (Inotify × TrackHandle) :=
  if event.len = 0 then
    match s.tracker.handleToFileName event.wd with
    | some fileName => s.inotify.addWatch (cStr fileName) fresh
    | none => some (s.inotify, 0)
  else some (s.inotify, 0)

/-- A round of the inner loop. What it puts into the queue is reported. -/
def visit (s : Watching) (stale : Bytes) (fresh : TrackHandle) : Option Watching :=
  if s.loop.goesOn then
    (s.loop.event stale).bind fun event =>
      (s.register event fresh).bind fun (inotify, answer) =>
        (s.tracker.handleEvent event.wd event.len answer).map fun tracker =>
          let reported := tracker.changeInfo.drop s.tracker.changeInfo.length
          { s with
            inotify, tracker
            loop := s.loop.next event
            changed := s.changed.filter fun n => !(reported.map ChangeInfo.file).contains n }
  else none

/-- The end of the inner loop. -/
def leave (s : Watching) : Option Watching :=
  if s.loop.batch ≠ [] ∧ s.loop.goesOn = false then some { s with loop := {} } else none

/-- What may happen next: to a file, in the daemon, or in its client. -/
inductive Action where
  | trackFile (fileName fullPath : Bytes) (fresh : TrackHandle)
  | enter
  | write (file : Inode)
  | relink (fileAt : Bytes → Option Inode) (gone : Option Inode)
  | read
  | visit (stale : Bytes) (fresh : TrackHandle)
  | leave

/-- One step of the system. -/
def step (s : Watching) : Action → Option Watching
  | .trackFile fileName fullPath fresh => s.trackFile fileName fullPath fresh
  | .enter => s.enter
  | .write file => some (s.write file)
  | .relink fileAt gone => some (s.relink fileAt gone)
  | .read => s.read
  | .visit stale fresh => s.visit stale fresh
  | .leave => s.leave

/-! ## What is asked of the steps -/

/-- No two of the names lead to the same file. -/
def Apart (names : List Bytes) (fileAt : Bytes → Option Inode) : Prop :=
  ∀ m ∈ names, ∀ n ∈ names, ∀ file, fileAt m = some file → fileAt n = some file → m = n

/-- A file ends when no name leads to it any more. Besides, the tracked names stay apart; a tracked
file that is replaced or removed ends with that, as it has no other name and no program has it
open; the file of a call of `TrackFile` is left alone until the call is through; and no two events
are read at once, since the inner loop does not come to an end on them. -/
def Orderly (s : Watching) : Action → Prop
  | .trackFile fileName _ _ => Apart (cStr fileName :: s.tracked) s.inotify.fileAt
  | .relink fileAt gone =>
    (∀ n file, gone = some file → fileAt n ≠ some file) ∧
    (∀ n ∈ s.tracked, ∀ file, s.inotify.fileAt n = some file →
      fileAt n = some file ∨ gone = some file) ∧
    Apart s.names fileAt ∧
    ∀ call, s.entering = some call → fileAt call.name = s.inotify.fileAt call.name
  | .read => s.inotify.pending.length = 1
  | _ => True

/-! ## One step -/

/-- How names, descriptors and files belong together. -/
structure Sound (s : Watching) : Prop where
  inotify : s.inotify.Sound
  loop : s.loop.Nameless
  nameless : ∀ e ∈ s.inotify.pending, e.name = []
  handed : ∀ wd n, s.tracker.handleToFileName wd = some n → wd ∈ s.inotify.handed
  leads : ∀ file wd n, s.inotify.watch file = some wd → s.tracker.handleToFileName wd = some n →
    s.inotify.fileAt n = some file
  isTracked : ∀ wd n, s.tracker.handleToFileName wd = some n → n ∈ s.tracked
  cnames : ∀ n ∈ s.tracked, 0 ∉ n
  apart : Apart s.names s.inotify.fileAt
  entering : ∀ call, s.entering = some call → 0 ≤ call.changeHandle →
    ∃ file, s.inotify.fileAt call.name = some file ∧
      s.inotify.watch file = some call.changeHandle

/-- The inner loop is at one event. Each tracked name has a descriptor, which watches the file that
the name leads to or has an event on its way; and if the file has changed, there is an event that
will be taken for the name's. -/
structure Accounted (s : Watching) : Prop where
  single : s.loop.batch.length ≤ 1
  watched : ∀ n ∈ s.tracked, ∃ wd, s.tracker.handleToFileName wd = some n ∧
    ((∃ file, s.inotify.fileAt n = some file ∧ s.inotify.watch file = some wd) ∨
      ∃ e ∈ s.inFlight, e.wd = wd)
  owed : ∀ n ∈ s.changed, ∃ e ∈ s.inFlight, s.tracker.handleToFileName e.wd = some n

variable {s s' : Watching} {fileName fullPath stale : Bytes} {fresh : TrackHandle}
  {fileAt : Bytes → Option Inode} {gone : Option Inode} {file : Inode} {e : BatchEvent}

/-- Nothing is watched at the start. -/
theorem sound_start (fileAt : Bytes → Option Inode) : Sound (start fileAt) where
  inotify := Inotify.sound_start fileAt
  loop := InnerLoop.nameless_start fun _ h => by cases h
  nameless _ h := by cases h
  handed _ _ h := by cases h
  leads _ _ _ h := by cases h
  isTracked _ _ h := by cases h
  cnames _ h := by cases h
  apart _ h := by cases h
  entering _ h := by cases h

/-- Nothing has changed at the start. -/
theorem accounted_start (fileAt : Bytes → Option Inode) : Accounted (start fileAt) where
  single := Nat.zero_le 1
  watched _ h := by cases h
  owed _ h := by cases h

/-! ### `TrackFile` -/

/-- What the first half of `TrackFile` does: it asks for a watch and has not entered it yet. -/
theorem trackFile_eq (hs : s.Sound) (h : s.trackFile fileName fullPath fresh = some s') :
    s.entering = none ∧ ∃ inotify changeHandle, inotify.Sound ∧
      s.inotify.Registers (cStr fileName) inotify changeHandle ∧
      s' = { s with inotify, entering := some { fileName, fullPath, changeHandle } } := by
  unfold trackFile at h
  split_ifs at h with hbusy
  obtain ⟨⟨inotify, changeHandle⟩, hadd, rfl⟩ := Option.map_eq_some_iff.mp h
  obtain ⟨hsound, hregisters⟩ := Inotify.addWatch_registers hs.inotify hadd
  -- `main` makes one call at a time
  have hidle : s.entering = none := by
    rw [Bool.or_eq_true, not_or] at hbusy
    simpa using hbusy.1
  exact ⟨hidle, inotify, changeHandle, hsound, hregisters, rfl⟩

/-- The new descriptor leads to the named file, or to none if the call failed. -/
theorem Sound.trackFile (hs : s.Sound)
    (hapart : Apart (cStr fileName :: s.tracked) s.inotify.fileAt)
    (h : s.trackFile fileName fullPath fresh = some s') : s'.Sound := by
  obtain ⟨_, inotify, changeHandle, hsound, hreg, rfl⟩ := trackFile_eq hs h
  constructor
  case inotify => exact hsound
  case loop => exact hs.loop
  case nameless =>
    show ∀ e ∈ inotify.pending, e.name = []
    rw [hreg.pending]
    exact hs.nameless
  case handed => exact fun wd n hn => hreg.handed wd (hs.handed wd n hn)
  case leads =>
    intro file wd n hwatch hn
    show inotify.fileAt n = some file
    rw [hreg.fileAt]
    -- a descriptor that was handed out before is not the new one
    rcases hreg.fresh file wd hwatch with hold | ⟨_, hnew⟩
    · exact hs.leads file wd n hold hn
    · exact absurd (hs.handed wd n hn) hnew
  case isTracked => exact hs.isTracked
  case cnames => exact hs.cnames
  case apart =>
    show Apart (cStr fileName :: s.tracked) inotify.fileAt
    rw [hreg.fileAt]
    exact hapart
  case entering =>
    rintro call ⟨⟩ hnonneg
    obtain ⟨file, hfile, hwatch⟩ := hreg.leads hnonneg
    refine ⟨file, ?_, hwatch⟩
    show inotify.fileAt (cStr fileName) = some file
    rw [hreg.fileAt]
    exact hfile

/-- No name is entered yet, and no event is lost. -/
theorem Accounted.trackFile (hs : s.Sound) (ha : s.Accounted)
    (h : s.trackFile fileName fullPath fresh = some s') : s'.Accounted := by
  obtain ⟨_, inotify, changeHandle, _, hreg, rfl⟩ := trackFile_eq hs h
  have hflight : ∀ e ∈ s.inFlight, e ∈ s.loop.left ++ inotify.pending := by
    rw [hreg.pending]
    exact fun _ he => he
  constructor
  case single => exact ha.single
  case watched =>
    intro n hn
    obtain ⟨wd, hwd, ⟨file, hfile, hwatch⟩ | ⟨e, he, rfl⟩⟩ := ha.watched n hn
    · -- an old watch is still there
      refine ⟨wd, hwd, Or.inl ⟨file, ?_, hreg.kept file wd hwatch⟩⟩
      show inotify.fileAt n = some file
      rw [hreg.fileAt]
      exact hfile
    · exact ⟨e.wd, hwd, Or.inr ⟨e, hflight e he, rfl⟩⟩
  case owed =>
    intro n hn
    obtain ⟨e, he, hwd⟩ := ha.owed n hn
    exact ⟨e, hflight e he, hwd⟩

/-- What the second half of `TrackFile` does: an entry under the descriptor, unless it has one. -/
theorem enter_eq (h : s.enter = some s') : ∃ call tracker, s.entering = some call ∧
    0 ≤ call.changeHandle ∧ tracker.handleToFileName =
      insertNew s.tracker.handleToFileName call.changeHandle call.name ∧
    s.tracker.trackFile call.fileName call.fullPath call.changeHandle = some tracker ∧
    s' = { s with tracker, entering := none, tracked := call.name :: s.tracked } := by
  obtain ⟨call, hcall, h⟩ := Option.bind_eq_some_iff.mp h
  obtain ⟨tracker, htrack, rfl⟩ := Option.map_eq_some_iff.mp h
  obtain ⟨_, hmaps, _⟩ := Tracker.trackFile_eq htrack
  -- the descriptor is not negative and the path has a slash
  have haccepts := (trackFile_isSome_iff ..).mp (Option.isSome_iff_exists.mpr ⟨tracker, htrack⟩)
  exact ⟨call, tracker, hcall, haccepts.2, hmaps, htrack, rfl⟩

/-- The name that is entered leads to the file under its descriptor. -/
theorem Sound.enter (hs : s.Sound) (h : s.enter = some s') : s'.Sound := by
  obtain ⟨call, tracker, hcall, hnonneg, hmaps, _, rfl⟩ := enter_eq h
  obtain ⟨file, hfile, hwatch⟩ := hs.entering call hcall hnonneg
  constructor
  case inotify => exact hs.inotify
  case loop => exact hs.loop
  case nameless => exact hs.nameless
  case handed =>
    show ∀ wd n, tracker.handleToFileName wd = some n → wd ∈ s.inotify.handed
    rw [hmaps]
    exact forall_insertNew hs.handed (hs.inotify.handed file _ hwatch)
  case leads =>
    show ∀ file wd n, s.inotify.watch file = some wd → tracker.handleToFileName wd = some n →
      s.inotify.fileAt n = some file
    rw [hmaps]
    intro f wd n hf hn
    refine forall_insertNew (P := fun wd n => s.inotify.watch f = some wd →
      s.inotify.fileAt n = some f) (fun wd n hn hf => hs.leads f wd n hf hn) (fun hf => ?_)
      wd n hn hf
    -- the descriptor is the one of this file only
    rw [hs.inotify.injective f file _ hf hwatch]
    exact hfile
  case isTracked =>
    show ∀ wd n, tracker.handleToFileName wd = some n → n ∈ call.name :: s.tracked
    rw [hmaps]
    exact forall_insertNew (fun wd n hn => List.mem_cons_of_mem _ (hs.isTracked wd n hn))
      List.mem_cons_self
  case cnames =>
    show ∀ n ∈ call.name :: s.tracked, 0 ∉ n
    exact List.forall_mem_cons.mpr ⟨zero_notMem_cStr _, hs.cnames⟩
  case apart =>
    have hnames : s.names = call.name :: s.tracked := by rw [names, hcall]; rfl
    show Apart (call.name :: s.tracked) s.inotify.fileAt
    rw [← hnames]
    exact hs.apart
  case entering => exact fun _ h => by cases h

/-- The new name is covered by its watch, under the old entry if the descriptor had one. -/
theorem Accounted.enter (hs : s.Sound) (ha : s.Accounted) (h : s.enter = some s') :
    s'.Accounted := by
  obtain ⟨call, tracker, hcall, hnonneg, hmaps, _, rfl⟩ := enter_eq h
  obtain ⟨file, hfile, hwatch⟩ := hs.entering call hcall hnonneg
  have hstays : ∀ wd n, s.tracker.handleToFileName wd = some n →
      tracker.handleToFileName wd = some n := by
    intro wd n hn
    rw [hmaps]
    exact insertNew_stays hn
  constructor
  case single => exact ha.single
  case watched =>
    show ∀ n ∈ call.name :: s.tracked, _
    refine List.forall_mem_cons.mpr ⟨?_, fun n hn => ?_⟩
    · refine ⟨call.changeHandle, ?_, Or.inl ⟨file, hfile, hwatch⟩⟩
      -- `insert` keeps an old entry
      cases hold : s.tracker.handleToFileName call.changeHandle with
      | none =>
        show tracker.handleToFileName call.changeHandle = some call.name
        rw [hmaps]
        exact insertNew_self_of_none hold
      | some m =>
        -- the descriptor is taken for a name that leads to the same file
        have hm : m ∈ s.names := List.mem_append_right _ (hs.isTracked _ m hold)
        have hname : call.name ∈ s.names := by
          rw [names, hcall]
          exact List.mem_cons_self
        have hsame : m = call.name :=
          hs.apart m hm call.name hname file (hs.leads file _ m hwatch hold) hfile
        rw [← hsame]
        exact hstays _ m hold
    · obtain ⟨wd, hwd, hcovers⟩ := ha.watched n hn
      exact ⟨wd, hstays wd n hwd, hcovers⟩
  case owed =>
    intro n hn
    obtain ⟨e, he, hwd⟩ := ha.owed n hn
    exact ⟨e, he, hstays e.wd n hwd⟩

/-! ### Files -/

/-- What has been read or waits is still on its way when more events are queued. -/
theorem inFlight_subset {pending : List BatchEvent} {wd : Option TrackHandle}
    (h : Inotify.Hears s.inotify.pending pending wd) :
    ∀ e ∈ s.inFlight, e ∈ s.loop.left ++ pending := by
  intro e he
  rcases List.mem_append.mp he with hread | hpending
  · exact List.mem_append_left _ hread
  · exact List.mem_append_right _ (h.old e hpending)

/-- The events of a watched file carry no name. -/
theorem Sound.nameless_queued (hs : s.Sound) {pending : List BatchEvent} {wd : Option TrackHandle}
    (h : Inotify.Hears s.inotify.pending pending wd) : ∀ e ∈ pending, e.name = [] := by
  intro e he
  rcases h.new e he with hold | ⟨hname, _⟩
  · exact hs.nameless e hold
  · exact hname

/-- What a write does: it queues an event, and the names of the file have changed. -/
theorem write_eq (s : Watching) (file : Inode) : ∃ pending,
    s.write file =
      { s with
        inotify := { s.inotify with pending }
        changed := s.changed ++ s.tracked.filter fun n => s.inotify.fileAt n = some file } ∧
    Inotify.Hears s.inotify.pending pending (s.inotify.watch file) := by
  obtain ⟨pending, heq, hears⟩ := s.inotify.write_eq file
  exact ⟨pending, by rw [Watching.write, heq], hears⟩

/-- What happens when names come to lead to other files: the event of the file that goes is queued,
and the watches that are left are on files that stay. -/
theorem relink_eq (s : Watching) (fileAt : Bytes → Option Inode) (gone : Option Inode) :
    ∃ watch pending,
      s.relink fileAt gone =
        { s with
          inotify := { s.inotify with fileAt, watch, pending }
          changed := s.changed ++ s.tracked.filter fun n => fileAt n ≠ s.inotify.fileAt n } ∧
      Inotify.Hears s.inotify.pending pending (gone.bind s.inotify.watch) ∧
      (∀ file, gone ≠ some file → watch file = s.inotify.watch file) ∧
      ∀ file wd, watch file = some wd → gone ≠ some file ∧ s.inotify.watch file = some wd := by
  obtain ⟨watch, pending, heq, hears, hstays, hdrops⟩ := s.inotify.relink_eq fileAt gone
  refine ⟨watch, pending, by rw [Watching.relink, heq], hears, hstays, fun file wd hwatch => ?_⟩
  have hstill : gone ≠ some file := by
    intro hgo
    rw [hdrops file hgo] at hwatch
    cases hwatch
  rw [hstays file hstill] at hwatch
  exact ⟨hstill, hwatch⟩

/-- A write only queues an event. -/
theorem Sound.write (hs : s.Sound) (file : Inode) : (s.write file).Sound := by
  obtain ⟨pending, hwrite, hears⟩ := s.write_eq file
  rw [hwrite]
  exact ⟨⟨hs.inotify.handed, hs.inotify.nonneg, hs.inotify.injective⟩, hs.loop,
    hs.nameless_queued hears, hs.handed, hs.leads, hs.isTracked, hs.cnames, hs.apart, hs.entering⟩

/-- The event of a write covers the names of the file. -/
theorem Accounted.write (ha : s.Accounted) (file : Inode) : (s.write file).Accounted := by
  obtain ⟨pending, hwrite, hears⟩ := s.write_eq file
  rw [hwrite]
  have hflight := inFlight_subset hears
  constructor
  case single => exact ha.single
  case watched =>
    intro n hn
    obtain ⟨wd, hwd, hwatch | ⟨e, he, rfl⟩⟩ := ha.watched n hn
    · -- the watches are as before
      exact ⟨wd, hwd, Or.inl hwatch⟩
    · exact ⟨e.wd, hwd, Or.inr ⟨e, hflight e he, rfl⟩⟩
  case owed =>
    intro n hn
    rcases List.mem_append.mp hn with hbefore | hnow
    · obtain ⟨e, he, hwd⟩ := ha.owed n hbefore
      exact ⟨e, hflight e he, hwd⟩
    · -- the file is watched, or there was an event for the name anyway
      obtain ⟨htracked, hfile⟩ := List.mem_filter.mp hnow
      rw [decide_eq_true_iff] at hfile
      obtain ⟨wd, hwd, ⟨f, hf, hwatch⟩ | ⟨e, he, rfl⟩⟩ := ha.watched n htracked
      · have hsame : f = file := Option.some.inj (hf.symm.trans hfile)
        obtain ⟨e, he, rfl⟩ := hears.heard wd (hsame ▸ hwatch)
        exact ⟨e, List.mem_append_right _ he, hwd⟩
      · exact ⟨e, hflight e he, hwd⟩

/-- A name leaves a file only when the file ends, and then its watch is gone too. -/
theorem Sound.relink (hs : s.Sound) (ho : s.Orderly (.relink fileAt gone)) :
    (s.relink fileAt gone).Sound := by
  obtain ⟨hgone, hends, hapart, hbusy⟩ := ho
  obtain ⟨watch, pending, hrelink, hears, hstays, hbefore⟩ := s.relink_eq fileAt gone
  rw [hrelink]
  constructor
  case inotify =>
    exact ⟨fun file wd h => hs.inotify.handed file wd (hbefore file wd h).2, hs.inotify.nonneg,
      fun f g wd hf hg => hs.inotify.injective f g wd (hbefore f wd hf).2 (hbefore g wd hg).2⟩
  case loop => exact hs.loop
  case nameless => exact hs.nameless_queued hears
  case handed => exact hs.handed
  case leads =>
    intro file wd n hwatch hn
    obtain ⟨hstill, hwatch⟩ := hbefore file wd hwatch
    exact (hends n (hs.isTracked wd n hn) file (hs.leads file wd n hwatch hn)).resolve_right hstill
  case isTracked => exact hs.isTracked
  case cnames => exact hs.cnames
  case apart => exact hapart
  case entering =>
    intro call hcall hnonneg
    obtain ⟨file, hfile, hwatch⟩ := hs.entering call hcall hnonneg
    have hsame : fileAt call.name = some file := (hbusy call hcall).trans hfile
    refine ⟨file, hsame, ?_⟩
    show watch file = some call.changeHandle
    rw [hstays file fun hgo => hgone call.name file hgo hsame]
    exact hwatch

/-- The event of the file that ended covers the names that have left it. -/
theorem Accounted.relink (ha : s.Accounted) (ho : s.Orderly (.relink fileAt gone)) :
    (s.relink fileAt gone).Accounted := by
  obtain ⟨hgone, hends, _, _⟩ := ho
  obtain ⟨watch, pending, hrelink, hears, hstays, _⟩ := s.relink_eq fileAt gone
  rw [hrelink]
  -- no event is taken away
  have hflight := inFlight_subset hears
  constructor
  case single => exact ha.single
  case watched =>
    intro n hn
    obtain ⟨wd, hwd, ⟨file, hfile, hwatch⟩ | ⟨e, he, rfl⟩⟩ := ha.watched n hn
    · refine ⟨wd, hwd, ?_⟩
      -- the file stays under its name, or it has ended
      rcases hends n hn file hfile with hsame | hgo
      · refine Or.inl ⟨file, hsame, ?_⟩
        show watch file = some wd
        rw [hstays file fun hgo => hgone n file hgo hsame]
        exact hwatch
      · obtain ⟨e, he, hewd⟩ := hears.heard wd (by rw [hgo, Option.bind_some, hwatch])
        exact Or.inr ⟨e, List.mem_append_right _ he, hewd⟩
    · exact ⟨e.wd, hwd, Or.inr ⟨e, hflight e he, rfl⟩⟩
  case owed =>
    intro n hn
    rcases List.mem_append.mp hn with hbefore | hnow
    · obtain ⟨e, he, hwd⟩ := ha.owed n hbefore
      exact ⟨e, hflight e he, hwd⟩
    · -- a file that the name has left has ended, and its watch with it
      obtain ⟨htracked, hother⟩ := List.mem_filter.mp hnow
      rw [decide_eq_true_iff] at hother
      obtain ⟨wd, hwd, ⟨file, hfile, hwatch⟩ | ⟨e, he, rfl⟩⟩ := ha.watched n htracked
      · rcases hends n htracked file hfile with hsame | hgo
        · exact absurd (hsame.trans hfile.symm) hother
        · obtain ⟨e, he, rfl⟩ := hears.heard wd (by rw [hgo, Option.bind_some, hwatch])
          exact ⟨e, List.mem_append_right _ he, hwd⟩
      · exact ⟨e, hflight e he, hwd⟩

/-! ### `ListenForChanges` -/

/-- What a read does: it takes the events that fit into the buffer. -/
theorem read_eq (h : s.read = some s') : s.loop.batch = [] ∧ s' =
    { s with
      inotify := { s.inotify with pending := s.inotify.pending.drop 64 }
      loop := { batch := s.inotify.pending.take 64 } } := by
  obtain ⟨⟨hbatch, _⟩, ⟨⟩⟩ := Option.ite_none_right_eq_some.mp h
  exact ⟨hbatch, rfl⟩

/-- Nothing is left of an empty batch. -/
theorem left_of_batch (h : s.loop.batch = []) : s.loop.left = [] := by
  rw [InnerLoop.left, h]
  split_ifs <;> rfl

/-- Reading moves events and loses none. -/
theorem inFlight_read (h : s.read = some s') : s'.inFlight = s.inFlight := by
  obtain ⟨hbatch, rfl⟩ := read_eq h
  rw [inFlight, inFlight, left_of_batch hbatch, List.nil_append]
  exact List.take_append_drop 64 s.inotify.pending

/-- The events go from the queue of the system into the batch. -/
theorem Sound.read (hs : s.Sound) (h : s.read = some s') : s'.Sound := by
  obtain ⟨_, rfl⟩ := read_eq h
  -- none of the events has a name
  have htaken : ∀ e ∈ s.inotify.pending.take 64, e.name = [] :=
    fun e he => hs.nameless e (List.mem_of_mem_take he)
  have hdropped : ∀ e ∈ s.inotify.pending.drop 64, e.name = [] :=
    fun e he => hs.nameless e (List.mem_of_mem_drop he)
  exact ⟨⟨hs.inotify.handed, hs.inotify.nonneg, hs.inotify.injective⟩,
    InnerLoop.nameless_start htaken, hdropped, hs.handed, hs.leads, hs.isTracked, hs.cnames,
    hs.apart, hs.entering⟩

/-- An orderly read brings one event. -/
theorem Accounted.read (ha : s.Accounted) (ho : s.Orderly .read) (h : s.read = some s') :
    s'.Accounted := by
  have hflight := inFlight_read h
  obtain ⟨_, rfl⟩ := read_eq h
  constructor
  case single =>
    have hone : s.inotify.pending.length = 1 := ho
    show (s.inotify.pending.take 64).length ≤ 1
    rw [List.length_take, hone]
    decide
  case watched =>
    rw [hflight]
    exact ha.watched
  case owed =>
    rw [hflight]
    exact ha.owed

/-- What leaving the inner loop does. -/
theorem leave_eq (h : s.leave = some s') :
    s.loop.batch ≠ [] ∧ s.loop.goesOn = false ∧ s' = { s with loop := {} } := by
  obtain ⟨⟨hbatch, hgo⟩, ⟨⟩⟩ := Option.ite_none_right_eq_some.mp h
  exact ⟨hbatch, hgo, rfl⟩

/-- When the inner loop does not go on, nothing is left of the batch. -/
theorem Sound.left_eq_nil (hs : s.Sound) (hgo : s.loop.goesOn = false) : s.loop.left = [] := by
  by_contra hleft
  rw [hs.loop.goesOn_iff.mpr hleft] at hgo
  cases hgo

/-- The loop ends when all that was read is handled. -/
theorem inFlight_leave (hs : s.Sound) (h : s.leave = some s') : s'.inFlight = s.inFlight := by
  obtain ⟨_, hgo, rfl⟩ := leave_eq h
  rw [inFlight, inFlight, hs.left_eq_nil hgo]
  rfl

/-- Leaving the inner loop touches nothing but the batch. -/
theorem Sound.leave (hs : s.Sound) (h : s.leave = some s') : s'.Sound := by
  obtain ⟨_, _, rfl⟩ := leave_eq h
  exact ⟨hs.inotify, InnerLoop.nameless_start fun _ he => (by cases he), hs.nameless, hs.handed,
    hs.leads, hs.isTracked, hs.cnames, hs.apart, hs.entering⟩

/-- With nothing left, leaving the inner loop loses nothing. -/
theorem Accounted.leave (hs : s.Sound) (ha : s.Accounted) (h : s.leave = some s') :
    s'.Accounted := by
  have hflight := inFlight_leave hs h
  obtain ⟨_, _, rfl⟩ := leave_eq h
  constructor
  case single => exact Nat.zero_le 1
  case watched =>
    rw [hflight]
    exact ha.watched
  case owed =>
    rw [hflight]
    exact ha.owed

/-- An event of a tracked file is handled only if the new watch is there. -/
theorem nonneg_of_handleEvent {t t' : Tracker} {wd answer : TrackHandle} {n : Bytes}
    (hn : t.handleToFileName wd = some n) (h : t.handleEvent wd 0 answer = some t') :
    0 ≤ answer := by
  rw [handleEvent, if_neg (by decide)] at h
  simp only [hn] at h
  split_ifs at h with hneg
  exact Int32.not_lt.mp hneg

/-- All that a round of the inner loop can do, at the event `e`. -/
inductive Visits (s : Watching) (e : BatchEvent) : Watching → Prop
  | known {n : Bytes} {inotify : Inotify} {wd : TrackHandle} {tracker : Tracker}
      (hname : s.tracker.handleToFileName e.wd = some n) (hsound : inotify.Sound)
      (hreg : s.inotify.Registers n inotify wd) (hnonneg : 0 ≤ wd)
      (hevent : s.tracker.handleEvent e.wd 0 wd = some tracker)
      (hmaps : tracker.handleToFileName =
        insertNew (erase s.tracker.handleToFileName e.wd) wd n) :
      Visits s e
        { s with
          inotify, tracker
          loop := s.loop.next e.header
          changed := s.changed.filter fun m => m ≠ n }
  | unknown {wd : TrackHandle} {tracker : Tracker} {changed : List Bytes}
      (hname : s.tracker.handleToFileName e.wd = none)
      (hevent : s.tracker.handleEvent e.wd 0 wd = some tracker)
      (hmaps : tracker.handleToFileName = s.tracker.handleToFileName)
      (hchanged : ∀ n ∈ changed, n ∈ s.changed) :
      Visits s e { s with tracker, loop := s.loop.next e.header, changed }

/-- A round visits the first event that is left. -/
theorem visits_of_visit (hs : s.Sound) (h : s.visit stale fresh = some s') :
    ∃ e rest, s.loop.left = e :: rest ∧ e.name = [] ∧ s.Visits e s' := by
  obtain ⟨hgo, h⟩ := Option.ite_none_right_eq_some.mp h
  obtain ⟨event, hevent, h⟩ := Option.bind_eq_some_iff.mp h
  obtain ⟨⟨inotify, answer⟩, hanswer, h⟩ := Option.bind_eq_some_iff.mp h
  obtain ⟨tracker, hhandle, rfl⟩ := Option.map_eq_some_iff.mp h
  obtain ⟨e, rest, hleft⟩ := List.exists_cons_of_ne_nil (hs.loop.goesOn_iff.mp hgo)
  have hname : e.name = [] := hs.loop.names e (InnerLoop.mem_of_left hleft)
  cases hevent.symm.trans (hs.loop.event_eq hleft stale)
  refine ⟨e, rest, hleft, hname, ?_⟩
  have hwd : e.header.wd = e.wd := rfl
  rw [InnerLoop.header_len hname, hwd] at hhandle
  rw [register, if_pos (InnerLoop.header_len hname), hwd] at hanswer
  -- the event is about a tracked file, or about none
  rcases handleEvent_cases hhandle with
    ⟨_, n, hn, _, hmaps, hqueue⟩ | ⟨hother, _, hmaps, _, _⟩
  · rw [cStr_eq_self (hs.cnames n (hs.isTracked e.wd n hn))] at hmaps
    simp only [hn] at hanswer
    rw [cStr_eq_self (hs.cnames n (hs.isTracked e.wd n hn))] at hanswer
    obtain ⟨hsound, hreg⟩ := Inotify.addWatch_registers hs.inotify hanswer
    -- the change of this file is off the list
    have hreported : (s.changed.filter fun m =>
        !((tracker.changeInfo.drop s.tracker.changeInfo.length).map ChangeInfo.file).contains m) =
        s.changed.filter fun m => m ≠ n := by
      rw [hqueue, List.drop_left]
      simp
    dsimp only
    rw [hreported]
    exact .known hn hsound hreg (nonneg_of_handleEvent hn hhandle) hhandle hmaps
  · have hnone := hother rfl
    simp only [hnone] at hanswer
    cases hanswer
    exact .unknown hnone hhandle hmaps fun n hn => (List.mem_filter.mp hn).1

/-- The round takes the old descriptor out and enters the new one for the same name. -/
theorem Sound.visit (hs : s.Sound) (hname : e.name = []) (h : s.Visits e s') : s'.Sound := by
  cases h with
  | @known n inotify wd tracker hknown hsound hreg hnonneg hevent hmaps =>
    obtain ⟨file, hfile, hwatch⟩ := hreg.leads hnonneg
    have hn : n ∈ s.tracked := hs.isTracked e.wd n hknown
    have herased : ∀ w m, erase s.tracker.handleToFileName e.wd w = some m →
        s.tracker.handleToFileName w = some m := fun w m hm => (of_erase hm).2
    constructor
    case inotify => exact hsound
    case loop => exact hs.loop.next hname
    case nameless =>
      show ∀ e ∈ inotify.pending, e.name = []
      rw [hreg.pending]
      exact hs.nameless
    case handed =>
      show ∀ w m, tracker.handleToFileName w = some m → w ∈ inotify.handed
      rw [hmaps]
      exact forall_insertNew (fun w m hm => hreg.handed w (hs.handed w m (herased w m hm)))
        (hsound.handed file wd hwatch)
    case leads =>
      intro f w m hf hm
      show inotify.fileAt m = some f
      have hm' : insertNew (erase s.tracker.handleToFileName e.wd) wd n w = some m := hmaps ▸ hm
      rw [hreg.fileAt]
      refine forall_insertNew (P := fun w m => inotify.watch f = some w →
        s.inotify.fileAt m = some f) (fun w m hm hf => ?_) (fun hf => ?_) w m hm' hf
      · -- an old watch, or the one that was just made
        rcases hreg.fresh f w hf with hold | ⟨_, hnew⟩
        · exact hs.leads f w m hold (herased w m hm)
        · exact absurd (hs.handed w m (herased w m hm)) hnew
      · rw [hsound.injective f file wd hf hwatch]
        exact hfile
    case isTracked =>
      show ∀ w m, tracker.handleToFileName w = some m → m ∈ s.tracked
      rw [hmaps]
      exact forall_insertNew (fun w m hm => hs.isTracked w m (herased w m hm)) hn
    case cnames => exact hs.cnames
    case apart =>
      show Apart s.names inotify.fileAt
      rw [hreg.fileAt]
      exact hs.apart
    case entering =>
      intro call hcall hcallNonneg
      obtain ⟨f, hf, hcallWatch⟩ := hs.entering call hcall hcallNonneg
      refine ⟨f, ?_, hreg.kept f _ hcallWatch⟩
      show inotify.fileAt call.name = some f
      rw [hreg.fileAt]
      exact hf
  -- nothing is entered and no watch is asked for
  | @unknown wd tracker changed hunknown hevent hmaps hchanged =>
    refine ⟨hs.inotify, hs.loop.next hname, hs.nameless, ?_, ?_, ?_, hs.cnames, hs.apart,
      hs.entering⟩
    · show ∀ w m, tracker.handleToFileName w = some m → w ∈ s.inotify.handed
      rw [hmaps]
      exact hs.handed
    · show ∀ f w m, s.inotify.watch f = some w → tracker.handleToFileName w = some m →
        s.inotify.fileAt m = some f
      rw [hmaps]
      exact hs.leads
    · show ∀ w m, tracker.handleToFileName w = some m → m ∈ s.tracked
      rw [hmaps]
      exact hs.isTracked

/-- With one event in the loop, it is the only one that is left. -/
theorem Accounted.left_eq (ha : s.Accounted) {rest : List BatchEvent}
    (hleft : s.loop.left = e :: rest) : s.loop.left = [e] := by
  have hsingle := ha.single
  have hlen := s.loop.length_left_le
  rw [hleft] at hlen ⊢
  cases rest with
  | nil => rfl
  | cons e' rest =>
    rw [List.length_cons, List.length_cons] at hlen
    omega

/-- The events of other names are still on their way after a round. -/
theorem mem_pending_of_ne {e' : BatchEvent} (hleft : s.loop.left = [e]) (he' : e' ∈ s.inFlight)
    (hne : s.tracker.handleToFileName e'.wd ≠ s.tracker.handleToFileName e.wd) :
    e' ∈ s.inotify.pending := by
  rw [inFlight, hleft] at he'
  rcases List.mem_cons.mp he' with rfl | hpending
  · exact absurd rfl hne
  · exact hpending

/-- A descriptor that inotify answers with for a tracked name belongs to no other name, since that
would lead to the same file. -/
theorem owner_of_registers (hs : s.Sound) {n m : Bytes} {inotify : Inotify} {wd : TrackHandle}
    (hn : n ∈ s.tracked) (hreg : s.inotify.Registers n inotify wd) (hnonneg : 0 ≤ wd)
    (hm : s.tracker.handleToFileName wd = some m) : m = n := by
  obtain ⟨file, hfile, hwatch⟩ := hreg.leads hnonneg
  have hbefore : s.inotify.watch file = some wd :=
    (hreg.fresh file wd hwatch).resolve_right fun hnew => hnew.2 (hs.handed wd m hm)
  exact hs.apart m (List.mem_append_right _ (hs.isTracked wd m hm)) n (List.mem_append_right _ hn)
    file (hs.leads file wd m hbefore hm) hfile

/-- With one event, the round that visits it reports its file and watches it again. -/
theorem Accounted.visit (hs : s.Sound) (ha : s.Accounted) (hleft : s.loop.left = [e])
    (hname : e.name = []) (h : s.Visits e s') : s'.Accounted := by
  have hnone : (s.loop.next e.header).left = [] := InnerLoop.left_next_single ha.single hname
  have hsingle : (s.loop.next e.header).batch.length ≤ 1 := by
    rw [InnerLoop.next_batch]
    exact ha.single
  cases h with
  | @known n inotify wd tracker hknown hsound hreg hnonneg hevent hmaps =>
    -- the other events in flight stay there
    have hflight : ∀ e' ∈ s.inFlight, s.tracker.handleToFileName e'.wd ≠
        s.tracker.handleToFileName e.wd →
        e' ∈ (s.loop.next e.header).left ++ inotify.pending := by
      intro e' he' hother
      rw [hnone, List.nil_append, hreg.pending]
      exact mem_pending_of_ne hleft he' hother
    -- the entries of other names are not touched
    have hstays : ∀ w m, m ≠ n → s.tracker.handleToFileName w = some m →
        s.tracker.handleToFileName w ≠ s.tracker.handleToFileName e.wd ∧
          tracker.handleToFileName w = some m := by
      intro w m hm hw
      have hother : s.tracker.handleToFileName w ≠ s.tracker.handleToFileName e.wd := by
        rw [hw, hknown]
        simpa using hm
      have hne : w ≠ e.wd := fun heq => hother (by rw [heq])
      have hkept : erase s.tracker.handleToFileName e.wd w = some m :=
        (erase_of_ne _ hne).trans hw
      refine ⟨hother, ?_⟩
      rw [hmaps]
      exact insertNew_stays hkept
    constructor
    case single => exact hsingle
    case watched =>
      intro m hm
      -- the name of the event is watched anew, the others as before
      by_cases hmn : m = n
      · subst hmn
        obtain ⟨file, hfile, hwatch⟩ := hreg.leads hnonneg
        refine ⟨wd, ?_, Or.inl ⟨file, hreg.fileAt ▸ hfile, hwatch⟩⟩
        show tracker.handleToFileName wd = some m
        rw [hmaps]
        -- `insert` keeps an entry that is there
        cases hold : erase s.tracker.handleToFileName e.wd wd with
        | none => exact insertNew_self_of_none hold
        | some m' =>
          obtain rfl := owner_of_registers hs hm hreg hnonneg (of_erase hold).2
          exact insertNew_stays hold
      · obtain ⟨w, hw, hcovers⟩ := ha.watched m hm
        obtain ⟨hother, hw'⟩ := hstays w m hmn hw
        refine ⟨w, hw', ?_⟩
        rcases hcovers with ⟨file, hfile, hwatch⟩ | ⟨e', he', rfl⟩
        · exact Or.inl ⟨file, hreg.fileAt ▸ hfile, hreg.kept file w hwatch⟩
        · exact Or.inr ⟨e', hflight e' he' hother, rfl⟩
    case owed =>
      intro m hm
      obtain ⟨hchanged, hmn⟩ := List.mem_filter.mp hm
      obtain ⟨e', he', hwd⟩ := ha.owed m hchanged
      obtain ⟨hother, hwd'⟩ := hstays e'.wd m (of_decide_eq_true hmn) hwd
      exact ⟨e', hflight e' he' hother, hwd'⟩
  -- an event about no tracked file covers no name
  | @unknown wd tracker changed hunknown hevent hmaps hchanged =>
    have hother : ∀ w m, s.tracker.handleToFileName w = some m →
        s.tracker.handleToFileName w ≠ s.tracker.handleToFileName e.wd := by
      intro w m hw
      rw [hw, hunknown]
      simp
    have hflight : ∀ e' ∈ s.inFlight, s.tracker.handleToFileName e'.wd ≠
        s.tracker.handleToFileName e.wd →
        e' ∈ (s.loop.next e.header).left ++ s.inotify.pending := by
      intro e' he' hother
      rw [hnone, List.nil_append]
      exact mem_pending_of_ne hleft he' hother
    constructor
    case single => exact hsingle
    case watched =>
      intro m hm
      obtain ⟨w, hw, hcovers⟩ := ha.watched m hm
      refine ⟨w, (congrFun hmaps w).trans hw, ?_⟩
      rcases hcovers with hwatch | ⟨e', he', rfl⟩
      · exact Or.inl hwatch
      · exact Or.inr ⟨e', hflight e' he' (hother e'.wd m hw), rfl⟩
    case owed =>
      intro m hm
      obtain ⟨e', he', hwd⟩ := ha.owed m (hchanged m hm)
      exact ⟨e', hflight e' he' (hother e'.wd m hwd),
        (congrFun hmaps e'.wd).trans hwd⟩

/-! ## Every run -/

/-- One step keeps the invariants: one case for each action. -/
theorem step_keeps {a : Action} (hs : s.Sound ∧ s.Accounted) (ho : s.Orderly a)
    (h : s.step a = some s') : s'.Sound ∧ s'.Accounted := by
  obtain ⟨hs, ha⟩ := hs
  cases a with
  | trackFile fileName fullPath fresh => exact ⟨hs.trackFile ho h, ha.trackFile hs h⟩
  | enter => exact ⟨hs.enter h, ha.enter hs h⟩
  | write file =>
    cases h
    exact ⟨hs.write file, ha.write file⟩
  | relink fileAt gone =>
    cases h
    exact ⟨hs.relink ho, ha.relink ho⟩
  | read => exact ⟨hs.read h, ha.read ho h⟩
  | visit stale fresh =>
    obtain ⟨e, rest, hleft, hname, hvisits⟩ := visits_of_visit hs h
    exact ⟨hs.visit hname hvisits, ha.visit hs (ha.left_eq hleft) hname hvisits⟩
  | leave => exact ⟨hs.leave h, ha.leave hs h⟩

/-- The invariants hold in every state of an orderly run. -/
theorem kept_throughout (fileAt : Bytes → Option Inode) {actions : List Action}
    (horderly : EachStep step Orderly (start fileAt) actions) :
    Throughout step (fun s => s.Sound ∧ s.Accounted) (start fileAt) actions :=
  throughout_of_eachStep (fun _ _ _ => step_keeps) ⟨sound_start fileAt, accounted_start fileAt⟩
    horderly

/-- The only name leads to the file. -/
def onlyAt (file : Inode) (n : Bytes) : Option Inode := if n = ascii "a" then some file else none

theorem of_onlyAt {file file' : Inode} {n : Bytes} (h : onlyAt file n = some file') :
    n = ascii "a" ∧ file = file' := by
  unfold onlyAt at h
  split_ifs at h with hn
  exact ⟨hn, Option.some.inj h⟩

/-- A file is tracked, written to, reported, and replaced by another one. -/
def replaceRun : List Action :=
  [.trackFile (ascii "a") (ascii "/a") 1, .enter, .write 1, .read, .visit [] 2, .leave,
    .relink (onlyAt 2) (some 1)]

/-- The run below is orderly: each read brings one event, and a file that is left has ended. -/
theorem orderly_replaceRun : EachStep step Orderly (start (onlyAt 1)) replaceRun := by
  have hapart : ∀ names file, Apart names (onlyAt file) := by
    intro names file m _ n _ f hm hn
    rw [(of_onlyAt hm).1, (of_onlyAt hn).1]
  -- one step after the other
  rintro s₁ ⟨⟩
  refine ⟨hapart _ 1, ?_⟩
  rintro s₂ ⟨⟩
  refine ⟨trivial, ?_⟩
  rintro s₃ ⟨⟩
  refine ⟨trivial, ?_⟩
  rintro s₄ ⟨⟩
  refine ⟨rfl, ?_⟩
  rintro s₅ ⟨⟩
  refine ⟨trivial, ?_⟩
  rintro s₆ ⟨⟩
  refine ⟨trivial, ?_⟩
  rintro s₇ ⟨⟩
  refine ⟨⟨?_, ?_, hapart _ 2, ?_⟩, trivial⟩
  · rintro n file ⟨⟩ hn
    exact absurd (of_onlyAt hn).2 (by decide)
  · intro n _ file hn
    exact Or.inr (congrArg some (of_onlyAt hn).2)
  · exact fun _ h => by cases h

/-- A tracked file that is replaced and kept under another name keeps its watch: of the new file
nothing is heard. -/
example : ([Action.trackFile (ascii "a") (ascii "/a") 1, .enter, .relink (onlyAt 2) none,
      .write 2].foldlM step (start (onlyAt 1))).map (fun s => (s.inFlight, s.changed)) =
    some ([], [ascii "a", ascii "a"]) :=
  rfl

end Watching

end Guthi
