import Guthi.FileTrack.Listen
import Guthi.Lib.Run

/-!
# Guthi — the events of a tracked directory

What `ListenForChanges` (`file_track_linux.cpp`) reports of a directory that `TrackFolder` has
registered. An event for something inside of the directory carries its name, and events with a name
are only logged; the Windows implementation reports them. An event without a name is looked up among
the files first.

* `reported_iff` — the events that are reported as they should be;
* `eventLoop_run` — a round of the loop is a run of the events that it visits;
* `listenOnce_reported_iff` — so a round reports its events exactly if each one is such an event.
-/

namespace Guthi

/-- `event->name`, for an event at `pos`; empty if the event carries none. -/
def InotifyEvent.name (storage : Bytes) (pos : Int) (event : InotifyEvent) : Bytes :=
  cStr ((storage.drop (pos.toNat + InotifyEvent.size)).take event.len.toNat)

namespace Tracker

/-- An event that the loop visits, with its name, and the answer of `inotify_add_watch` that it
finds. -/
structure Visit where
  event : InotifyEvent
  name : Bytes
  changeHandle : TrackHandle
deriving DecidableEq, Repr

def Visit.step (t : Tracker) (v : Visit) : Option Tracker :=
  t.handleEvent v.event.wd v.event.len v.changeHandle

/-- The directory's event puts one entry into the queue, with the name of the directory and the
name that the event carries; an event that belongs to nothing puts none. -/
structure Reported (t : Tracker) (v : Visit) : Prop where
  tracked : ∀ dir, t.trackedDirectory v.event.wd = some dir → ∃ t' result, v.step t = some t' ∧
    t'.changeInfo =
      t.changeInfo ++ [{ file := v.name, directory := dir.dirName, result := result }]
  unknown : t.trackedDirectory v.event.wd = none → t.handleToFileName v.event.wd = none →
    ∃ t', v.step t = some t' ∧ t'.changeInfo = t.changeInfo

/-- The event of a directory carries no name, and its watch is not that of a tracked file as well.
(An entry for a file is the same as one for a directory if both names are empty.) -/
def Reportable (t : Tracker) (v : Visit) : Prop :=
  ∀ dir, t.trackedDirectory v.event.wd = some dir → v.event.len = 0 ∧
    ∀ fileName, t.handleToFileName v.event.wd = some fileName →
      fileName = [] ∧ dir.dirName = [] ∧ 0 ≤ v.changeHandle

/-! ## One event -/

section

variable {t : Tracker} {v : Visit}

theorem step_named (hlen : v.event.len ≠ 0) : v.step t = some t := by
  rw [Visit.step, handleEvent, if_pos hlen]

theorem step_file {fileName : Bytes} (hlen : v.event.len = 0)
    (hfile : t.handleToFileName v.event.wd = some fileName) :
    (v.changeHandle < 0 ∧ v.step t = none) ∨ (0 ≤ v.changeHandle ∧ ∃ t', v.step t = some t' ∧
      t'.changeInfo =
        t.changeInfo ++ [{ file := fileName, directory := [], result := .writeChange }]) := by
  have hzero : ¬ v.event.len ≠ 0 := not_not_intro hlen
  rw [Visit.step, handleEvent, if_neg hzero, hfile]
  -- the assertion on the new watch
  by_cases hneg : v.changeHandle < 0
  · exact Or.inl ⟨hneg, if_pos hneg⟩
  · exact Or.inr ⟨Int32.not_lt.mp hneg, _, if_neg hneg, rfl⟩

theorem step_directory {dir : DirectoryTrackInfo} (hlen : v.event.len = 0)
    (hfile : t.handleToFileName v.event.wd = none)
    (hdir : t.trackedDirectory v.event.wd = some dir) : ∃ t', v.step t = some t' ∧
      t'.changeInfo =
        t.changeInfo ++ [{ file := [], directory := dir.dirName, result := .writeChange }] := by
  have hzero : ¬ v.event.len ≠ 0 := not_not_intro hlen
  rw [Visit.step, handleEvent, if_neg hzero, hfile, hdir]
  exact ⟨_, rfl, rfl⟩

theorem step_unknown (hfile : t.handleToFileName v.event.wd = none)
    (hdir : t.trackedDirectory v.event.wd = none) : v.step t = some t := by
  rw [Visit.step, handleEvent, hfile, hdir]
  exact ite_self _

/-- For every state of the tracker and every event whose name is empty where it carries none. -/
theorem reported_iff (hname : v.event.len = 0 → v.name = []) : Reported t v ↔ Reportable t v := by
  constructor
  · intro hreported dir hdir
    obtain ⟨t', result, hstep, hinfo⟩ := hreported.tracked dir hdir
    have hlen : v.event.len = 0 := by
      by_contra hlen
      -- the event is only logged
      cases (step_named hlen).symm.trans hstep
      exact absurd (congrArg List.length hinfo) (by simp)
    refine ⟨hlen, fun fileName hfile => ?_⟩
    rcases step_file hlen hfile with ⟨_, hnone⟩ | ⟨hhandle, t₁, hsome, hinfo₁⟩
    · cases hnone.symm.trans hstep
    · -- the entry of a file, so its two names are those of the directory
      cases hsome.symm.trans hstep
      have hentry := List.append_cancel_left (hinfo₁.symm.trans hinfo)
      rw [hname hlen, List.cons.injEq, ChangeInfo.mk.injEq] at hentry
      obtain ⟨⟨hfileName, hdirName, _⟩, _⟩ := hentry
      exact ⟨hfileName, hdirName.symm, hhandle⟩
  · intro hreportable
    refine ⟨fun dir hdir => ?_, fun hdir hfile => ⟨t, step_unknown hfile hdir, rfl⟩⟩
    obtain ⟨hlen, hfiles⟩ := hreportable dir hdir
    rw [hname hlen]
    cases hfile : t.handleToFileName v.event.wd with
    -- no file has the handle
    | none =>
      obtain ⟨t', hstep, hinfo⟩ := step_directory hlen hfile hdir
      exact ⟨t', _, hstep, hinfo⟩
    | some fileName =>
      obtain ⟨rfl, hempty, hhandle⟩ := hfiles fileName hfile
      rw [hempty]
      rcases step_file hlen hfile with ⟨hneg, _⟩ | ⟨_, t', hstep, hinfo⟩
      · exact absurd hhandle (Int32.not_le.mpr hneg)
      · exact ⟨t', _, hstep, hinfo⟩

end

/-! ## A round of the loop -/

/-- The events that a round has visited, from the `k`-th on. -/
def visits (answer : Nat → TrackHandle) (storage : Bytes) :
    Nat → List (Int × InotifyEvent) → List Visit
  | _, [] => []
  | k, (pos, event) :: visited =>
    ⟨event, event.name storage pos, answer k⟩ :: visits answer storage (k + 1) visited

theorem name_of_mem_visits {answer : Nat → TrackHandle} {storage : Bytes} {v : Visit} :
    ∀ {k : Nat} {visited : List (Int × InotifyEvent)}, v ∈ visits answer storage k visited →
      v.event.len = 0 → v.name = []
  | k, (pos, event) :: visited, hv, hlen => by
    rcases List.mem_cons.mp hv with rfl | hv
    · have hzero : event.len = 0 := hlen
      rw [InotifyEvent.name, hzero]
      rfl
    · exact name_of_mem_visits hv hlen

/-- The loop handles the events that it visits one after the other. -/
theorem eventLoop_run {answer : Nat → TrackHandle} {storage : Bytes} {bytesRead : Int} {fuel : Nat}
    {pos : Int} {visited : List (Int × InotifyEvent)} {t : Tracker}
    {r : Tracker × List (Int × InotifyEvent)}
    (h : eventLoop answer storage bytesRead fuel pos visited t = .ok r) :
    ∃ more, r.2 = visited ++ more ∧
      (visits answer storage visited.length more).foldlM Visit.step t = some r.1 := by
  induction fuel generalizing pos visited t with
  | zero => cases h
  | succ fuel ih =>
    rcases eventLoop_cases h with ⟨_, rfl⟩ | ⟨_, event, t', hfuel, _, hevent, hrest⟩
    · exact ⟨[], (List.append_nil _).symm, rfl⟩
    · cases hfuel
      -- the rounds behind this one
      obtain ⟨more, hvisited, hrun⟩ := ih hrest
      rw [List.length_append, List.length_singleton] at hrun
      refine ⟨(pos, event) :: more, by rw [hvisited, List.append_assoc]; rfl, ?_⟩
      rw [visits, List.foldlM_cons, Visit.step, hevent]
      exact hrun

theorem listenOnce_run {answer : Nat → TrackHandle} {stale batch : Bytes} {fuel : Nat}
    {t t' : Tracker} {visited : List (Int × InotifyEvent)}
    (h : listenOnce answer stale batch fuel t = .ok (t', visited)) :
    (visits answer (batch ++ stale.drop batch.length) 0 visited).foldlM Visit.step t =
      some t' := by
  unfold listenOnce at h
  split_ifs at h
  obtain ⟨more, hvisited, hrun⟩ := eventLoop_run h
  obtain rfl : visited = more := hvisited
  exact hrun

theorem listenOnce_reported_iff {answer : Nat → TrackHandle} {stale batch : Bytes} {fuel : Nat}
    {t t' : Tracker} {visited : List (Int × InotifyEvent)}
    (h : listenOnce answer stale batch fuel t = .ok (t', visited)) :
    let round := visits answer (batch ++ stale.drop batch.length) 0 visited
    round.foldlM Visit.step t = some t' ∧
      (EachTry Visit.step Reported t round ↔ EachTry Visit.step Reportable t round) :=
  ⟨listenOnce_run h, eachTry_congr (fun _ _ hv => reported_iff (name_of_mem_visits hv)) t⟩

/-- **A directory's event is reported**, whatever is tracked, exactly if it carries no name and is
not looked up as the event of a file. -/
theorem reportsDirectory_iff (t : Tracker) (storage : Bytes) (pos : Int) (event : InotifyEvent)
    (changeHandle : TrackHandle) :
    Reported t ⟨event, event.name storage pos, changeHandle⟩ ↔
      Reportable t ⟨event, event.name storage pos, changeHandle⟩ := by
  refine reported_iff fun hlen => ?_
  have hzero : event.len = 0 := hlen
  show event.name storage pos = []
  rw [InotifyEvent.name, hzero]
  rfl

/-- A file `a` is written in the directory `d`, which is tracked under handle 1. -/
def createdEvent : BatchEvent := { wd := 1, mask := 2, cookie := 0, name := ascii "a" ++ [0, 0, 0] }

/-- The listener comes to the event, whose name is `a`, and puts nothing into the queue. -/
theorem directory_not_reported :
    ∃ t t', trackFolder {} { FileContent.new with name := ascii "d" } 1 = some t ∧
      listenOnce (fun _ => 1) [] createdEvent.encode 2 t = .ok (t', [(0, createdEvent.header)]) ∧
      createdEvent.header.name createdEvent.encode 0 = ascii "a" ∧
      (t.trackedDirectory createdEvent.wd).map DirectoryTrackInfo.dirName = some (ascii "d") ∧
      t'.changeInfo = [] ∧
      ¬ Reported t ⟨createdEvent.header, createdEvent.header.name createdEvent.encode 0, 1⟩ := by
  refine ⟨_, _, rfl, listenOnce_single (by decide) rfl, by decide, by decide, rfl,
    fun hreported => ?_⟩
  obtain ⟨t', result, hstep, hinfo⟩ := hreported.tracked _ rfl
  cases (step_named (by decide)).symm.trans hstep
  exact absurd (congrArg List.length hinfo) (by simp)

end Tracker

end Guthi
