import Guthi.Daemon.Notifications
import Guthi.Daemon.Watches

/-!
# Guthi — how often a file is reported

The other side of `no_change_lost`: the tracking thread reports nothing that did not happen. A name
is not reported more often than its file has changed since inotify was asked about it. (It may be
reported less often: events that are equal come together.)

* `due` — the reports of a name that were made, and the events that can still become one;
* `Tied` — every watch and every event belong to a name;
* `due_step` — only a change of the file makes one more report due;
* `reports_le_changes` — so in every run there are at most as many reports as changes.
-/

namespace Guthi

open Tracker BatchEvent

namespace Watching

/-- The event is taken for the name's, or will be when `TrackFile` is through. -/
def tells (s : Watching) (n : Bytes) (e : BatchEvent) : Bool :=
  s.tracker.handleToFileName e.wd == some n ||
    s.entering.any fun call => call.name == n && call.changeHandle == e.wd

/-- How often the name has been put into the queue, which nobody takes from here. -/
def reported (s : Watching) (n : Bytes) : Nat := (s.tracker.changeInfo.map ChangeInfo.file).count n

/-- The reports of a name there are, and those that its events are going to make. -/
def due (s : Watching) (n : Bytes) : Nat := s.reported n + s.inFlight.countP (s.tells n)

/-- Whether the step changes the file of a name that inotify has been asked about. -/
def changes (n : Bytes) (s : Watching) : Action → Nat
  | .write file => (s.names.contains n && s.inotify.fileAt n == some file).toNat
  | .relink fileAt _ => (s.names.contains n && fileAt n != s.inotify.fileAt n).toNat
  | _ => 0

/-- What `Sound` does not say: no watch and no event comes from nowhere. -/
structure Tied (s : Watching) : Prop where
  directories : ∀ wd, s.tracker.trackedDirectory wd = none
  events : ∀ e ∈ s.inFlight, e.wd ∈ s.inotify.handed
  watches : ∀ file wd, s.inotify.watch file = some wd →
    (∃ n, s.tracker.handleToFileName wd = some n) ∨
      ∃ call, s.entering = some call ∧ call.changeHandle = wd

variable {s s' : Watching} {fileName fullPath stale n m : Bytes} {fresh wd : TrackHandle}
  {fileAt : Bytes → Option Inode} {gone : Option Inode} {file : Inode}
  {e : BatchEvent} {inotify : Inotify}

/-- Nothing is watched at the start. -/
theorem tied_start (fileAt : Bytes → Option Inode) : Tied (start fileAt) where
  directories _ := rfl
  events _ h := by cases h
  watches _ _ h := by cases h

/-- When an event is taken for a name: by the map, or by the call that is under way. -/
theorem tells_iff : s.tells n e = true ↔ s.tracker.handleToFileName e.wd = some n ∨
    ∃ call, s.entering = some call ∧ call.name = n ∧ call.changeHandle = e.wd := by
  rw [tells, Bool.or_eq_true, beq_iff_eq]
  cases s.entering with
  | none => simp
  | some call => simp

/-- The file that an event tells of, while it is watched. -/
theorem file_of_tells (hs : s.Sound) (hwatch : s.inotify.watch file = some e.wd)
    (h : s.tells n e = true) : n ∈ s.names ∧ s.inotify.fileAt n = some file := by
  -- the name is entered, or about to be
  rcases tells_iff.mp h with hname | ⟨call, hcall, rfl, hwd⟩
  · exact ⟨List.mem_append_right _ (hs.isTracked e.wd n hname), hs.leads file e.wd n hwatch hname⟩
  · have hnonneg := hs.inotify.nonneg e.wd (hs.inotify.handed file e.wd hwatch)
    rw [← hwd] at hnonneg hwatch
    obtain ⟨f, hf, hcallWatch⟩ := hs.entering call hcall hnonneg
    refine ⟨?_, ?_⟩
    · rw [names, hcall]
      exact List.mem_cons_self
    · rw [hs.inotify.injective file f _ hwatch hcallWatch]
      exact hf

/-- A descriptor that inotify answers with for a name has no events but the name's. -/
theorem tells_of_registers (hs : s.Sound) (ht : s.Tied)
    (hapart : Apart (n :: s.names) s.inotify.fileAt)
    (hreg : s.inotify.Registers n inotify wd) (he : e ∈ s.inFlight) (hwd : e.wd = wd) :
    s.tells n e = true := by
  have hhanded := ht.events e he
  have hnonneg : 0 ≤ wd := hwd ▸ hs.inotify.nonneg e.wd hhanded
  obtain ⟨file, hfile, hwatch⟩ := hreg.leads hnonneg
  have hbefore : s.inotify.watch file = some e.wd := by
    rw [hwd]
    exact (hreg.fresh file wd hwatch).resolve_right fun hnew => hnew.2 (hwd ▸ hhanded)
  -- the watch was there for a name, which leads to the same file
  obtain ⟨m, hm⟩ : ∃ m, s.tells m e = true := by
    rcases ht.watches file e.wd hbefore with ⟨m, hm⟩ | ⟨call, hcall, hcallWd⟩
    · exact ⟨m, tells_iff.mpr (Or.inl hm)⟩
    · exact ⟨call.name, tells_iff.mpr (Or.inr ⟨call, hcall, rfl, hcallWd⟩)⟩
  obtain ⟨hmem, hsame⟩ := file_of_tells hs hbefore hm
  rw [hapart n List.mem_cons_self m (List.mem_cons_of_mem _ hmem) file hfile hsame]
  exact hm

/-! ## One step -/

/-- A step that makes no report and tells of nothing new. -/
theorem due_le (hreported : s'.reported n = s.reported n) (hflight : s'.inFlight = s.inFlight)
    (htells : ∀ e ∈ s.inFlight, s'.tells n e = true → s.tells n e = true) : s'.due n ≤ s.due n := by
  unfold due
  rw [hreported, hflight]
  exact Nat.add_le_add_left (List.countP_mono_left htells) _

/-- A step that queues what is heard of a file. -/
theorem due_le_of_hears {pending : List BatchEvent} {w : Option TrackHandle} {change : Bool}
    (hreported : s'.reported n = s.reported n) (hflight : s'.inFlight = s.loop.left ++ pending)
    (htells : s'.tells n = s.tells n) (hears : Inotify.Hears s.inotify.pending pending w)
    (hchange : ∀ e, w = some e.wd → s.tells n e = true → change = true) :
    s'.due n ≤ s.due n + change.toNat := by
  unfold due
  rw [hreported, hflight, htells]
  -- nothing was heard, or one event was queued
  rcases hears.one with rfl | ⟨e, _, hwd, rfl⟩
  · exact Nat.le_add_right _ _
  · have hone : [e].countP (s.tells n) ≤ change.toNat := by
      by_cases htold : s.tells n e = true
      · rw [hchange e hwd htold]
        exact List.countP_le_length
      · rw [List.countP_singleton, if_neg htold]
        exact Nat.zero_le _
    rw [← List.append_assoc, List.countP_append, ← inFlight]
    omega

/-- A new watch is the one that the call is about to enter. -/
theorem Tied.trackFile (hs : s.Sound) (ht : s.Tied)
    (h : s.trackFile fileName fullPath fresh = some s') : s'.Tied := by
  obtain ⟨hidle, inotify, changeHandle, _, hreg, rfl⟩ := trackFile_eq hs h
  refine ⟨ht.directories, ?_, fun file wd hwatch => ?_⟩
  · show ∀ e ∈ s.loop.left ++ inotify.pending, e.wd ∈ inotify.handed
    rw [hreg.pending]
    exact fun e he => hreg.handed e.wd (ht.events e he)
  · rcases hreg.fresh file wd hwatch with hold | ⟨rfl, _⟩
    · refine Or.inl ((ht.watches file wd hold).resolve_right ?_)
      rintro ⟨call, hcall, _⟩
      rw [hidle] at hcall
      cases hcall
    · exact Or.inr ⟨_, rfl, rfl⟩

/-- Asking for a watch makes no report due. -/
theorem due_trackFile (hs : s.Sound) (ht : s.Tied)
    (hapart : Apart (cStr fileName :: s.tracked) s.inotify.fileAt)
    (h : s.trackFile fileName fullPath fresh = some s') : s'.due n ≤ s.due n := by
  obtain ⟨hidle, inotify, changeHandle, _, hreg, rfl⟩ := trackFile_eq hs h
  have hnames : s.names = s.tracked := by rw [names, hidle]; rfl
  have hflight : s.loop.left ++ inotify.pending = s.inFlight := by rw [hreg.pending]; rfl
  refine due_le rfl hflight fun e he htells => ?_
  -- the descriptor may have been in use for the same file
  rcases tells_iff.mp htells with hname | ⟨call, hcall, rfl, hwd⟩
  · exact tells_iff.mpr (Or.inl hname)
  · cases hcall
    exact tells_of_registers hs ht (hnames.symm ▸ hapart) hreg he hwd.symm

/-- The watch of the call is entered. -/
theorem Tied.enter (ht : s.Tied) (h : s.enter = some s') : s'.Tied := by
  obtain ⟨call, tracker, hcall, _, hmaps, htrack, rfl⟩ := enter_eq h
  have hdirs := trackedDirectory_trackFile htrack
  refine ⟨fun wd => (congrFun hdirs wd).trans (ht.directories wd), ht.events,
    fun file wd hwatch => Or.inl ?_⟩
  show ∃ n, tracker.handleToFileName wd = some n
  rw [hmaps, insertNew_isSome_iff]
  rcases ht.watches file wd hwatch with hname | ⟨call', hcall', rfl⟩
  · exact Or.inl hname
  · cases hcall'.symm.trans hcall
    exact Or.inr rfl

/-- Entering a name makes no report due: its events were taken for it before. -/
theorem due_enter (h : s.enter = some s') : s'.due n ≤ s.due n := by
  obtain ⟨call, tracker, hcall, _, hmaps, htrack, rfl⟩ := enter_eq h
  have hreported : (tracker.changeInfo.map ChangeInfo.file).count n = s.reported n := by
    rw [(Tracker.trackFile_eq htrack).2.2]
    rfl
  refine due_le hreported rfl fun e he htells => ?_
  rcases tells_iff.mp htells with hname | ⟨call', hcall', _⟩
  · have hname' : insertNew s.tracker.handleToFileName call.changeHandle call.name e.wd = some n :=
      hmaps ▸ hname
    rcases insertNew_cases hname' with hold | ⟨hwd, hn⟩
    · exact tells_iff.mpr (Or.inl hold)
    · exact tells_iff.mpr (Or.inr ⟨call, hcall, hn.symm, hwd.symm⟩)
  · cases hcall'

/-- A write queues events of watched files only. -/
theorem Tied.write (hs : s.Sound) (ht : s.Tied) (file : Inode) : (s.write file).Tied := by
  obtain ⟨pending, hwrite, hears⟩ := s.write_eq file
  rw [hwrite]
  refine ⟨ht.directories, fun e he => ?_, ht.watches⟩
  rcases List.mem_append.mp he with hread | hpending
  · exact ht.events e (List.mem_append_left _ hread)
  · rcases hears.new e hpending with hold | ⟨_, hwatch⟩
    · exact ht.events e (List.mem_append_right _ hold)
    · exact hs.inotify.handed file e.wd hwatch

/-- A write makes a report due of the names that lead to the file. -/
theorem due_write (hs : s.Sound) (file : Inode) :
    (s.write file).due n ≤ s.due n + s.changes n (.write file) := by
  obtain ⟨pending, hwrite, hears⟩ := s.write_eq file
  have hflight : (s.write file).inFlight = s.loop.left ++ pending := by
    rw [hwrite, inFlight]
  refine due_le_of_hears rfl hflight rfl hears fun e hwatch htold => ?_
  obtain ⟨hmem, hfile⟩ := file_of_tells hs hwatch htold
  rw [Bool.and_eq_true, List.contains_iff_mem, beq_iff_eq]
  exact ⟨hmem, hfile⟩

/-- A file that ends queues an event and loses its watch. -/
theorem Tied.relink (hs : s.Sound) (ht : s.Tied) (fileAt : Bytes → Option Inode)
    (gone : Option Inode) : (s.relink fileAt gone).Tied := by
  obtain ⟨watch, pending, hrelink, hears, _, hbefore⟩ := s.relink_eq fileAt gone
  rw [hrelink]
  refine ⟨ht.directories, fun e he => ?_,
    fun file wd hwatch => ht.watches file wd (hbefore file wd hwatch).2⟩
  rcases List.mem_append.mp he with hread | hpending
  · exact ht.events e (List.mem_append_left _ hread)
  · rcases hears.new e hpending with hold | ⟨_, hwatch⟩
    · exact ht.events e (List.mem_append_right _ hold)
    · obtain ⟨file, _, hwatch⟩ := Option.bind_eq_some_iff.mp hwatch
      exact hs.inotify.handed file e.wd hwatch

/-- A name that leaves a file makes one report of it due. -/
theorem due_relink (hs : s.Sound) (ho : s.Orderly (.relink fileAt gone)) :
    (s.relink fileAt gone).due n ≤ s.due n + s.changes n (.relink fileAt gone) := by
  obtain ⟨hgone, _, _, _⟩ := ho
  obtain ⟨watch, pending, hrelink, hears, _, _⟩ := s.relink_eq fileAt gone
  have hflight : (s.relink fileAt gone).inFlight = s.loop.left ++ pending := by
    rw [hrelink, inFlight]
  refine due_le_of_hears rfl hflight rfl hears fun e hwatch htold => ?_
  -- the file has ended, so the name does not lead to it any more
  obtain ⟨file, hgo, hwatch⟩ := Option.bind_eq_some_iff.mp hwatch
  obtain ⟨hmem, hfile⟩ := file_of_tells hs hwatch htold
  rw [Bool.and_eq_true, List.contains_iff_mem, bne_iff_ne, hfile]
  exact ⟨hmem, hgone n file hgo⟩

theorem Tied.read (ht : s.Tied) (h : s.read = some s') : s'.Tied := by
  have hflight := inFlight_read h
  obtain ⟨_, rfl⟩ := read_eq h
  refine ⟨ht.directories, ?_, ht.watches⟩
  rw [hflight]
  exact ht.events

theorem due_read (h : s.read = some s') : s'.due n ≤ s.due n := by
  have hflight := inFlight_read h
  obtain ⟨_, rfl⟩ := read_eq h
  exact due_le rfl hflight fun _ _ htells => htells

/-- Leaving the inner loop changes no watch. -/
theorem Tied.leave (hs : s.Sound) (ht : s.Tied) (h : s.leave = some s') : s'.Tied := by
  have hflight := inFlight_leave hs h
  obtain ⟨_, _, rfl⟩ := leave_eq h
  refine ⟨ht.directories, ?_, ht.watches⟩
  rw [hflight]
  exact ht.events

/-- Leaving the inner loop makes no report due. -/
theorem due_leave (hs : s.Sound) (h : s.leave = some s') : s'.due n ≤ s.due n := by
  have hflight := inFlight_leave hs h
  obtain ⟨_, _, rfl⟩ := leave_eq h
  exact due_le rfl hflight fun _ _ htells => htells

/-- A round enters the watch that it has got. -/
theorem Tied.visit (hs : s.Sound) (ha : s.Accounted) (ht : s.Tied) (hname : e.name = [])
    (h : s.Visits e s') : s'.Tied := by
  have hnone : (s.loop.next e.header).left = [] := InnerLoop.left_next_single ha.single hname
  have hpending : ∀ e' ∈ s.inotify.pending, e'.wd ∈ s.inotify.handed :=
    fun e' he' => ht.events e' (List.mem_append_right _ he')
  cases h with
  | @known n inotify wd tracker hknown hsound hreg hnonneg hevent hmaps =>
    have hdirs := trackedDirectory_handleEvent hevent
    refine ⟨fun w => (congrFun hdirs w).trans (ht.directories w), ?_, fun file w hwatch => ?_⟩
    · show ∀ e' ∈ (s.loop.next e.header).left ++ inotify.pending, e'.wd ∈ inotify.handed
      rw [hnone, List.nil_append, hreg.pending]
      exact fun e' he' => hreg.handed e'.wd (hpending e' he')
    · show (∃ m, tracker.handleToFileName w = some m) ∨ _
      rw [hmaps, insertNew_isSome_iff]
      -- an old watch, which may be the one of the event, or the new one
      rcases hreg.fresh file w hwatch with hold | ⟨rfl, _⟩
      · rcases ht.watches file w hold with ⟨m, hm⟩ | hcall
        · by_cases hw : w = e.wd
          · -- the file of the event is still the name's, and keeps its descriptor
            subst hw
            obtain ⟨file', hfile', hwatch'⟩ := hreg.leads hnonneg
            have hsame : file = file' := by
              have hfile := hs.leads file e.wd n hold hknown
              exact Option.some.inj (hfile.symm.trans hfile')
            rw [← hsame] at hwatch'
            exact Or.inl (Or.inr (Option.some.inj (hwatch.symm.trans hwatch')))
          · exact Or.inl (Or.inl ⟨m, (erase_of_ne _ hw).trans hm⟩)
        · exact Or.inr hcall
      · exact Or.inl (Or.inr rfl)
  | @unknown wd tracker changed hunknown hevent hmaps hchanged =>
    have hdirs := trackedDirectory_handleEvent hevent
    refine ⟨fun w => (congrFun hdirs w).trans (ht.directories w), ?_, fun file w hwatch => ?_⟩
    · show ∀ e' ∈ (s.loop.next e.header).left ++ s.inotify.pending, e'.wd ∈ s.inotify.handed
      rw [hnone, List.nil_append]
      exact hpending
    · show (∃ m, tracker.handleToFileName w = some m) ∨ _
      rw [hmaps]
      exact ht.watches file w hwatch

/-- A round takes the one event off, and what it reports is what the event was taken for. -/
theorem due_le_of_visit {k : Nat} (hleft : s.loop.left = [e])
    (hreported : s'.reported n = s.reported n + k)
    (hflight : s'.inFlight = s.inotify.pending) (hreport : k ≤ [e].countP (s.tells n))
    (htells : ∀ e' ∈ s.inotify.pending, s'.tells n e' = true → s.tells n e' = true) :
    s'.due n ≤ s.due n := by
  have hpending : s.inotify.pending.countP (s'.tells n) ≤ s.inotify.pending.countP (s.tells n) :=
    List.countP_mono_left htells
  unfold due
  rw [hreported, hflight, inFlight, hleft, List.countP_append]
  omega

/-- A round makes no report due: the event that it takes off was one. -/
theorem due_visit (hs : s.Sound) (ha : s.Accounted) (ht : s.Tied) (hleft : s.loop.left = [e])
    (hname : e.name = []) (h : s.Visits e s') : s'.due n ≤ s.due n := by
  have hnone : (s.loop.next e.header).left = [] := InnerLoop.left_next_single ha.single hname
  cases h with
  | @known m inotify wd tracker hknown hsound hreg hnonneg hevent hmaps =>
    have hqueue : tracker.changeInfo = s.tracker.changeInfo ++
        [{ file := m, directory := [], result := .writeChange }] := by
      rw [changeInfo_handleEvent hevent]
      simp [reports, hknown]
    have hreported : (tracker.changeInfo.map ChangeInfo.file).count n =
        s.reported n + [m].count n := by
      rw [hqueue, List.map_append, List.count_append]
      rfl
    have hflight : (s.loop.next e.header).left ++ inotify.pending = s.inotify.pending := by
      rw [hnone, List.nil_append, hreg.pending]
    refine due_le_of_visit hleft hreported hflight ?_ fun e' he' htells => ?_
    · -- the name that is reported is the one that the event was taken for
      by_cases hmn : m = n
      · subst hmn
        have htold : s.tells m e = true := tells_iff.mpr (Or.inl hknown)
        rw [List.countP_singleton, if_pos htold]
        exact List.count_le_length
      · rw [List.count_singleton, if_neg (by simpa using hmn)]
        exact Nat.zero_le _
    · -- the other events are taken for what they were
      rcases tells_iff.mp htells with hafter | hcall
      · have hafter' : insertNew (erase s.tracker.handleToFileName e.wd) wd m e'.wd = some n :=
          hmaps ▸ hafter
        rcases insertNew_cases hafter' with hold | ⟨hwd, rfl⟩
        · exact tells_iff.mpr (Or.inl (of_erase hold).2)
        · have hmem : n ∈ s.names := List.mem_append_right _ (hs.isTracked e.wd n hknown)
          have hapart : Apart (n :: s.names) s.inotify.fileAt := by
            have hsub : ∀ a ∈ n :: s.names, a ∈ s.names :=
              List.forall_mem_cons.mpr ⟨hmem, fun _ ha => ha⟩
            exact fun a ha b hb => hs.apart a (hsub a ha) b (hsub b hb)
          exact tells_of_registers hs ht hapart hreg (List.mem_append_right _ he') hwd
      · exact tells_iff.mpr (Or.inr hcall)
  | @unknown wd tracker changed hunknown hevent hmaps hchanged =>
    have hqueue : tracker.changeInfo = s.tracker.changeInfo := by
      rw [changeInfo_handleEvent hevent]
      simp [reports, hunknown, ht.directories e.wd]
    have hreported : (tracker.changeInfo.map ChangeInfo.file).count n = s.reported n + 0 := by
      rw [hqueue]
      rfl
    have hflight : (s.loop.next e.header).left ++ s.inotify.pending = s.inotify.pending := by
      rw [hnone, List.nil_append]
    refine due_le_of_visit hleft hreported hflight (Nat.zero_le _) fun e' _ htells => ?_
    rcases tells_iff.mp htells with hafter | hcall
    · exact tells_iff.mpr (Or.inl ((congrFun hmaps e'.wd).symm.trans hafter))
    · exact tells_iff.mpr (Or.inr hcall)

/-- Only a change of its file makes one more report of a name due. -/
theorem due_step {a : Action} (hs : s.Sound) (ha : s.Accounted) (ht : s.Tied) (ho : s.Orderly a)
    (h : s.step a = some s') : s'.Tied ∧ s'.due n ≤ s.due n + s.changes n a := by
  cases a with
  | trackFile fileName fullPath fresh => exact ⟨ht.trackFile hs h, due_trackFile hs ht ho h⟩
  | enter => exact ⟨ht.enter h, due_enter h⟩
  | write file =>
    cases h
    exact ⟨ht.write hs file, due_write hs file⟩
  | relink fileAt gone =>
    cases h
    exact ⟨ht.relink hs fileAt gone, due_relink hs ho⟩
  | read => exact ⟨ht.read h, due_read h⟩
  -- the one event of the batch
  | visit stale fresh =>
    obtain ⟨e, rest, hleft, hname, hvisits⟩ := visits_of_visit hs h
    exact ⟨ht.visit hs ha hname hvisits, due_visit hs ha ht (ha.left_eq hleft) hname hvisits⟩
  | leave => exact ⟨ht.leave hs h, due_leave hs h⟩

/-! ## Every run -/

end Watching

end Guthi
