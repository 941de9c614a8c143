import Guthi.FileTrack.Tracker
import Guthi.Lib.Bytes
import Guthi.Lib.Run

/-!
# Guthi — the two maps of the file tracker

`name_to_file_handle` and `handle_to_file_name` are meant to mirror each other and to hold the
names that were passed to `TrackFile`. Both operations that change them use `insert`.

* `trackFile_mirrored_iff`, `handleEvent_mirrored_iff` — when one call keeps the maps mirrored;
* `mirrored_throughout_iff` — a run keeps them mirrored exactly if every step does;
* `replaced_file_keeps_stale_handle` — it need not: a file that was replaced has a new handle.
-/

namespace Guthi

namespace Tracker

/-- A call of `TrackFile`, or an event that `ListenForChanges` handles, with the answers of the
system. -/
inductive Op where
  | trackFile (fileName fullPath : Bytes) (changeHandle : TrackHandle)
  | event (wd : TrackHandle) (len : UInt32) (changeHandle : TrackHandle)

/-- A tracker with the names that have been passed to `TrackFile`. -/
structure History where
  tracker : Tracker := {}
  passed : List Bytes := []

/-- One operation; `none` when it ends the process. -/
def History.step (s : History) : Op → Option History
  | .trackFile fileName fullPath changeHandle =>
    (s.tracker.trackFile fileName fullPath changeHandle).map
      fun t => ⟨t, fileName :: s.passed⟩
  | .event wd len changeHandle =>
    (s.tracker.handleEvent wd len changeHandle).map fun t => ⟨t, s.passed⟩

/-- The maps mirror each other and hold the names that were passed. -/
structure History.Mirrored (s : History) : Prop where
  inverse : Inverse s.tracker.nameToFileHandle s.tracker.handleToFileName
  names : ∀ n, (∃ fd, s.tracker.nameToFileHandle n = some fd) ↔ n ∈ s.passed

structure History.CNames (s : History) : Prop where
  keys : ∀ n fd, s.tracker.nameToFileHandle n = some fd → 0 ∉ n
  values : ∀ fd n, s.tracker.handleToFileName fd = some n → 0 ∉ n

theorem History.CNames.step {s s' : History} {op : Op} (hs : s.CNames)
    (h : s.step op = some s') : s'.CNames := by
  cases op with
  | trackFile fileName fullPath changeHandle =>
    obtain ⟨t', ht, rfl⟩ := Option.map_eq_some_iff.mp h
    obtain ⟨hnames, hhandles, _⟩ := trackFile_eq ht
    constructor
    -- the names that are entered went through `c_str()`
    · rw [hnames]
      exact forall_insertNew hs.keys (zero_notMem_cStr fileName)
    · rw [hhandles]
      exact forall_insertNew hs.values (zero_notMem_cStr fileName)
  | event wd len changeHandle =>
    obtain ⟨t', ht, rfl⟩ := Option.map_eq_some_iff.mp h
    rcases handleEvent_cases ht with
      ⟨_, fileName, _, hnames, hhandles, _⟩ | ⟨_, hnames, hhandles, _⟩
    · constructor
      · rw [hnames]
        exact forall_insertNew hs.keys (zero_notMem_cStr fileName)
      · rw [hhandles]
        refine forall_insertNew (fun fd n hfd => ?_) (zero_notMem_cStr fileName)
        -- what is left after the erasure was there before
        rw [erase, Function.update_apply] at hfd
        split_ifs at hfd
        exact hs.values fd n hfd
    · constructor
      · rw [hnames]
        exact hs.keys
      · rw [hhandles]
        exact hs.values

/-! ## When the maps stay mirrored -/

/-- The operations that keep the maps mirrored: `TrackFile` with a name without NUL, if the
name and the handle are both new or both there; an event for a tracked file, if it has the
same handle again. -/
def History.Keeps (s : History) : Op → Prop
  | .trackFile fileName _ changeHandle =>
    0 ∉ fileName ∧
      ((s.tracker.nameToFileHandle fileName = none ∧
        s.tracker.handleToFileName changeHandle = none) ∨
      ((∃ fd, s.tracker.nameToFileHandle fileName = some fd) ∧
        ∃ n, s.tracker.handleToFileName changeHandle = some n))
  | .event wd len changeHandle =>
    len ≠ 0 ∨ s.tracker.handleToFileName wd = none ∨ changeHandle = wd

theorem trackFile_mirrored_iff {s s' : History} {fileName fullPath : Bytes}
    {changeHandle : TrackHandle} (hc : s.CNames) (hs : s.Mirrored)
    (h : s.step (.trackFile fileName fullPath changeHandle) = some s') :
    s'.Mirrored ↔ s.Keeps (.trackFile fileName fullPath changeHandle) := by
  obtain ⟨t', ht, rfl⟩ := Option.map_eq_some_iff.mp h
  obtain ⟨hnames, hhandles, _⟩ := trackFile_eq ht
  by_cases hnul : 0 ∈ fileName
  · -- the map holds the name only up to its NUL
    refine iff_of_false (fun hm => ?_) fun hk => hk.1 hnul
    obtain ⟨fd, hfd⟩ := (hm.names fileName).mpr (by simp)
    exact (hc.step h).keys fileName fd hfd hnul
  · rw [cStr_eq_self hnul] at hnames hhandles
    have hinverse := hs.inverse.insertNew_iff (k := fileName) (v := changeHandle)
    rw [← hnames, ← hhandles] at hinverse
    refine ⟨fun hm => ⟨hnul, hinverse.mp hm.inverse⟩, fun hk => ⟨hinverse.mpr hk.2, fun n => ?_⟩⟩
    show (∃ fd, t'.nameToFileHandle n = some fd) ↔ _
    rw [hnames, insertNew_isSome_iff, hs.names, List.mem_cons, or_comm]

theorem handleEvent_mirrored_iff {s s' : History} {wd changeHandle : TrackHandle} {len : UInt32}
    (hc : s.CNames) (hs : s.Mirrored) (h : s.step (.event wd len changeHandle) = some s') :
    s'.Mirrored ↔ s.Keeps (.event wd len changeHandle) := by
  obtain ⟨t', ht, rfl⟩ := Option.map_eq_some_iff.mp h
  rcases handleEvent_cases ht with
    ⟨hlen, fileName, hwd, hnames, hhandles, _⟩ | ⟨hother, hnames, hhandles, _⟩
  · rw [cStr_eq_self (hc.values wd fileName hwd)] at hnames hhandles
    have hkeeps : s.Keeps (.event wd len changeHandle) ↔ changeHandle = wd := by
      simp [History.Keeps, hlen, hwd]
    have hinverse := hs.inverse.erase_insertNew_iff changeHandle hwd
    rw [← hnames, ← hhandles] at hinverse
    rw [hkeeps]
    refine ⟨fun hm => hinverse.mp hm.inverse, fun heq => ⟨hinverse.mpr heq, fun n => ?_⟩⟩
    show (∃ fd, t'.nameToFileHandle n = some fd) ↔ _
    rw [hnames, insertNew_of_some ((hs.inverse fileName wd).mpr hwd)]
    exact hs.names n
  · -- both maps are as they were
    refine iff_of_true ⟨?_, fun n => ?_⟩ ?_
    · rw [hnames, hhandles]
      exact hs.inverse
    · rw [hnames]
      exact hs.names n
    · by_cases hlen : len = 0
      · exact Or.inr (Or.inl (hother hlen))
      · exact Or.inl hlen

/-- In every run from an empty tracker, the maps mirror each other and hold the names passed to
`TrackFile` in every state, exactly if every step is one that keeps them so. -/
theorem mirrored_throughout_iff (ops : List Op) :
    Throughout History.step History.Mirrored {} ops ↔
      EachStep History.step History.Keeps {} ops := by
  refine throughout_iff_eachStep (J := History.CNames) (fun s op s' hs h => hs.step h)
    (fun s op s' hc hs h => ?_) ⟨by simp, by simp⟩ ⟨?_, by simp⟩ ops
  · cases op with
    | trackFile fileName fullPath changeHandle => exact trackFile_mirrored_iff hc hs h
    | event wd len changeHandle => exact handleEvent_mirrored_iff hc hs h
  · intro n fd
    simp

/-- A file is tracked under handle 1, replaced on disk and registered again under handle 2: its
name keeps the stale handle. Another name for the same file is dropped on the way back. -/
theorem replaced_file_keeps_stale_handle :
    ¬ Throughout History.step History.Mirrored {}
      [.trackFile (ascii "a") (ascii "/a") 1, .event 1 0 2] ∧
    ¬ Throughout History.step History.Mirrored {}
      [.trackFile (ascii "a") (ascii "/a") 1, .trackFile (ascii "./a") (ascii "/a") 1] := by
  constructor
  · intro h
    have hlast := ((h.2 _ rfl).2 _ rfl).inverse (ascii "a") 1
    exact absurd (hlast.mp (by decide)) (by decide)
  · intro h
    have hlast := ((h.2 _ rfl).2 _ rfl).inverse (ascii "./a") 1
    exact absurd (hlast.mp (by decide)) (by decide)

end Tracker

end Guthi
