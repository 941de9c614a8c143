import Guthi.Filesystem.FileContent
import Guthi.Lib.InsertMap

/-!
# Guthi — the file tracker

`FileTracker` of `filesystem/file_track.hpp` with the Linux implementation in
`filesystem/file_track_linux.cpp`: `TrackFile`, `TrackFolder` and the handling of one inotify
event. What the system answers (`realpath`, `inotify_add_watch`) is an argument of the call.

An operation that ends the process, by `exit` or by a failed assertion, gives `none`.
`trackFile_eq` and `handleEvent_cases` say what the others leave.
-/

namespace Guthi

/-- `using TrackHandle = int`. -/
abbrev TrackHandle := Int32

/-- `enum class TrackFor : uint8_t`. -/
inductive TrackFor where
  | nameChange
  | attrChange
  | sizeChange
  | writeChange
deriving DecidableEq, Repr

structure DirectoryTrackInfo where
  recursive : Bool
  wholeDirTracked : Bool := false
  dirName : Bytes
deriving DecidableEq, Repr

structure ChangeInfo where
  file : Bytes
  directory : Bytes
  result : TrackFor
deriving DecidableEq, Repr

/-- The maps and the queue of a `FileTracker`. -/
structure Tracker where
  trackedDirectory : TrackHandle → Option DirectoryTrackInfo := fun _ => none
  nameToDirHandle : Bytes → Option TrackHandle := fun _ => none
  nameToFileHandle : Bytes → Option TrackHandle := fun _ => none
  handleToFileName : TrackHandle → Option Bytes := fun _ => none
  changeInfo : List ChangeInfo := []

namespace Tracker

/-- `TrackFolder(folder, …)`, when `inotify_add_watch` returns `result`. -/
def trackFolder (t : Tracker) (folder : FileContent) (result : TrackHandle) : Option Tracker :=
  if folder.type ≠ FileType.directory then none
  else if result < 0 then none
  else some
    { t with
      trackedDirectory := insertNew t.trackedDirectory result
        { recursive := true, wholeDirTracked := true, dirName := folder.name }
      nameToDirHandle := insertNew t.nameToDirHandle folder.name result }

/-- `TrackFile(file, …)`, when `realpath` fills in `fullPath` and `inotify_add_watch` returns
`changeHandle`. The name goes through `c_str()` on its way into the maps. -/
def trackFile (t : Tracker) (fileName fullPath : Bytes) (changeHandle : TrackHandle) :
    Option Tracker :=
  if '/'.toUInt8 ∉ cStr fullPath then none
  else if changeHandle < 0 then none
  else some
    { t with
      nameToFileHandle := insertNew t.nameToFileHandle (cStr fileName) changeHandle
      handleToFileName := insertNew t.handleToFileName changeHandle (cStr fileName) }

/-- One event of the loop in `ListenForChanges`, for watch `wd` and with a name of length `len`,
when registering the file again returns `changeHandle`. -/
def handleEvent (t : Tracker) (wd : TrackHandle) (len : UInt32) (changeHandle : TrackHandle) :
    Option Tracker :=
  if len ≠ 0 then some t
  else match t.handleToFileName wd with
    | some fileName =>
      if changeHandle < 0 then none
      else some
        { t with
          changeInfo := t.changeInfo ++
            [{ file := fileName, directory := [], result := .writeChange }]
          -- the old handle goes, but the name keeps it: `insert` does not overwrite
          nameToFileHandle := insertNew t.nameToFileHandle (cStr fileName) changeHandle
          handleToFileName := insertNew (erase t.handleToFileName wd) changeHandle
            (cStr fileName) }
    | none =>
      match t.trackedDirectory wd with
      | some dir => some
          { t with
            changeInfo := t.changeInfo ++
              [{ file := [], directory := dir.dirName, result := .writeChange }] }
      | none => some t

/-- The answers of the system with which `TrackFile` returns. -/
def Accepts (fullPath : Bytes) (changeHandle : TrackHandle) : Prop :=
  '/'.toUInt8 ∈ cStr fullPath ∧ 0 ≤ changeHandle

instance instDecidableAccepts (fullPath : Bytes) (changeHandle : TrackHandle) :
    Decidable (Accepts fullPath changeHandle) :=
  instDecidableAnd

theorem trackFile_isSome_iff (t : Tracker) (fileName fullPath : Bytes)
    (changeHandle : TrackHandle) :
    (t.trackFile fileName fullPath changeHandle).isSome ↔ Accepts fullPath changeHandle := by
  rw [trackFile, Accepts]
  by_cases hpath : '/'.toUInt8 ∈ cStr fullPath
  · by_cases hhandle : changeHandle < 0
    · have hneg : ¬ 0 ≤ changeHandle := Int32.not_le.mpr hhandle
      simp [hpath, hhandle, hneg]
    · have hnonneg : 0 ≤ changeHandle := Int32.not_lt.mp hhandle
      simp [hpath, hhandle, hnonneg]
  · simp [hpath]

/-! ## What one operation changes -/

theorem trackFile_eq {t t' : Tracker} {fileName fullPath : Bytes} {changeHandle : TrackHandle}
    (h : t.trackFile fileName fullPath changeHandle = some t') :
    t'.nameToFileHandle = insertNew t.nameToFileHandle (cStr fileName) changeHandle ∧
    t'.handleToFileName = insertNew t.handleToFileName changeHandle (cStr fileName) ∧
    t'.changeInfo = t.changeInfo := by
  unfold trackFile at h
  split_ifs at h
  cases h
  exact ⟨rfl, rfl, rfl⟩

/-- An event either names a tracked file, reports it and registers it again, or leaves both maps
alone and reports at most a directory. -/
theorem handleEvent_cases {t t' : Tracker} {wd changeHandle : TrackHandle} {len : UInt32}
    (h : t.handleEvent wd len changeHandle = some t') :
    (len = 0 ∧ ∃ fileName, t.handleToFileName wd = some fileName ∧
      t'.nameToFileHandle = insertNew t.nameToFileHandle (cStr fileName) changeHandle ∧
      t'.handleToFileName =
        insertNew (erase t.handleToFileName wd) changeHandle (cStr fileName) ∧
      t'.changeInfo = t.changeInfo ++
        [{ file := fileName, directory := [], result := .writeChange }]) ∨
    ((len = 0 → t.handleToFileName wd = none) ∧
      t'.nameToFileHandle = t.nameToFileHandle ∧ t'.handleToFileName = t.handleToFileName ∧
      ∃ reports, t'.changeInfo = t.changeInfo ++ reports ∧
        ∀ info ∈ reports, info.file = []) := by
  unfold handleEvent at h
  by_cases hlen : len = 0
  · rw [if_neg (by simpa using hlen)] at h
    -- a file is looked for first, then a directory
    cases hwd : t.handleToFileName wd with
    | some fileName =>
      simp only [hwd] at h
      split_ifs at h
      cases h
      exact Or.inl ⟨hlen, fileName, rfl, rfl, rfl, rfl⟩
    | none =>
      simp only [hwd] at h
      cases hdir : t.trackedDirectory wd with
      | some dir =>
        simp only [hdir] at h
        cases h
        exact Or.inr ⟨fun _ => rfl, rfl, rfl, _, rfl, by simp⟩
      | none =>
        simp only [hdir] at h
        cases h
        exact Or.inr ⟨fun _ => rfl, rfl, rfl, [], by simp, by simp⟩
  · -- an event with a name is only logged
    rw [if_pos hlen] at h
    cases h
    exact Or.inr ⟨fun h0 => absurd h0 hlen, rfl, rfl, [], by simp, by simp⟩

end Tracker

end Guthi
