import Guthi.FileTrack.Tracker
import Guthi.FileTrack.Windows
import Guthi.Lib.Fallible

/-!
# Guthi — the files that the Windows tracker reports

`filesystem/file_track.cpp`: the maps that `TrackFile` and `TrackFolder` fill, and what
`ListenForChanges` does with the records of a completed request. Such a record names the file
that changed and says how far it is to the next one. What the system answers is an argument of
the call; `narrow` is `WideCharToMultiByte`, by what the zeroed array `file_name` holds after it.

* `recordLoop_chain` — the records of a chain are visited once each, in their order;
* `History.Agrees` — the maps hold the paths that were asked for, whatever was called before;
* `reports_requested` — in every run, a completed request puts the changes of those files into
  the queue, and no others.
-/

namespace Guthi

/-! ## The records of a completed request -/

/-- Read `n` wide characters. -/
def takeWide : Nat → Bytes → Option (List UInt16)
  | 0, _ => some []
  | n + 1, lo :: hi :: rest => (takeWide n rest).map (ofLeBytes16 lo hi :: ·)
  | _ + 1, _ => none

/-- `_FILE_NOTIFY_INFORMATION` -/
structure NotifyInformation where
  nextEntryOffset : UInt32
  action : UInt32
  fileName : List UInt16
deriving DecidableEq, Repr

/-- The record at `pos` of the buffer, with the `FileNameLength / sizeof(WCHAR)` characters of its
name; `none` if it does not lie inside. -/
def NotifyInformation.readAt (buffer : Bytes) (pos : Nat) : Option NotifyInformation := do
  let (nextEntryOffset, rest) ← takeLe32 (buffer.drop pos)
  let (action, rest) ← takeLe32 rest
  let (fileNameLength, rest) ← takeLe32 rest
  let fileName ← takeWide (fileNameLength.toNat / 2) rest
  return { nextEntryOffset, action, fileName }

/-- A record behind the buffer, or no more fuel. -/
inductive NotifyFault where
  | outOfBounds
  | outOfFuel
deriving DecidableEq, Repr

section Records

variable (narrow : List UInt16 → Vector UInt8 512)

/-- `file_name`, as it is read up to its NUL; `none` if there is no NUL in the array. -/
def fileNameOf (name : List UInt16) : Option Bytes :=
  if (narrow name).toList.contains 0 then some (cStr (narrow name).toList) else none

/-- The loop over the records of one buffer. `report` is what the name of a file puts into the
queue. -/
def recordLoop (report : Bytes → List ChangeInfo) (buffer : Bytes) :
    Nat → UInt32 → List ChangeInfo → Except NotifyFault (List ChangeInfo)
  | 0, _, _ => .error .outOfFuel
  | fuel + 1, bytesConsumed, changeInfo =>
    match NotifyInformation.readAt buffer bytesConsumed.toNat with
    | none => .error .outOfBounds
    | some changes =>
      match fileNameOf narrow changes.fileName with
      | none => .error .outOfBounds
      | some fileName =>
        if changes.nextEntryOffset = 0 then .ok (changeInfo ++ report fileName)
        else recordLoop report buffer fuel (bytesConsumed + changes.nextEntryOffset)
          (changeInfo ++ report fileName)

end Records

/-! ### Chains -/

/-- A record as the system lays it out, with the bytes between its name and the next record. -/
structure NotifyRecord where
  action : UInt32
  name : List UInt16
  padding : Bytes
deriving DecidableEq, Repr

namespace NotifyRecord

/-- A record with the offset of the next one in front. -/
def encode (r : NotifyRecord) (nextEntryOffset : UInt32) : Bytes :=
  leBytes32 nextEntryOffset ++ (leBytes32 r.action ++
    (leBytes32 (UInt32.ofNat (2 * r.name.length)) ++ (r.name.flatMap leBytes16 ++ r.padding)))

/-- The bytes of a record. -/
def size (r : NotifyRecord) : Nat := 12 + 2 * r.name.length + r.padding.length

/-- Each record says how far it is to the next one, and the last says zero. -/
def chain : List NotifyRecord → Bytes
  | [] => []
  | [r] => r.encode 0
  | r :: rs => r.encode (UInt32.ofNat r.size) ++ chain rs

/-- A wide character takes two bytes. -/
theorem length_wide (name : List UInt16) : (name.flatMap leBytes16).length = 2 * name.length := by
  induction name with
  | nil => rfl
  | cons c name ih =>
    rw [List.flatMap_cons, List.length_append, ih, List.length_cons]
    simp only [leBytes16, List.length_cons, List.length_nil]
    omega

/-- The bytes of an encoded record. -/
theorem length_encode (r : NotifyRecord) (next : UInt32) : (r.encode next).length = r.size := by
  simp only [encode, size, List.length_append, length_wide, leBytes32, List.length_cons,
    List.length_nil]
  omega

/-- The name is read back from in front of other bytes. -/
theorem takeWide_append (name : List UInt16) (rest : Bytes) :
    takeWide name.length (name.flatMap leBytes16 ++ rest) = some name := by
  induction name with
  | nil => rfl
  | cons c name ih =>
    show (takeWide name.length (name.flatMap leBytes16 ++ rest)).map _ = _
    rw [ih, Option.map_some, ofLeBytes16_leBytes16]

/-- A record is read back at its place in a buffer. -/
theorem readAt_encode (r : NotifyRecord) (next : UInt32) (pre post : Bytes)
    (hsize : r.size < 2 ^ 32) :
    NotifyInformation.readAt (pre ++ (r.encode next ++ post)) pre.length =
      some { nextEntryOffset := next, action := r.action, fileName := r.name } := by
  have hname : (UInt32.ofNat (2 * r.name.length)).toNat / 2 = r.name.length := by
    have hlength : 2 * r.name.length < 2 ^ 32 := by
      unfold size at hsize
      omega
    rw [UInt32.toNat_ofNat_of_lt' hlength]
    omega
  rw [NotifyInformation.readAt, List.drop_left, encode]
  simp only [List.append_assoc, takeLe32_leBytes32, Option.bind_eq_bind, Option.bind_some, hname,
    takeWide_append]
  rfl

/-- The first record and the chain behind it. -/
theorem chain_cons (r r' : NotifyRecord) (rs : List NotifyRecord) :
    chain (r :: r' :: rs) = r.encode (UInt32.ofNat r.size) ++ chain (r' :: rs) := rfl

/-- A record takes a byte at least. -/
theorem length_le_chain (rs : List NotifyRecord) : rs.length ≤ (chain rs).length := by
  induction rs with
  | nil => exact Nat.le_refl 0
  | cons r rs ih =>
    have hsize : 12 ≤ r.size := by
      unfold size
      omega
    cases rs with
    | nil =>
      rw [chain, length_encode]
      exact (by decide : 1 ≤ 12).trans hsize
    | cons r' rs =>
      rw [chain_cons, List.length_append, length_encode, List.length_cons]
      omega

end NotifyRecord

section Chain

open NotifyRecord

variable {narrow : List UInt16 → Vector UInt8 512}

/-- **The records of a chain are visited once each, in order.** The loop comes to its end inside of
the buffer, whatever the records hold and however far apart they are, if each name leaves room for
a NUL in `file_name`; and it has put into the queue what the names ask for. -/
theorem recordLoop_chain (report : Bytes → List ChangeInfo) {rs : List NotifyRecord} (hrs : rs ≠ [])
    (hnames : ∀ r ∈ rs, 0 ∈ (narrow r.name).toList) (pre stale : Bytes)
    (hfits : pre.length + (chain rs).length < 2 ^ 32) (fuel : Nat) (hfuel : rs.length ≤ fuel)
    (changeInfo : List ChangeInfo) :
    recordLoop narrow report (pre ++ (chain rs ++ stale)) fuel (UInt32.ofNat pre.length)
        changeInfo =
      .ok (changeInfo ++ rs.flatMap fun r => report (cStr (narrow r.name).toList)) := by
  induction rs generalizing pre fuel changeInfo with
  | nil => exact absurd rfl hrs
  | cons r rs ih =>
    obtain ⟨fuel, rfl⟩ := Nat.exists_eq_add_of_le' (Nat.one_le_of_lt hfuel)
    have hpre : pre.length < 2 ^ 32 := by omega
    have hpos : (UInt32.ofNat pre.length).toNat = pre.length := UInt32.toNat_ofNat_of_lt' hpre
    have hname : fileNameOf narrow r.name = some (cStr (narrow r.name).toList) :=
      if_pos (List.contains_iff_mem.mpr (hnames r (by simp)))
    rw [recordLoop, hpos]
    cases rs with
    | nil =>
      -- the last record
      have hlen := length_encode r 0
      have hsize : r.size < 2 ^ 32 := by
        change pre.length + (r.encode 0).length < 2 ^ 32 at hfits
        omega
      rw [chain, readAt_encode r 0 pre stale hsize]
      simp only [hname, if_true, List.flatMap_cons, List.flatMap_nil, List.append_nil]
    | cons r' rs =>
      have hlen := length_encode r (UInt32.ofNat r.size)
      rw [chain_cons, List.length_append, hlen] at hfits
      have hsize : r.size < 2 ^ 32 := by omega
      -- an offset of 0 would end the chain
      have hnext : UInt32.ofNat r.size ≠ 0 := by
        intro h0
        have hzero := congrArg UInt32.toNat h0
        rw [UInt32.toNat_ofNat_of_lt' hsize] at hzero
        have hpositive : 0 < r.size := by unfold size; omega
        exact absurd hzero (by rw [UInt32.toNat_zero]; omega)
      have hrest := ih (by simp) (fun x hx => hnames x (List.mem_cons_of_mem r hx))
        (pre ++ r.encode (UInt32.ofNat r.size)) (by rw [List.length_append, hlen]; omega)
        fuel (by simpa using hfuel) (changeInfo ++ report (cStr (narrow r.name).toList))
      rw [List.length_append, hlen, UInt32.ofNat_add] at hrest
      rw [chain_cons, List.append_assoc, readAt_encode r _ pre _ hsize]
      simp only [hname, if_neg hnext]
      rw [← List.append_assoc pre, hrest, List.append_assoc]
      rfl

end Chain

/-! ## The maps -/

/-- `path.find_last_of(c)`, with what is in front of that place and what is behind it. -/
def splitLast (c : UInt8) : Bytes → Option (Bytes × Bytes)
  | [] => none
  | b :: path =>
    match splitLast c path with
    | some (dir, fileName) => some (b :: dir, fileName)
    | none => if b = c then some ([], path) else none

/-- `INVALID_HANDLE_VALUE`. -/
def invalidHandleValue : DirHandle := 0xFFFFFFFFFFFFFFFF

/-- The maps and the queue of a `FileTracker`, on Windows. -/
structure WinFiles where
  trackedDirectory : DirHandle → Option DirectoryTrackInfo := fun _ => none
  nameToHandle : Bytes → Option DirHandle := fun _ => none
  filesTrackedWithinDirectory : DirHandle → Option (List Bytes) := fun _ => none
  changeInfo : List ChangeInfo := []

namespace WinFiles

/-- `TrackFolder(folder, …)`, when `CreateFileA` returns `dirHandle`. -/
def trackFolder (t : WinFiles) (folder : FileContent) (dirHandle : DirHandle) : Option WinFiles :=
  if folder.type ≠ FileType.directory then none
  else if dirHandle = invalidHandleValue then none
  else some
    { t with
      trackedDirectory := insertNew t.trackedDirectory dirHandle
        { recursive := true, wholeDirTracked := true, dirName := folder.name } }

/-- `TrackFile(file, …)`, when `GetFullPathNameA` gives `path`; for a new directory, `CreateFileA`
returns `dirHandle`. -/
def trackFile (t : WinFiles) (path : Bytes) (dirHandle : DirHandle) : Option WinFiles :=
  match splitLast '\\'.toUInt8 path with
  | none => none
  | some (dir, fileName) =>
    match t.nameToHandle dir with
    | some handle =>
      match t.filesTrackedWithinDirectory handle with
      | some vec => some
          { t with filesTrackedWithinDirectory :=
              Function.update t.filesTrackedWithinDirectory handle (some (vec ++ [fileName])) }
      | none => some
          { t with filesTrackedWithinDirectory :=
              insertNew t.filesTrackedWithinDirectory handle [fileName] }
    | none =>
      if dirHandle = invalidHandleValue then none
      else some
        { t with
          filesTrackedWithinDirectory :=
            insertNew t.filesTrackedWithinDirectory dirHandle [fileName]
          trackedDirectory := insertNew t.trackedDirectory dirHandle
            { recursive := true, wholeDirTracked := false, dirName := dir }
          nameToHandle := insertNew t.nameToHandle dir dirHandle }

/-- What a record for `handle` puts into the queue. -/
def report (t : WinFiles) (handle : DirHandle) (info : DirectoryTrackInfo) (fileName : Bytes) :
    List ChangeInfo :=
  let change := { file := fileName, directory := info.dirName, result := .writeChange }
  if info.wholeDirTracked then [change]
  else
    match t.filesTrackedWithinDirectory handle with
    | some vec => if fileName ∈ vec then [change] else []
    | none => []

/-- A request for `handle` has completed, with this read buffer. The listener looks at the
directories that are tracked. -/
def completed (narrow : List UInt16 → Vector UInt8 512) (t : WinFiles) (handle : DirHandle)
    (buffer : Bytes) : Option WinFiles := do
  let info ← t.trackedDirectory handle
  let changeInfo ←
    (recordLoop narrow (t.report handle info) buffer buffer.length 0 t.changeInfo).toOption
  return { t with changeInfo }

theorem changeInfo_trackFile {t t' : WinFiles} {path : Bytes} {dirHandle : DirHandle}
    (h : t.trackFile path dirHandle = some t') : t'.changeInfo = t.changeInfo := by
  unfold trackFile at h
  split at h
  · cases h
  · split at h
    · split at h <;> cases h <;> rfl
    · split_ifs at h
      cases h
      rfl

/-- A completed request puts into the queue what the loop over its records does. -/
theorem completed_of_loop {narrow : List UInt16 → Vector UInt8 512} {t : WinFiles}
    {handle : DirHandle} {buffer : Bytes} {info : DirectoryTrackInfo} {changeInfo : List ChangeInfo}
    (hinfo : t.trackedDirectory handle = some info)
    (hloop : recordLoop narrow (t.report handle info) buffer buffer.length 0 t.changeInfo =
      .ok changeInfo) : t.completed narrow handle buffer = some { t with changeInfo } := by
  rw [completed, hinfo]
  simp only [Option.bind_eq_bind, Option.bind_some, hloop]
  rfl

/-! ## Runs -/

/-- A call of `TrackFile` or `TrackFolder`, or a request that has completed, with the answers of
the system. -/
inductive Op where
  | trackFile (path : Bytes) (dirHandle : DirHandle)
  | trackFolder (folder : FileContent) (dirHandle : DirHandle)
  | completed (handle : DirHandle) (buffer : Bytes)

/-- A tracker with the directory and the name of each file that it was asked to track. -/
structure History where
  files : WinFiles := {}
  asked : List (Bytes × Bytes) := []

namespace History

/-- One operation; `none` when it ends the process or leaves the buffer. -/
def step (narrow : List UInt16 → Vector UInt8 512) (s : History) : Op → Option History
  | .trackFile path dirHandle =>
    (s.files.trackFile path dirHandle).map fun t =>
      ⟨t, s.asked ++ (splitLast '\\'.toUInt8 path).toList⟩
  | .trackFolder folder dirHandle =>
    (s.files.trackFolder folder dirHandle).map fun t => ⟨t, s.asked⟩
  | .completed handle buffer => (s.files.completed narrow handle buffer).map fun t => ⟨t, s.asked⟩

/-- `CreateFileA` does not return a handle that is open. -/
def Fresh (s : History) : Op → Prop
  | .trackFile path dirHandle =>
    ∀ dir fileName, splitLast '\\'.toUInt8 path = some (dir, fileName) →
      s.files.nameToHandle dir = none → s.files.trackedDirectory dirHandle = none
  | .trackFolder _ dirHandle => s.files.trackedDirectory dirHandle = none
  | .completed _ _ => True

/-- The names that were asked for in a directory, in the order of the calls. -/
def filesIn (s : History) (dir : Bytes) : List Bytes :=
  (s.asked.filter fun q => q.1 = dir).map Prod.snd

/-- The maps hold what was asked for: a directory has one handle, and under it the files. -/
structure Agrees (s : History) : Prop where
  handles : ∀ dir h, s.files.nameToHandle dir = some h → s.files.trackedDirectory h =
    some { recursive := true, wholeDirTracked := false, dirName := dir }
  dirs : ∀ h info, s.files.trackedDirectory h = some info → info.wholeDirTracked = false →
    s.files.nameToHandle info.dirName = some h ∧
      s.files.filesTrackedWithinDirectory h = some (s.filesIn info.dirName)
  unopened : ∀ h, s.files.trackedDirectory h = none → s.files.filesTrackedWithinDirectory h = none
  known : ∀ q ∈ s.asked, ∃ h, s.files.nameToHandle q.1 = some h

/-- Nothing is tracked at the start. -/
theorem agrees_start : Agrees {} := ⟨by simp, by simp, by simp, by simp⟩

variable {s s' : History} {t : WinFiles} {dir fileName : Bytes} {h : DirHandle}

/-- The files asked for after one more call. -/
theorem filesIn_concat (s : History) (t : WinFiles) (dir fileName d : Bytes) :
    filesIn ⟨t, s.asked ++ [(dir, fileName)]⟩ d =
      s.filesIn d ++ if dir = d then [fileName] else [] := by
  unfold filesIn
  rw [List.filter_append, List.map_append]
  split_ifs with hd <;> simp [hd]

/-- No file of a directory without a handle has been asked for. -/
theorem filesIn_of_unknown (hs : s.Agrees) (hdir : s.files.nameToHandle dir = none) :
    s.filesIn dir = [] := by
  unfold filesIn
  rw [List.map_eq_nil_iff, List.filter_eq_nil_iff]
  intro q hq hqdir
  obtain ⟨h, hh⟩ := hs.known q hq
  rw [of_decide_eq_true hqdir, hdir] at hh
  cases hh

/-- Another file of a directory that has a handle. -/
theorem Agrees.addFile (hs : s.Agrees) (hdir : s.files.nameToHandle dir = some h) :
    Agrees
      { files :=
          { s.files with
            filesTrackedWithinDirectory :=
              Function.update s.files.filesTrackedWithinDirectory h
                (some (s.filesIn dir ++ [fileName])) }
        asked := s.asked ++ [(dir, fileName)] } := by
  refine ⟨hs.handles, fun h' info hinfo hwhole => ?_, fun h' hh' => ?_, ?_⟩
  · obtain ⟨hname, hfiles⟩ := hs.dirs h' info hinfo hwhole
    refine ⟨hname, ?_⟩
    show Function.update s.files.filesTrackedWithinDirectory h _ h' = _
    rw [filesIn_concat]
    by_cases hsame : h' = h
    · -- the directory of this handle is the one of the file
      subst hsame
      have hdirs := (hs.handles dir h' hdir).symm.trans hinfo
      cases hdirs
      rw [Function.update_self, if_pos rfl]
    · have hother : dir ≠ info.dirName := fun hd => hsame (by
        rw [hd, hname] at hdir
        exact Option.some.inj hdir)
      rw [Function.update_of_ne hsame, if_neg hother, List.append_nil]
      exact hfiles
  · have hne : h' ≠ h := by
      rintro rfl
      rw [hs.handles dir h' hdir] at hh'
      cases hh'
    show Function.update s.files.filesTrackedWithinDirectory h _ h' = _
    rw [Function.update_of_ne hne]
    exact hs.unopened h' hh'
  · intro q hq
    rcases List.mem_append.mp hq with hold | hnew
    · exact hs.known q hold
    · rw [List.mem_singleton.mp hnew]
      exact ⟨h, hdir⟩

/-- The first file of a directory, which gets the handle `h`. -/
theorem Agrees.addDirectory (hs : s.Agrees) (hdir : s.files.nameToHandle dir = none)
    (hh : s.files.trackedDirectory h = none) :
    Agrees
      { files :=
          { s.files with
            filesTrackedWithinDirectory :=
              insertNew s.files.filesTrackedWithinDirectory h [fileName]
            trackedDirectory := insertNew s.files.trackedDirectory h
              { recursive := true, wholeDirTracked := false, dirName := dir }
            nameToHandle := insertNew s.files.nameToHandle dir h }
        asked := s.asked ++ [(dir, fileName)] } := by
  have hfiles := hs.unopened h hh
  refine ⟨fun d h' hd => ?_, fun h' info hinfo hwhole => ?_, fun h' hh' => ?_, ?_⟩
  · change insertNew s.files.nameToHandle dir h d = some h' at hd
    show insertNew s.files.trackedDirectory h _ h' = _
    by_cases hsame : d = dir
    · subst hsame
      rw [insertNew_self_of_none hdir] at hd
      cases hd
      exact insertNew_self_of_none hh
    · rw [insertNew_of_ne _ hsame] at hd
      have hold := hs.handles d h' hd
      have hne : h' ≠ h := by
        rintro rfl
        rw [hh] at hold
        cases hold
      rw [insertNew_of_ne _ hne, hold]
  · change insertNew s.files.trackedDirectory h _ h' = some info at hinfo
    show insertNew s.files.nameToHandle dir h info.dirName = some h' ∧
      insertNew s.files.filesTrackedWithinDirectory h [fileName] h' = _
    rw [filesIn_concat]
    -- the new handle, or one that had no directory before
    by_cases hsame : h' = h
    · subst hsame
      rw [insertNew_self_of_none hh] at hinfo
      cases hinfo
      rw [insertNew_self_of_none hdir, insertNew_self_of_none hfiles, if_pos rfl,
        filesIn_of_unknown hs hdir]
      exact ⟨rfl, rfl⟩
    · rw [insertNew_of_ne _ hsame] at hinfo
      obtain ⟨hname, hvec⟩ := hs.dirs h' info hinfo hwhole
      have hother : info.dirName ≠ dir := by
        intro hd
        rw [hd, hdir] at hname
        cases hname
      rw [insertNew_of_ne _ hother, insertNew_of_ne _ hsame, if_neg (Ne.symm hother),
        List.append_nil]
      exact ⟨hname, hvec⟩
  · change insertNew s.files.trackedDirectory h _ h' = none at hh'
    show insertNew s.files.filesTrackedWithinDirectory h [fileName] h' = none
    by_cases hsame : h' = h
    · subst hsame
      rw [insertNew_self_of_none hh] at hh'
      cases hh'
    · rw [insertNew_of_ne _ hsame] at hh' ⊢
      exact hs.unopened h' hh'
  · intro q hq
    show ∃ h', insertNew s.files.nameToHandle dir h q.1 = some h'
    rw [insertNew_isSome_iff]
    rcases List.mem_append.mp hq with hold | hnew
    · exact Or.inl (hs.known q hold)
    · rw [List.mem_singleton.mp hnew]
      exact Or.inr rfl

/-- `TrackFile` keeps the maps in agreement. -/
theorem Agrees.trackFile {path : Bytes} (hs : s.Agrees)
    (hfresh : s.Fresh (.trackFile path h)) {narrow : List UInt16 → Vector UInt8 512}
    (hstep : s.step narrow (.trackFile path h) = some s') :
    s'.Agrees := by
  obtain ⟨t, ht, rfl⟩ := Option.map_eq_some_iff.mp hstep
  unfold WinFiles.trackFile at ht
  cases hsplit : splitLast '\\'.toUInt8 path with
  | none =>
    rw [hsplit] at ht
    cases ht
  | some found =>
    obtain ⟨dir, fileName⟩ := found
    simp only [hsplit] at ht
    -- the directory has a handle, or is opened now
    cases hdir : s.files.nameToHandle dir with
    | some handle =>
      -- the directory is tracked already, so there are files under its handle
      have hvec := (hs.dirs handle _ (hs.handles dir handle hdir) rfl).2
      simp only [hdir, hvec] at ht
      cases ht
      exact hs.addFile hdir
    | none =>
      simp only [hdir] at ht
      split_ifs at ht
      cases ht
      exact hs.addDirectory hdir (hfresh dir fileName hsplit hdir)

theorem Agrees.trackFolder {folder : FileContent} (hs : s.Agrees)
    (hfresh : s.Fresh (.trackFolder folder h)) {narrow : List UInt16 → Vector UInt8 512}
    (hstep : s.step narrow (.trackFolder folder h) = some s') :
    s'.Agrees := by
  obtain ⟨t, ht, rfl⟩ := Option.map_eq_some_iff.mp hstep
  unfold WinFiles.trackFolder at ht
  split_ifs at ht
  cases ht
  change s.files.trackedDirectory h = none at hfresh
  -- what is not tracked as a whole was there before
  have hothers : ∀ h' info, info.wholeDirTracked = false → insertNew s.files.trackedDirectory h
      { recursive := true, wholeDirTracked := true, dirName := folder.name } h' = some info →
      s.files.trackedDirectory h' = some info := by
    intro h' info hwhole hinfo
    by_cases hsame : h' = h
    · subst hsame
      rw [insertNew_self_of_none hfresh] at hinfo
      cases hinfo
      cases hwhole
    · rwa [insertNew_of_ne _ hsame] at hinfo
  refine ⟨fun d h' hd => ?_, fun h' info hinfo hwhole => ?_, fun h' hh' => ?_, hs.known⟩
  · have hold := hs.handles d h' hd
    have hne : h' ≠ h := by
      rintro rfl
      rw [hfresh] at hold
      cases hold
    exact (insertNew_of_ne _ hne _).trans hold
  · exact hs.dirs h' info (hothers h' info hwhole hinfo) hwhole
  · by_cases hsame : h' = h
    · subst hsame
      exact hs.unopened h' hfresh
    · exact hs.unopened h' ((insertNew_of_ne _ hsame _).symm.trans hh')

/-- A completed request leaves the maps alone. -/
theorem Agrees.completed {buffer : Bytes} (hs : s.Agrees)
    {narrow : List UInt16 → Vector UInt8 512}
    (hstep : s.step narrow (.completed h buffer) = some s') : s'.Agrees := by
  obtain ⟨t, ht, rfl⟩ := Option.map_eq_some_iff.mp hstep
  obtain ⟨info, _, hrest⟩ := Option.bind_eq_some_iff.mp ht
  obtain ⟨changeInfo, _, hsome⟩ := Option.bind_eq_some_iff.mp hrest
  cases hsome
  exact ⟨hs.handles, hs.dirs, hs.unopened, hs.known⟩

theorem Agrees.step {narrow : List UInt16 → Vector UInt8 512} {op : Op} (hs : s.Agrees)
    (hfresh : s.Fresh op) (hstep : s.step narrow op = some s') : s'.Agrees := by
  cases op with
  | trackFile path dirHandle => exact hs.trackFile hfresh hstep
  | trackFolder folder dirHandle => exact hs.trackFolder hfresh hstep
  | completed handle buffer => exact hs.completed hstep

/-- What a record about a file of this name is to put into the queue. -/
def requestedChange (s : History) (info : DirectoryTrackInfo) (fileName : Bytes) :
    List ChangeInfo :=
  if info.wholeDirTracked = true ∨ (info.dirName, fileName) ∈ s.asked then
    [{ file := fileName, directory := info.dirName, result := .writeChange }]
  else []

/-- The files of a directory, by the calls. -/
theorem mem_filesIn : fileName ∈ s.filesIn dir ↔ (dir, fileName) ∈ s.asked := by
  unfold filesIn
  simp only [List.mem_map, List.mem_filter, decide_eq_true_eq]
  constructor
  · rintro ⟨⟨d, f⟩, ⟨hmem, rfl⟩, rfl⟩
    exact hmem
  · intro hmem
    exact ⟨(dir, fileName), ⟨hmem, rfl⟩, rfl⟩

/-- What is reported is what the calls have asked for. -/
theorem report_eq {info : DirectoryTrackInfo} (hs : s.Agrees)
    (hinfo : s.files.trackedDirectory h = some info) (fileName : Bytes) :
    s.files.report h info fileName = s.requestedChange info fileName := by
  unfold WinFiles.report requestedChange
  cases hwhole : info.wholeDirTracked with
  | true => simp
  | false =>
    rw [(hs.dirs h info hinfo hwhole).2]
    simp only [Bool.false_eq_true, if_false, false_or, mem_filesIn]

/-- A request that completes with a chain of records puts into the queue, in their order, the
changes of the files that were asked for in that directory, or of all files of a directory that is
tracked as a whole; the loop ends, and inside of the buffer. No other operation touches the
queue. -/
def ReportsRequested (narrow : List UInt16 → Vector UInt8 512) (s : History) : Op → Prop
  | .completed handle buffer => ∀ info rs stale, s.files.trackedDirectory handle = some info →
      rs ≠ [] → buffer = NotifyRecord.chain rs ++ stale → buffer.length = 1024 →
      (∀ r ∈ rs, 0 ∈ (narrow r.name).toList) →
      ∃ s', s.step narrow (.completed handle buffer) = some s' ∧ s'.files.changeInfo =
        s.files.changeInfo ++
          rs.flatMap fun r => s.requestedChange info (cStr (narrow r.name).toList)
  | op => ∀ s', s.step narrow op = some s' → s'.files.changeInfo = s.files.changeInfo

/-- An operation on maps in agreement reports what was asked for. -/
theorem reportsRequested_of_agrees {narrow : List UInt16 → Vector UInt8 512} (hs : s.Agrees)
    (op : Op) : s.ReportsRequested narrow op := by
  cases op with
  | trackFile path dirHandle =>
    intro s' hstep
    obtain ⟨t, ht, rfl⟩ := Option.map_eq_some_iff.mp hstep
    exact changeInfo_trackFile ht
  | trackFolder folder dirHandle =>
    intro s' hstep
    obtain ⟨t, ht, rfl⟩ := Option.map_eq_some_iff.mp hstep
    unfold WinFiles.trackFolder at ht
    split_ifs at ht
    cases ht
    rfl
  | completed handle buffer =>
    -- only a completed request reports
    rintro info rs stale hinfo hrs rfl hlen hnames
    have hfits : (NotifyRecord.chain rs).length ≤ 1024 := by
      rw [← hlen, List.length_append]
      omega
    have hloop := recordLoop_chain (s.files.report handle info) hrs hnames [] stale
      (by rw [List.length_nil]; omega) (NotifyRecord.chain rs ++ stale).length
      ((NotifyRecord.length_le_chain rs).trans (by simp)) s.files.changeInfo
    have hreports : (fun r : NotifyRecord =>
        s.files.report handle info (cStr (narrow r.name).toList)) =
        fun r => s.requestedChange info (cStr (narrow r.name).toList) :=
      funext fun r => report_eq hs hinfo _
    rw [hreports] at hloop
    have hcompleted : s.files.completed narrow handle (NotifyRecord.chain rs ++ stale) = _ :=
      completed_of_loop hinfo hloop
    refine ⟨_, congrArg (Option.map fun t => (⟨t, s.asked⟩ : History)) hcompleted, ?_⟩
    rfl

/-- **What was asked for is reported.** In every run, each request that completes reports the
changes of the files and folders that were asked for before, and no others. -/
theorem reports_requested (narrow : List UInt16 → Vector UInt8 512) {ops : List Op}
    (hfresh : EachStep (step narrow) Fresh {} ops) :
    EachTry (step narrow) (ReportsRequested narrow) {} ops :=
  EachStep.try_of_invariant (P := Agrees) (fun _ _ _ hs hf hstep => hs.step hf hstep)
    (fun _ op hs => reportsRequested_of_agrees hs op) agrees_start hfresh

/-- What the conversion does to ASCII characters. -/
def narrowAscii (name : List UInt16) : Vector UInt8 512 :=
  ⟨((name.map UInt16.toUInt8).take 511 ++
    List.replicate (512 - min 511 name.length) 0).toArray, by simp⟩

/-- A file is tracked, and a request for its directory completes with two records. -/
theorem reports_requested_example :
    EachTry (step narrowAscii) (ReportsRequested narrowAscii) {}
      [.trackFile (ascii "C:\\d\\a") 1,
        .completed 1 (NotifyRecord.chain [⟨3, [97], [0, 0]⟩, ⟨3, [98], []⟩] ++
          List.replicate 994 0)] :=
  reports_requested narrowAscii
    fun _ _ => ⟨fun _ _ _ _ => rfl, fun _ _ => ⟨trivial, trivial⟩⟩

/-- In that run, the change of the file is reported, and the other one is not. -/
example : ((History.step narrowAscii {} (.trackFile (ascii "C:\\d\\a") 1)).bind fun s =>
    (s.step narrowAscii (.completed 1 (NotifyRecord.chain [⟨3, [97], [0, 0]⟩, ⟨3, [98], []⟩] ++
      List.replicate 994 0))).map fun s => s.files.changeInfo) =
    some [⟨ascii "a", ascii "C:\\d", .writeChange⟩] := by decide +kernel

end History

end WinFiles

end Guthi
