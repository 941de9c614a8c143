import Guthi.Filesystem.CacheKeys
import Guthi.Lib.Fallible
import Guthi.Lib.Ownership

/-!
# Guthi — the memory of the cache

The arrays behind `RawFile::data` and the `unique_ptr`s of the cache: who allocates them, who takes
them over and who deletes them, in `filesystem/cache.cpp` and `filesystem/fs.hpp`. A `RawFile`
does not delete its array by itself; whoever holds one calls `DestroyFile`, or the array is lost.
After `DestroyFile` the `RawFile` still has its pointer, which leads nowhere.

* `Memory.step` — the functions of the cache and their callers, over pointers;
* `Memory.Sound` — every array that is there has one owner, and every size is that of an array or
  less;
* `memory_run` — so it is in every run whose steps are `Careful`: nothing is deleted twice, read
  after it was deleted or read past its end, and what the functions do is what they do to values.
-/

namespace Guthi

/-- What `delete[]`, `memcpy` and `fwrite` can do wrong with a pointer. -/
inductive MemoryFault where
  | doubleFree
  | useAfterFree
  | nullPointer
  | overRead
deriving DecidableEq, Repr

/-- A `FileCacheEntry` with the pointer in its `unique_ptr`. -/
structure StoredEntry where
  location : CacheLocation
  size : Nat
  ipAddr : Ipv4
  fileName : Bytes
  data : Option Nat := none
deriving DecidableEq, Repr

/-- A `RawFile` with its pointer. That `DestroyFile` was called for it is kept beside. -/
structure HeldFile where
  fileSize : Nat := 0
  fileName : Bytes := []
  data : Option Nat := none
  destroyed : Bool := false
deriving DecidableEq, Repr

/-- The array that a `RawFile` is to delete: none if it has done so. -/
def HeldFile.owns (file : HeldFile) : Option Nat := if file.destroyed then none else file.data

/-- The pointer has outlived its array. -/
def HeldFile.Dangling (file : HeldFile) : Prop := file.destroyed = true ∧ file.data ≠ none

/-- A pointer that has not outlived its array is owned. -/
theorem HeldFile.owns_eq {file : HeldFile} (h : ¬ file.Dangling) : file.owns = file.data := by
  unfold owns
  split_ifs with hdestroyed
  · by_contra hne
    exact h ⟨hdestroyed, Ne.symm hne⟩
  · rfl

/-- Read `n` bytes from a pointer on. -/
def readBytes (blocks : Blocks Buffer) (p : Option Nat) (n : Nat) : Except MemoryFault Buffer :=
  if n = 0 then .ok []
  else match p with
    | none => .error .nullPointer
    | some a => match blocks.get a with
      | none => .error .useAfterFree
      | some b => if n ≤ b.length then .ok (b.take n) else .error .overRead

/-- `delete[]`. -/
def deleteArray (blocks : Blocks Buffer) (p : Option Nat) : Except MemoryFault (Blocks Buffer) :=
  match blocks.delete p with
  | none => .error .doubleFree
  | some blocks => .ok blocks

/-- `RawFile::DestroyFile()`. The pointer stays as it is, so a second call deletes it again. -/
def HeldFile.destroyFile (blocks : Blocks Buffer) (file : HeldFile) :
    Except MemoryFault (Blocks Buffer × HeldFile) := do
  let blocks ← deleteArray blocks file.data
  return (blocks, { file with fileSize := 0, destroyed := true })

/-- The arrays, the cache, the disk, the `RawFile`s that somebody holds, and the pointers in those
that were dropped without `DestroyFile`. -/
structure Memory (F : Type) where
  localCacheDirectory : Bytes
  blocks : Blocks Buffer := {}
  offlineCache : Multimap Bytes StoredEntry := Multimap.empty
  disk : Disk F
  files : List HeldFile := []
  lost : List (Option Nat) := []

namespace Memory

/-! ## The functions -/

/-- `new uint8_t[]`, and what is copied into it. -/
def newArray {F : Type} (s : Memory F) (content : Buffer) : Memory F × Nat :=
  ({ s with blocks := (s.blocks.alloc content).1 }, (s.blocks.alloc content).2)

/-- Somebody holds one more `RawFile`. -/
def withFile {F : Type} (s : Memory F) (file : HeldFile) : Memory F :=
  { s with files := s.files ++ [file] }

section

variable {F : Type} [DecidableEq F] (resolve : Bytes → F)

/-- `AddFileToCache(file, ip_addr)`, with what it leaves in `file`. -/
def addFileToCache (s : Memory F) (file : HeldFile) (ipAddr : Ipv4) (memoryShort created : Bool) :
    Except MemoryFault (Memory F × HeldFile) := do
  let entry : StoredEntry :=
    { fileName := file.fileName, size := file.fileSize, ipAddr := ipAddr, location := .onRAM }
  if memoryShort then
    if !created then return (s, file)
    else
      let content ← readBytes s.blocks file.data file.fileSize
      return ({ s with
          disk := s.disk.write resolve file.fileName content
          offlineCache := s.offlineCache.insert file.fileName { entry with location := .onDisk } },
        file)
  else
    let offlineCache := s.offlineCache.insert file.fileName { entry with data := file.data }
    let (blocks, file) ← HeldFile.destroyFile s.blocks { file with data := none }
    return ({ s with offlineCache, blocks }, file)

/-- `RemoveFromCache(file_name, ip_addr)`: the entry that goes deletes its array. -/
def removeFromCache (s : Memory F) (fileName : Bytes) (ipAddr : Ipv4) :
    Except MemoryFault (Bool × Memory F) :=
  if s.offlineCache.count fileName = 0 then .ok (false, s)
  else
    match (s.offlineCache.lowerBound fileName).find? fun e => ipAddr = e.2.ipAddr with
    | none => .ok (false, s)
    | some e => do
      let blocks ← deleteArray s.blocks e.2.data
      return (true, { s with
        blocks
        offlineCache := s.offlineCache.eraseFrom fileName fun e => ipAddr = e.2.ipAddr })

/-- `GetCachedEntry(file, ip_addr)`. -/
def getCachedEntry (s : Memory F) (file : Bytes) (ipAddr : Ipv4) : Option StoredEntry :=
  if s.offlineCache.count file = 0 then none
  else ((s.offlineCache.lowerBound file).find? fun e => ipAddr ≠ e.2.ipAddr).map Prod.snd

/-- `GetCachedFile(file, ip_addr)`: a file with an array of its own. -/
def getCachedFile (s : Memory F) (file : Bytes) (ipAddr : Ipv4) :
    Except MemoryFault (Memory F × HeldFile) :=
  match s.getCachedEntry file ipAddr with
  | none => .ok (s, {})
  | some entry =>
    let rFile : HeldFile := { fileName := file, fileSize := entry.size }
    if entry.location = .onRAM then do
      let content ← readBytes s.blocks entry.data entry.size
      let (s, data) := s.newArray content
      return (s, { rFile with data := some data })
    else
      match s.disk.read resolve rFile.fileName with
      | none => .ok (s, rFile)
      | some content =>
        let (s, data) := s.newArray (copyInto rFile.fileSize content)
        .ok (s, { rFile with data := some data })

/-- The functions and what their callers do with the `RawFile`s: one is made from bytes, with or
without its size, or is fetched; one is destroyed, or goes out of scope. -/
inductive Op where
  | newFile (fileName bytes : Bytes) (sized : Bool)
  | add (i : Nat) (ipAddr : Ipv4) (memoryShort created : Bool)
  | remove (fileName : Bytes) (ipAddr : Ipv4)
  | get (fileName : Bytes) (ipAddr : Ipv4)
  | destroy (i : Nat)
  | drop (i : Nat)
deriving DecidableEq, Repr

/-- One operation. Nothing is done to a `RawFile` that nobody holds. -/
def step (s : Memory F) : Op → Except MemoryFault (Memory F)
  | .newFile fileName bytes sized =>
    let (s, data) := s.newArray (bytes.map some)
    .ok (s.withFile { fileSize := if sized then bytes.length else 0, fileName, data := some data })
  | .add i ipAddr memoryShort created =>
    match s.files[i]? with
    | none => .ok s
    | some file => do
      let (s, file) ← s.addFileToCache resolve file ipAddr memoryShort created
      return { s with files := s.files.set i file }
  | .remove fileName ipAddr => do
    let (_, s) ← s.removeFromCache fileName ipAddr
    return s
  | .get fileName ipAddr => do
    let (s, file) ← s.getCachedFile resolve fileName ipAddr
    return s.withFile file
  | .destroy i =>
    match s.files[i]? with
    | none => .ok s
    | some file => do
      let (blocks, file) ← file.destroyFile s.blocks
      return { s with blocks, files := s.files.set i file }
  | .drop i =>
    match s.files[i]? with
    | none => .ok s
    | some file => .ok { s with files := s.files.eraseIdx i, lost := file.owns :: s.lost }

/-- Operations one after the other, up to the first fault. -/
def run (s : Memory F) (ops : List Op) : Except MemoryFault (Memory F) :=
  ops.foldlM (step resolve) s

end

end Memory

/-! ## The values behind the pointers -/

/-- An entry with its array as a value. -/
def StoredEntry.value (blocks : Blocks Buffer) (e : StoredEntry) : FileCacheEntry where
  location := e.location
  size := e.size
  ipAddr := e.ipAddr
  fileName := e.fileName
  data := blocks.load e.data

/-- A `RawFile` that was destroyed has no array. -/
def HeldFile.value (blocks : Blocks Buffer) (file : HeldFile) : RawFile where
  fileSize := file.fileSize
  fileName := file.fileName
  data := blocks.load file.owns

/-- Of a `RawFile` that is not destroyed, the value is what its pointer leads to. -/
theorem HeldFile.value_eq {file : HeldFile} (h : ¬ file.Dangling) (blocks : Blocks Buffer) :
    file.value blocks = ⟨file.fileSize, file.fileName, blocks.load file.data⟩ := by
  rw [value, owns_eq h]

/-- The cache, the disk and the `RawFile`s, with the arrays as values. -/
structure CacheValues (F : Type) where
  cache : FileCache
  disk : Disk F
  files : List RawFile := []

/-- The whole state with its arrays as values. -/
def Memory.value {F : Type} (s : Memory F) : CacheValues F where
  cache := ⟨s.localCacheDirectory, s.offlineCache.mapValues (StoredEntry.value s.blocks)⟩
  disk := s.disk
  files := s.files.map (HeldFile.value s.blocks)

namespace CacheValues

variable {F : Type} [DecidableEq F] (resolve : Bytes → F)

/-- What an operation does to the values: no array is shared, so each has its own. -/
def step (v : CacheValues F) : Memory.Op → CacheValues F
  | .newFile fileName bytes sized =>
    { v with files := v.files ++
        [⟨if sized then bytes.length else 0, fileName, some (bytes.map some)⟩] }
  | .add i ipAddr memoryShort created =>
    match v.files[i]? with
    | none => v
    | some file =>
      let (cache, disk) := v.cache.addFileToCache resolve v.disk file ipAddr memoryShort created
      { cache, disk
        files := v.files.set i
          (if memoryShort then file else { file with data := none, fileSize := 0 }) }
  | .remove fileName ipAddr => { v with cache := (v.cache.removeFromCache fileName ipAddr).2 }
  | .get fileName ipAddr =>
    { v with files := v.files ++ [v.cache.getCachedFile resolve v.disk fileName ipAddr] }
  | .destroy i =>
    match v.files[i]? with
    | none => v
    | some file => { v with files := v.files.set i { file with data := none, fileSize := 0 } }
  | .drop i => { v with files := v.files.eraseIdx i }

/-- Operations on values; none of them fails. -/
def run (v : CacheValues F) (ops : List Memory.Op) : CacheValues F := ops.foldl (step resolve) v

end CacheValues

/-! ## The invariant -/

/-- So many bytes can be read from the pointer on. -/
def Fits (blocks : Blocks Buffer) (p : Option Nat) (n : Nat) : Prop :=
  n ≤ ((blocks.load p).getD []).length

/-- What fits can be read, and is what is there. -/
theorem readBytes_eq {blocks : Blocks Buffer} {p : Option Nat} {n : Nat} (h : Fits blocks p n) :
    readBytes blocks p n = .ok (copyInto n ((blocks.load p).getD [])) := by
  unfold readBytes
  -- `memcpy` and `fwrite` of nothing do not look at the pointer
  by_cases hn : n = 0
  · rw [if_pos hn, hn]
    rfl
  · rw [if_neg hn]
    cases p with
    -- only nothing fits behind a null pointer
    | none => exact absurd (Nat.le_zero.mp h) hn
    | some a =>
      unfold Fits Blocks.load at h
      show (match blocks.get a with
        | none => Except.error MemoryFault.useAfterFree
        | some b => if n ≤ b.length then .ok (b.take n) else .error MemoryFault.overRead) =
        .ok (copyInto n ((blocks.get a).getD []))
      cases hget : blocks.get a with
      | none =>
        rw [Option.bind_some, hget] at h
        exact absurd (Nat.le_zero.mp h) hn
      | some b =>
        rw [Option.bind_some, hget] at h
        have hle : n ≤ b.length := h
        show (if n ≤ b.length then _ else _) = Except.ok (b.takeD n none)
        rw [if_pos hle, List.takeD_eq_take _ hle]

/-- Nothing can be read from any pointer. -/
theorem fits_zero (blocks : Blocks Buffer) (p : Option Nat) : Fits blocks p 0 := Nat.zero_le _

/-- What fits depends only on what the pointer leads to. -/
theorem Fits.congr {blocks blocks' : Blocks Buffer} {p : Option Nat} {n : Nat}
    (h : Fits blocks p n) (hload : blocks'.load p = blocks.load p) : Fits blocks' p n := by
  unfold Fits
  rw [hload]
  exact h

namespace Memory

variable {F : Type} {s : Memory F}

/-- Who has a pointer: an entry of the cache, somebody who holds a `RawFile`, or nobody any more. -/
def owners (s : Memory F) : List (Option Nat) :=
  s.offlineCache.entries.map (fun e => e.2.data) ++ (s.files.map HeldFile.owns ++ s.lost)

/-- No size is greater than that of the array. -/
structure Fitting (s : Memory F) : Prop where
  entries : ∀ e ∈ s.offlineCache.entries, e.2.location = .onRAM → Fits s.blocks e.2.data e.2.size
  -- a file that `GetCachedFile` could not open has its size, and no array
  files : ∀ file ∈ s.files, file.owns ≠ none → Fits s.blocks file.owns file.fileSize

/-- What holds between the calls: sizes fit, and each array has one owner. -/
structure Sound (s : Memory F) : Prop extends s.Fitting where
  owned : Owned s.blocks s.owners

/-- What `cache.cpp` asks of its callers: a `RawFile` that was destroyed is not used again, and one
without an array is not used as a file. -/
def Careful (s : Memory F) : Op → Prop
  | .add i _ _ _ => ∀ file, s.files[i]? = some file →
      ¬ file.Dangling ∧ (file.data = none → file.fileSize = 0)
  | .destroy i => ∀ file, s.files[i]? = some file → ¬ file.Dangling
  | _ => True

/-! ## Who owns what after a change -/

/-- The owners, but for the `RawFile` at `i`. -/
def othersThan (s : Memory F) (i : Nat) : List (Option Nat) :=
  s.offlineCache.entries.map (fun e => e.2.data) ++
    ((s.files.eraseIdx i).map HeldFile.owns ++ s.lost)

/-- A `RawFile` that is held, and all other owners. -/
theorem owners_perm {i : Nat} {file : HeldFile} (hi : s.files[i]? = some file) :
    s.owners.Perm (file.owns :: s.othersThan i) := by
  obtain ⟨hlt, rfl⟩ := List.getElem?_eq_some_iff.mp hi
  have hfiles : (s.files.map HeldFile.owns).Perm
      (s.files[i].owns :: (s.files.eraseIdx i).map HeldFile.owns) :=
    ((List.getElem_cons_eraseIdx_perm hlt).map HeldFile.owns).symm
  exact ((hfiles.append_right s.lost).append_left _).trans List.perm_middle

/-- The same after the `RawFile` has been changed. -/
theorem owners_set_perm {i : Nat} {file file' : HeldFile} (hi : s.files[i]? = some file) :
    ({ s with files := s.files.set i file' } : Memory F).owners.Perm
      (file'.owns :: s.othersThan i) := by
  have hlt := (List.getElem?_eq_some_iff.mp hi).1
  have hfiles : ((s.files.set i file').map HeldFile.owns).Perm
      (file'.owns :: (s.files.eraseIdx i).map HeldFile.owns) :=
    (List.set_perm_cons_eraseIdx hlt file').map HeldFile.owns
  exact ((hfiles.append_right s.lost).append_left _).trans List.perm_middle

/-- A new entry is one more owner. -/
theorem owners_insert_perm (s : Memory F) (name : Bytes) (e : StoredEntry) :
    ({ s with offlineCache := s.offlineCache.insert name e } : Memory F).owners.Perm
      (e.data :: s.owners) :=
  ((Multimap.insertEntry_perm (name, e) s.offlineCache.entries).map fun e => e.2.data).append_right
    _

/-- So is a `RawFile` that somebody comes to hold. -/
theorem owners_withFile_perm (s : Memory F) (file : HeldFile) :
    (s.withFile file).owners.Perm (file.owns :: s.owners) := by
  have hfiles : ((s.files ++ [file]).map HeldFile.owns).Perm
      (file.owns :: s.files.map HeldFile.owns) :=
    (List.perm_append_singleton file s.files).map HeldFile.owns
  exact ((hfiles.append_right s.lost).append_left _).trans List.perm_middle

/-- Other arrays, which all owners see as before. -/
theorem Sound.value_eq {blocks : Blocks Buffer}
    (hload : ∀ p ∈ s.owners, blocks.load p = s.blocks.load p) :
    ({ s with blocks } : Memory F).value = s.value := by
  -- the entries see their arrays as before
  have hcache : s.offlineCache.mapValues (StoredEntry.value blocks) =
      s.offlineCache.mapValues (StoredEntry.value s.blocks) := by
    refine Multimap.mapValues_congr fun e he => ?_
    unfold StoredEntry.value
    rw [hload _ (List.mem_append_left _ (List.mem_map_of_mem he))]
  -- and so do those that hold a `RawFile`
  have hfiles : s.files.map (HeldFile.value blocks) =
      s.files.map (HeldFile.value s.blocks) := by
    refine List.map_congr_left fun file hfile => ?_
    unfold HeldFile.value
    rw [hload _ (List.mem_append_right _ (List.mem_append_left _ (List.mem_map_of_mem hfile)))]
  unfold value
  rw [hcache, hfiles]

/-- The entries of the cache are owners. -/
theorem mem_owners_entry {e : Bytes × StoredEntry} (he : e ∈ s.offlineCache.entries) :
    e.2.data ∈ s.owners :=
  List.mem_append_left _ (List.mem_map_of_mem he)

/-- Whoever holds a `RawFile` is an owner. -/
theorem mem_owners_file {file : HeldFile} (hfile : file ∈ s.files) : file.owns ∈ s.owners :=
  List.mem_append_right _ (List.mem_append_left _ (List.mem_map_of_mem hfile))

/-- A `RawFile` more, as a value. -/
theorem withFile_value (s : Memory F) (file : HeldFile) : (s.withFile file).value =
    { s.value with files := s.value.files ++ [file.value s.blocks] } := by
  unfold value withFile
  rw [List.map_append]
  rfl

/-! ## The steps -/

theorem Sound.hold (hs : s.Sound) (content : Buffer) {size : Nat} (hsize : size ≤ content.length)
    (name : Bytes) :
    ((s.newArray content).1.withFile ⟨size, name, some (s.newArray content).2, false⟩).Sound ∧
      ((s.newArray content).1.withFile ⟨size, name, some (s.newArray content).2, false⟩).value =
        { s.value with files := s.value.files ++ [⟨size, name, some content⟩] } := by
  have hload : ∀ p ∈ s.owners, (s.blocks.alloc content).1.load p = s.blocks.load p :=
    fun p hp => hs.owned.load_alloc content hp
  have hnew : (s.blocks.alloc content).1.load (some (s.newArray content).2) = some content := by
    show (s.blocks.alloc content).1.get s.blocks.cells.length = some content
    rw [s.blocks.get_alloc, if_pos rfl]
  refine ⟨⟨⟨fun e he hram => ?_, fun file hfile hne => ?_⟩, ?_⟩, ?_⟩
  · -- the arrays that were there are not touched
    exact (hs.entries e he hram).congr (hload _ (mem_owners_entry he))
  · rcases List.mem_append.mp hfile with hold | hlast
    · exact (hs.files file hold hne).congr (hload _ (mem_owners_file hold))
    · rw [List.mem_singleton.mp hlast]
      show size ≤ (((s.blocks.alloc content).1.load (some (s.newArray content).2)).getD []).length
      rw [hnew]
      exact hsize
  · -- the new array has the new `RawFile` as its only owner
    exact (hs.owned.alloc content).perm (owners_withFile_perm s _)
  · have hvalue : (s.newArray content).1.value = s.value := Sound.value_eq hload
    have hfile : HeldFile.value (s.newArray content).1.blocks
        ⟨size, name, some (s.newArray content).2, false⟩ = ⟨size, name, some content⟩ :=
      congrArg (RawFile.mk size name) hnew
    rw [withFile_value, hvalue, hfile]

/-- Somebody holds a `RawFile` without an array. -/
theorem Sound.holdNone (hs : s.Sound) (size : Nat) (name : Bytes) :
    (s.withFile ⟨size, name, none, false⟩).Sound ∧ (s.withFile ⟨size, name, none, false⟩).value =
      { s.value with files := s.value.files ++ [⟨size, name, none⟩] } := by
  refine ⟨⟨⟨hs.entries, fun file hfile hne => ?_⟩, ?_⟩, withFile_value s _⟩
  · rcases List.mem_append.mp hfile with hold | hlast
    · exact hs.files file hold hne
    · rw [List.mem_singleton.mp hlast] at hne
      exact absurd rfl hne
  · exact (Owned.null_cons.mpr hs.owned).perm (owners_withFile_perm s _)

/-- The search does not look at the arrays. -/
theorem getCachedEntry_value (s : Memory F) (name : Bytes) (ipAddr : Ipv4) :
    s.value.cache.getCachedEntry name ipAddr =
      (s.getCachedEntry name ipAddr).map (StoredEntry.value s.blocks) := by
  unfold FileCache.getCachedEntry getCachedEntry FileCache.findEntry value
  rw [Multimap.count_mapValues, Multimap.lowerBound_mapValues, List.find?_map]
  -- the search goes by names and addresses
  split_ifs with hcount
  · rfl
  · rw [Option.map_map, Option.map_map]
    rfl

/-- What is found is an entry of the cache. -/
theorem mem_of_getCachedEntry {name : Bytes} {ipAddr : Ipv4} {entry : StoredEntry}
    (h : s.getCachedEntry name ipAddr = some entry) :
    ∃ e ∈ s.offlineCache.entries, e.2 = entry := by
  unfold getCachedEntry at h
  split_ifs at h
  obtain ⟨e, hfind, rfl⟩ := Option.map_eq_some_iff.mp h
  exact ⟨e, (Multimap.mem_lowerBound.mp (List.mem_of_find?_eq_some hfind)).1, rfl⟩

/-- A copy is as long as it is asked for. -/
theorem length_copyInto (n : Nat) (source : Buffer) : (copyInto n source).length = n :=
  List.takeD_length n source none

/-- An array that nobody else owns is deleted; all others are as before. -/
theorem Fitting.deleteArray (hs : s.Fitting) {p : Option Nat}
    (howned : Owned s.blocks (p :: s.owners)) :
    ∃ blocks, deleteArray s.blocks p = .ok blocks ∧ ({ s with blocks } : Memory F).Sound ∧
      ({ s with blocks } : Memory F).value = s.value := by
  -- there is one owner, so nobody else sees it
  obtain ⟨blocks, hdelete, howned', hload⟩ := howned.delete
  refine ⟨blocks, ?_, ⟨⟨fun e he hram => ?_, fun file hfile hne => ?_⟩, howned'⟩,
    Sound.value_eq hload⟩
  · unfold Guthi.deleteArray
    rw [hdelete]
  · exact (hs.entries e he hram).congr (hload _ (mem_owners_entry he))
  · exact (hs.files file hfile hne).congr (hload _ (mem_owners_file hfile))

/-- The search of `RemoveFromCache`. -/
def entryToRemove (s : Memory F) (name : Bytes) (ipAddr : Ipv4) : Option (Bytes × StoredEntry) :=
  if s.offlineCache.count name = 0 then none
  else (s.offlineCache.lowerBound name).find? fun e => ipAddr = e.2.ipAddr

/-- `RemoveFromCache` in one case distinction. -/
theorem removeFromCache_eq (s : Memory F) (name : Bytes) (ipAddr : Ipv4) :
    s.removeFromCache name ipAddr = match s.entryToRemove name ipAddr with
      | none => .ok (false, s)
      | some e => do
        let blocks ← deleteArray s.blocks e.2.data
        return (true, { s with
          blocks
          offlineCache := s.offlineCache.eraseFrom name fun e => ipAddr = e.2.ipAddr }) := by
  unfold removeFromCache entryToRemove
  split_ifs with hcount
  · rfl
  · rfl

theorem removeFromCache_value (s : Memory F) (name : Bytes) (ipAddr : Ipv4) :
    (s.value.cache.removeFromCache name ipAddr).2 = match s.entryToRemove name ipAddr with
      | none => s.value.cache
      | some _ => ⟨s.localCacheDirectory,
          (s.offlineCache.eraseFrom name fun e => ipAddr = e.2.ipAddr).mapValues
            (StoredEntry.value s.blocks)⟩ := by
  unfold FileCache.removeFromCache entryToRemove value
  rw [Multimap.count_mapValues, Multimap.lowerBound_mapValues, List.find?_map]
  split_ifs with hcount
  · rfl
  · -- the address is compared, which an entry has with or without its array
    have hsame : ((fun e : Bytes × FileCacheEntry => decide (ipAddr = e.2.ipAddr)) ∘
        Prod.map id (StoredEntry.value s.blocks)) = fun e => decide (ipAddr = e.2.ipAddr) := rfl
    rw [hsame]
    cases (s.offlineCache.lowerBound name).find? fun e => ipAddr = e.2.ipAddr with
    | none => rfl
    | some e => exact congrArg (FileCache.mk _) (Multimap.mapValues_eraseFrom _ _ _ _).symm

theorem Fitting.eraseIdx (hs : s.Fitting) (i : Nat) :
    ({ s with files := s.files.eraseIdx i } : Memory F).Fitting :=
  ⟨hs.entries, fun file hfile => hs.files file (List.mem_of_mem_eraseIdx hfile)⟩

/-- A `RawFile` less, as a value. -/
theorem eraseIdx_value (s : Memory F) (i : Nat) :
    ({ s with files := s.files.eraseIdx i } : Memory F).value =
      { s.value with files := s.value.files.eraseIdx i } := by
  unfold value
  rw [List.eraseIdx_map]

theorem insert_value (s : Memory F) (name : Bytes) (e : StoredEntry) :
    ({ s with offlineCache := s.offlineCache.insert name e } : Memory F).value =
      { s.value with
        cache := ⟨s.localCacheDirectory,
          (s.offlineCache.mapValues (StoredEntry.value s.blocks)).insert name
            (e.value s.blocks)⟩ } := by
  unfold value
  rw [Multimap.mapValues_insert]

theorem set_value (s : Memory F) (i : Nat) (file : HeldFile) :
    ({ s with files := s.files.set i file } : Memory F).value =
      { s.value with files := s.value.files.set i (file.value s.blocks) } := by
  unfold value
  rw [List.map_set]

/-- Putting back what was there changes nothing. -/
theorem set_self {i : Nat} {file : HeldFile} (hi : s.files[i]? = some file) :
    s.files.set i file = s.files := by
  obtain ⟨hlt, rfl⟩ := List.getElem?_eq_some_iff.mp hi
  exact List.set_getElem_self hlt

/-- After an insertion, an entry is the new one or an old one. -/
theorem mem_entries_insert {name : Bytes} {e : StoredEntry} {e' : Bytes × StoredEntry}
    (h : e' ∈ (s.offlineCache.insert name e).entries) :
    e' = (name, e) ∨ e' ∈ s.offlineCache.entries :=
  List.mem_cons.mp ((Multimap.insertEntry_perm _ _).mem_iff.mp h)

section Steps

variable [DecidableEq F] {resolve : Bytes → F}

/-- The step goes well, and does to the values what the operation does. -/
def StepsWell (resolve : Bytes → F) (s : Memory F) (op : Op) : Prop :=
  ∃ s', s.step resolve op = .ok s' ∧ s'.Sound ∧ s'.value = s.value.step resolve op

/-- `GetCachedFile`, once it is known what it returns. -/
theorem stepsWell_get_of {name : Bytes} {ipAddr : Ipv4} {s₁ : Memory F} {file : HeldFile}
    {content : RawFile} (hget : s.getCachedFile resolve name ipAddr = .ok (s₁, file))
    (hvalue : s.value.cache.getCachedFile resolve s.disk name ipAddr = content)
    (h : (s₁.withFile file).Sound ∧
      (s₁.withFile file).value = { s.value with files := s.value.files ++ [content] }) :
    StepsWell resolve s (.get name ipAddr) := by
  refine ⟨s₁.withFile file, ?_, h.1, ?_⟩
  · show (s.getCachedFile resolve name ipAddr >>= _) = _
    rw [hget]
    rfl
  · rw [h.2, ← hvalue]
    rfl

/-- What `GetCachedFile` returns has an array of its own, or none. -/
theorem Sound.step_get (hs : s.Sound) (name : Bytes) (ipAddr : Ipv4) :
    StepsWell resolve s (.get name ipAddr) := by
  have hentries := getCachedEntry_value s name ipAddr
  cases hentry : s.getCachedEntry name ipAddr with
  -- no entry: a `RawFile` with nothing in it
  | none =>
    rw [hentry] at hentries
    have hget : s.getCachedFile resolve name ipAddr = .ok (s, {}) := by
      rw [getCachedFile, hentry]
    refine stepsWell_get_of hget ?_ (hs.holdNone 0 [])
    rw [FileCache.getCachedFile, hentries]
    rfl
  | some entry =>
    rw [hentry] at hentries
    obtain ⟨e, he, rfl⟩ := mem_of_getCachedEntry hentry
    by_cases hram : e.2.location = .onRAM
    · -- a copy of the array of the entry
      refine stepsWell_get_of ?_ ?_ (hs.hold
        (copyInto e.2.size ((s.blocks.load e.2.data).getD [])) (length_copyInto _ _).ge name)
      · rw [getCachedFile, hentry]
        simp only [if_pos hram, readBytes_eq (hs.entries e he hram), ok_bind]
        rfl
      · rw [FileCache.getCachedFile, hentries]
        exact if_pos hram
    · -- the file on the disk may be gone
      cases hread : s.disk.read resolve name with
      | none =>
        refine stepsWell_get_of ?_ ?_ (hs.holdNone e.2.size name)
        · rw [getCachedFile, hentry]
          simp only [if_neg hram, hread]
        · rw [FileCache.getCachedFile, hentries]
          simp only [Option.map_some, StoredEntry.value, if_neg hram, hread]
          rfl
      | some content =>
        refine stepsWell_get_of ?_ ?_
          (hs.hold (copyInto e.2.size content) (length_copyInto _ _).ge name)
        · rw [getCachedFile, hentry]
          simp only [if_neg hram, hread]
        · rw [FileCache.getCachedFile, hentries]
          simp only [Option.map_some, StoredEntry.value, if_neg hram, hread]

/-- `RemoveFromCache` deletes one array, which only the entry owned. -/
theorem Sound.step_remove (hs : s.Sound) (name : Bytes) (ipAddr : Ipv4) :
    StepsWell resolve s (.remove name ipAddr) := by
  have heq := removeFromCache_eq s name ipAddr
  have hvalue := removeFromCache_value s name ipAddr
  have hstep : s.step resolve (.remove name ipAddr) =
      s.removeFromCache name ipAddr >>= fun r => .ok r.2 := rfl
  have hvalues : s.value.step resolve (.remove name ipAddr) =
      { s.value with cache := (s.value.cache.removeFromCache name ipAddr).2 } := rfl
  cases hentry : s.entryToRemove name ipAddr with
  | none =>
    simp only [hentry] at heq hvalue
    refine ⟨s, ?_, hs, ?_⟩
    · rw [hstep, heq]
      rfl
    · rw [hvalues, hvalue]
  | some e =>
    simp only [hentry] at heq hvalue
    unfold entryToRemove at hentry
    split_ifs at hentry with hcount
    -- the entry that goes, and those around it
    obtain ⟨pre, post, hsplit, herased⟩ := Multimap.eraseFrom_split hentry
    let t : Memory F := { s with
      offlineCache := s.offlineCache.eraseFrom name fun e => ipAddr = e.2.ipAddr }
    have hfitting : t.Fitting := by
      refine ⟨fun e' he' => hs.entries e' ?_, hs.files⟩
      rw [hsplit]
      have hmem : e' ∈ pre ++ post := herased ▸ he'
      simp only [List.mem_append, List.mem_cons] at hmem ⊢
      exact hmem.imp_right Or.inr
    -- its pointer goes with the entry
    have howners : (e.2.data :: t.owners).Perm s.owners := by
      rw [owners, owners, herased, hsplit, List.map_append, List.map_append, List.map_cons,
        List.append_assoc, List.append_assoc]
      exact List.perm_middle.symm
    obtain ⟨blocks, hdelete, hsound, hkept⟩ := hfitting.deleteArray (hs.owned.perm howners)
    refine ⟨{ t with blocks }, ?_, hsound, ?_⟩
    · rw [hstep, heq, show deleteArray s.blocks e.2.data = .ok blocks from hdelete]
      rfl
    · rw [hkept, hvalues, hvalue]
      rfl

/-- A `RawFile` from bytes has them all; its size may be left at 0. -/
theorem Sound.step_newFile (hs : s.Sound) (name bytes : Bytes) (sized : Bool) :
    StepsWell resolve s (.newFile name bytes sized) := by
  have hsize : (if sized then bytes.length else 0) ≤ (bytes.map some : Buffer).length := by
    rw [List.length_map]
    split_ifs
    · exact le_rfl
    · exact Nat.zero_le _
  obtain ⟨hsound, hvalue⟩ := hs.hold (bytes.map some) hsize name
  exact ⟨_, rfl, hsound, hvalue⟩

/-- `DestroyFile` deletes the array of one `RawFile`. -/
theorem Sound.step_destroy (hs : s.Sound) (i : Nat) (hcareful : s.Careful (.destroy i)) :
    StepsWell resolve s (.destroy i) := by
  cases hi : s.files[i]? with
  | none =>
    have hfile : s.value.files[i]? = none := by
      rw [value, List.getElem?_map, hi]
      rfl
    refine ⟨s, ?_, hs, ?_⟩
    · rw [step, hi]
    · rw [CacheValues.step, hfile]
  | some file =>
    have hfile : s.value.files[i]? = some (file.value s.blocks) := by
      rw [value, List.getElem?_map, hi]
      rfl
    -- the pointer stays, but owns nothing any more
    let file' : HeldFile := { file with fileSize := 0, destroyed := true }
    let t : Memory F := { s with files := s.files.set i file' }
    have hfitting : t.Fitting := by
      refine ⟨hs.entries, fun f hf hne => ?_⟩
      rcases List.mem_or_eq_of_mem_set hf with hf | rfl
      · exact hs.files f hf hne
      · exact absurd rfl hne
    -- what the `RawFile` owned is all that is deleted
    have howned : Owned s.blocks (file.data :: t.owners) := by
      have hset : t.owners.Perm (none :: s.othersThan i) := owners_set_perm hi
      have hbefore : Owned s.blocks (file.data :: s.othersThan i) := by
        rw [← HeldFile.owns_eq (hcareful file hi)]
        exact hs.owned.perm (owners_perm hi).symm
      refine Owned.perm ?_ ((hset.cons file.data).trans (List.Perm.swap _ _ _))
      exact Owned.null_cons.mpr hbefore
    obtain ⟨blocks, hdelete, hsound, hkept⟩ := hfitting.deleteArray howned
    refine ⟨{ t with blocks }, ?_, hsound, ?_⟩
    · rw [step, hi]
      show (HeldFile.destroyFile s.blocks file >>= _) = _
      rw [HeldFile.destroyFile, show Guthi.deleteArray s.blocks file.data = .ok blocks from hdelete]
      rfl
    · rw [hkept, set_value, CacheValues.step, hfile]
      rfl

/-- A `RawFile` that goes out of scope leaves its array behind, unless it was destroyed. -/
theorem Sound.step_drop (hs : s.Sound) (i : Nat) : StepsWell resolve s (.drop i) := by
  have hvalues : s.value.step resolve (.drop i) =
      { s.value with files := s.value.files.eraseIdx i } := rfl
  cases hi : s.files[i]? with
  | none =>
    refine ⟨s, ?_, hs, ?_⟩
    · rw [step, hi]
    · rw [hvalues, ← eraseIdx_value, List.eraseIdx_of_length_le (List.getElem?_eq_none_iff.mp hi)]
  | some file =>
    refine ⟨{ s with files := s.files.eraseIdx i, lost := file.owns :: s.lost }, ?_, ⟨?_, ?_⟩, ?_⟩
    · rw [step, hi]
    · exact ⟨hs.entries, (hs.toFitting.eraseIdx i).files⟩
    · -- nobody has the pointer any more
      refine hs.owned.perm (List.Perm.trans ?_ (owners_perm hi).symm)
      exact (List.perm_middle.append_left _).trans List.perm_middle
    · exact eraseIdx_value s i

/-- `AddFileToCache` on values, for the `RawFile` at `i`. -/
theorem step_add_value (resolve : Bytes → F) {i : Nat} {file : HeldFile}
    (hi : s.files[i]? = some file) (ipAddr : Ipv4) (memoryShort created : Bool) :
    s.value.step resolve (.add i ipAddr memoryShort created) =
      { cache := (s.value.cache.addFileToCache resolve s.disk (file.value s.blocks) ipAddr
          memoryShort created).1
        disk := (s.value.cache.addFileToCache resolve s.disk (file.value s.blocks) ipAddr
          memoryShort created).2
        files := s.value.files.set i (if memoryShort then file.value s.blocks
          else { file.value s.blocks with data := none, fileSize := 0 }) } := by
  have hfile : s.value.files[i]? = some (file.value s.blocks) := by
    rw [value, List.getElem?_map, hi]
    rfl
  rw [CacheValues.step, hfile]
  rfl

/-- On the disk: the array is read, and stays with the `RawFile`. -/
theorem Sound.step_add_onDisk (hs : s.Sound) {i : Nat} {file : HeldFile}
    (hi : s.files[i]? = some file) (hlive : ¬ file.Dangling)
    (hfits : Fits s.blocks file.data file.fileSize) (ipAddr : Ipv4) (created : Bool) :
    StepsWell resolve s (.add i ipAddr true created) := by
  have hvalues := step_add_value resolve hi ipAddr true created
  have hfiles : s.value.files.set i (file.value s.blocks) = s.value.files := by
    have hset := set_value s i file
    rw [set_self hi] at hset
    exact (congrArg CacheValues.files hset).symm
  -- if the file cannot be created, nothing happens
  cases created with
  | false =>
    refine ⟨s, ?_, hs, ?_⟩
    · rw [step, hi]
      show Except.ok { s with files := s.files.set i file } = _
      rw [set_self hi]
    · rw [hvalues, if_pos rfl, hfiles]
      rfl
  | true =>
    -- the entry of a file on the disk has no array
    let e : StoredEntry := ⟨.onDisk, file.fileSize, ipAddr, file.fileName, none⟩
    let t : Memory F := { s with
      disk := s.disk.write resolve file.fileName
        (copyInto file.fileSize ((s.blocks.load file.data).getD []))
      offlineCache := s.offlineCache.insert file.fileName e }
    refine ⟨t, ?_, ⟨⟨fun e' he' hram => ?_, hs.files⟩, ?_⟩, ?_⟩
    · rw [step, hi]
      show (readBytes s.blocks file.data file.fileSize >>= _) >>= _ = _
      rw [readBytes_eq hfits]
      show Except.ok { t with files := s.files.set i file } = _
      rw [set_self hi]
    · rcases mem_entries_insert he' with rfl | he'
      · cases hram
      · exact hs.entries e' he' hram
    · -- the new entry has no array
      exact (Owned.null_cons.mpr hs.owned).perm (owners_insert_perm s file.fileName e)
    · rw [hvalues, if_pos rfl, hfiles, HeldFile.value_eq hlive]
      exact insert_value { s with disk := t.disk } file.fileName e

/-- In memory: the entry takes the array over, and `DestroyFile` has nothing left to delete. -/
theorem Sound.step_add_onRAM (hs : s.Sound) {i : Nat} {file : HeldFile}
    (hi : s.files[i]? = some file) (hlive : ¬ file.Dangling)
    (hfits : Fits s.blocks file.data file.fileSize) (ipAddr : Ipv4) (created : Bool) :
    StepsWell resolve s (.add i ipAddr false created) := by
  have hvalues := step_add_value resolve hi ipAddr false created
  rw [HeldFile.value_eq hlive] at hvalues
  -- the entry takes the pointer as it is
  let e : StoredEntry := ⟨.onRAM, file.fileSize, ipAddr, file.fileName, file.data⟩
  let file' : HeldFile := { file with data := none, fileSize := 0, destroyed := true }
  let t : Memory F := { s with
    offlineCache := s.offlineCache.insert file.fileName e
    files := s.files.set i file' }
  refine ⟨t, ?_, ⟨⟨fun e' he' hram => ?_, fun f hf hne => ?_⟩, ?_⟩, ?_⟩
  · rw [step, hi]
    rfl
  · rcases mem_entries_insert he' with rfl | he'
    · exact hfits
    · exact hs.entries e' he' hram
  · rcases List.mem_or_eq_of_mem_set hf with hf | rfl
    · exact hs.files f hf hne
    · exact absurd rfl hne
  · -- the pointer goes from the `RawFile` to the entry
    have hset : ({ s with files := s.files.set i file' } : Memory F).owners.Perm
        (none :: s.othersThan i) := owners_set_perm hi
    have hbefore : (file.data :: s.othersThan i).Perm s.owners :=
      HeldFile.owns_eq hlive ▸ (owners_perm hi).symm
    have howners : t.owners.Perm (none :: s.owners) :=
      (owners_insert_perm { s with files := s.files.set i file' } file.fileName e).trans
        (((hset.cons file.data).trans (List.Perm.swap _ _ _)).trans (hbefore.cons none))
    exact (Owned.null_cons.mpr hs.owned).perm howners
  · rw [hvalues, insert_value { s with files := s.files.set i file' }, set_value]
    rfl

/-- Either way, for a `RawFile` that can be used. -/
theorem Sound.step_add (hs : s.Sound) (i : Nat) (ipAddr : Ipv4) (memoryShort created : Bool)
    (hcareful : s.Careful (.add i ipAddr memoryShort created)) :
    StepsWell resolve s (.add i ipAddr memoryShort created) := by
  cases hi : s.files[i]? with
  | none =>
    have hfile : s.value.files[i]? = none := by
      rw [value, List.getElem?_map, hi]
      rfl
    refine ⟨s, ?_, hs, ?_⟩
    · rw [step, hi]
    · rw [CacheValues.step, hfile]
  | some file =>
    obtain ⟨hlive, hsized⟩ := hcareful file hi
    -- a `RawFile` without an array has size 0 here
    have hfits : Fits s.blocks file.data file.fileSize := by
      have howned := hs.files file (List.mem_of_getElem? hi)
      rw [HeldFile.owns_eq hlive] at howned
      by_cases hdata : file.data = none
      · rw [hsized hdata]
        exact fits_zero _ _
      · exact howned hdata
    cases memoryShort with
    | true => exact hs.step_add_onDisk hi hlive hfits ipAddr created
    | false => exact hs.step_add_onRAM hi hlive hfits ipAddr created

/-- One operation keeps the invariant, and does to the arrays what it does to values. -/
theorem Sound.step (hs : s.Sound) (op : Op) (hcareful : s.Careful op) :
    StepsWell resolve s op := by
  cases op with
  | newFile name bytes sized => exact hs.step_newFile name bytes sized
  | add i ipAddr memoryShort created => exact hs.step_add i ipAddr memoryShort created hcareful
  | remove name ipAddr => exact hs.step_remove name ipAddr
  | get name ipAddr => exact hs.step_get name ipAddr
  | destroy i => exact hs.step_destroy i hcareful
  | drop i => exact hs.step_drop i

/-- So do all, as long as each is careful. -/
theorem Sound.run (hs : s.Sound) {ops : List Op}
    (hops : EachTry (fun s op => (s.step resolve op).toOption) Careful s ops) :
    ∃ s', s.run resolve ops = .ok s' ∧ s'.Sound ∧ s'.value = s.value.run resolve ops := by
  induction ops generalizing s with
  | nil => exact ⟨s, rfl, hs, rfl⟩
  | cons op ops ih =>
    have hwell : StepsWell resolve s op := hs.step op hops.1
    -- the first operation, and then the others
    obtain ⟨s₁, hstep, hs₁, hvalue₁⟩ := hwell
    obtain ⟨s₂, hrun, hs₂, hvalue₂⟩ := ih hs₁ (hops.2 s₁ (toOption_eq_some.mpr hstep))
    refine ⟨s₂, ?_, hs₂, ?_⟩
    · show (op :: ops).foldlM (Memory.step resolve) s = _
      rw [List.foldlM_cons, hstep]
      exact hrun
    · rw [hvalue₂, hvalue₁]
      rfl

end Steps

/-- An empty cache, and no array. -/
def fresh (localCacheDirectory : Bytes) (disk : Disk F) : Memory F := { localCacheDirectory, disk }

/-- Before the first call there is nothing to own. -/
theorem fresh_sound (localCacheDirectory : Bytes) (disk : Disk F) :
    (fresh localCacheDirectory disk).Sound :=
  ⟨⟨fun _ he => absurd he List.not_mem_nil, fun _ hfile => absurd hfile List.not_mem_nil⟩,
    fun _ => rfl⟩

end Memory

/-- Whatever the functions of the cache are called for, and whatever becomes of the `RawFile`s, as
long as none is used after `DestroyFile`: no array is deleted twice, read after it was deleted or
read past its end, and none is lost but those of dropped `RawFile`s. The arrays may as well be
values. -/
theorem memory_run {F : Type} [DecidableEq F] (resolve : Bytes → F) (localCacheDirectory : Bytes)
    (disk : Disk F) (ops : List Memory.Op)
    (hops : EachTry (fun s op => (s.step resolve op).toOption) Memory.Careful
      (Memory.fresh localCacheDirectory disk) ops) :
    ∃ s, (Memory.fresh localCacheDirectory disk).run resolve ops = .ok s ∧ s.Sound ∧
      s.value = CacheValues.run resolve
        { cache := ⟨localCacheDirectory, Multimap.empty⟩, disk } ops :=
  (Memory.fresh_sound localCacheDirectory disk).run hops

/-- A file goes into the cache, a copy comes out, and both arrays are deleted. -/
theorem memory_run_add_get :
    ∃ s, (Memory.fresh [99] fun _ => none).run id
        [.newFile [97] [1, 2] true, .add 0 ⟨1, 1, 1, 1⟩ false true, .get [97] ⟨2, 2, 2, 2⟩,
          .remove [97] ⟨1, 1, 1, 1⟩, .destroy 1] = .ok s ∧ s.Sound ∧
      s.value = CacheValues.run id { cache := ⟨[99], Multimap.empty⟩, disk := fun _ => none }
        [.newFile [97] [1, 2] true, .add 0 ⟨1, 1, 1, 1⟩ false true, .get [97] ⟨2, 2, 2, 2⟩,
          .remove [97] ⟨1, 1, 1, 1⟩, .destroy 1] := by
  refine memory_run id [99] (fun _ => none) _ ⟨trivial, fun s₁ hs₁ => ⟨?_, fun s₂ hs₂ => ⟨trivial,
    fun s₃ hs₃ => ⟨trivial, fun s₄ hs₄ => ⟨?_, fun _ _ => trivial⟩⟩⟩⟩⟩
  · rintro file hfile
    cases hs₁
    cases hfile
    exact ⟨fun h => (nomatch h.1), fun h => (nomatch h)⟩
  · -- the file that was fetched has not been destroyed yet
    cases hs₁
    cases hs₂
    cases hs₃
    cases hs₄
    rintro file hfile
    cases hfile
    exact fun h => (nomatch h.1)

-- a file that could not be opened has a size; as a file of the cache, it is read from null
example : ((Memory.fresh [99] fun _ => none).run id
    [.newFile [97] [1] true, .add 0 ⟨1, 1, 1, 1⟩ false true,
      .newFile [98] [1] true, .add 1 ⟨2, 2, 2, 2⟩ true true, .get [97] ⟨1, 1, 1, 1⟩,
      .add 2 ⟨1, 1, 1, 1⟩ true true]) = .error .nullPointer := rfl

-- a destroyed file that goes into the cache takes its pointer along
example : ((Memory.fresh [99] fun _ => none).run id
    [.newFile [97] [1] true, .destroy 0, .add 0 ⟨1, 1, 1, 1⟩ false true,
      .remove [97] ⟨1, 1, 1, 1⟩]) = .error .doubleFree := rfl

end Guthi
