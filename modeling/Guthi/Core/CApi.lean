import Guthi.Filesystem.CacheLookup

/-!
# Guthi — the C interface of the cache

`AddToFileCache`, `IsFileCached` and `GetCachedFile` of `core/c_api.cpp`. The library holds one
static `NetworkFS`; an add stores the file in its cache and puts an entry for it under
`local_fs`.

* `runAdds_cache` — a sequence of C calls is a sequence of adds to the cache, each with size
  zero, since `AddToFileCache` never sets `rawfile.file_size`;
* `storeAndFetch_iff` — what the C interface returns for a stored file.
-/

namespace Guthi

namespace CApi

variable {F : Type*} [DecidableEq F] (resolve : Bytes → F)

/-- `static FileSystem::NetworkFS GFS`, with the objects it owns and the disk. -/
structure GFS (F : Type*) where
  heap : Heap
  gfsRoot : Addr
  localFs : Addr
  localCache : FileCache
  disk : Disk F

/-- `GFS("./tmp")`. -/
def GFS.new (disk : Disk F) : GFS F where
  heap := [FileContent.new, FileContent.new]
  gfsRoot := 0
  localFs := 1
  localCache := FileCache.new (ascii "./tmp")
  disk := disk

/-- `AddToFileCache(file_name, name_length, ip_addr, data, data_length)`. -/
def addToFileCache (gfs : GFS F) (fileName : Bytes) (ipAddr : Ipv4) (data : Bytes)
    (memoryShort created : Bool) : GFS F :=
  -- the file size keeps its default, zero
  let rawfile : RawFile := { fileName := fileName, data := some (data.map some) }
  let stored := gfs.localCache.addFileToCache resolve gfs.disk rawfile ipAddr memoryShort created
  let file := gfs.heap.length
  let heap := gfs.heap ++
    [{ FileContent.new with name := rawfile.fileName, type := FileType.file }]
  { gfs with
    heap := heap.modify gfs.localFs fun c => { c with contents := c.contents ++ [some file] }
    localCache := stored.1
    disk := stored.2 }

/-- `IsFileCached(str, length, ip_addr)`. -/
def isFileCached (gfs : GFS F) (str : Bytes) (ipAddr : Ipv4) : Bool :=
  gfs.localCache.isFileCached (cStr str) ipAddr

/-- `GetCachedFile(file_name, name_length, ip_addr, file_size_in_bytes, timestamp)`: the size
that is stored through the pointer, and the array that is returned. -/
def getCachedFile (gfs : GFS F) (fileName : Bytes) (ipAddr : Ipv4) : UInt32 × Option Buffer :=
  let file := gfs.localCache.getCachedFile resolve gfs.disk (cStr fileName) ipAddr
  (UInt32.ofNat file.fileSize, file.data)

/-- The arguments of one `AddToFileCache` call, and whether memory was short then. -/
structure Add where
  fileName : Bytes
  ipAddr : Ipv4
  data : Bytes
  memoryShort : Bool
deriving DecidableEq, Repr

/-- A sequence of `AddToFileCache` calls whose disk operations succeed. -/
def runAdds (gfs : GFS F) (adds : List Add) : GFS F :=
  adds.foldl (fun gfs a => addToFileCache resolve gfs a.fileName a.ipAddr a.data a.memoryShort true)
    gfs

def Add.toCacheAdd (a : Add) : CacheAdd where
  name := a.fileName
  ipAddr := a.ipAddr
  bytes := a.data
  fileSize := 0
  memoryShort := a.memoryShort

/-! ## A sequence of calls -/

theorem runAdds_cache_from (gfs : GFS F) (adds : List Add) :
    ((runAdds resolve gfs adds).localCache, (runAdds resolve gfs adds).disk) =
      CacheAdd.run resolve gfs.localCache gfs.disk (adds.map Add.toCacheAdd) := by
  induction adds generalizing gfs with
  | nil => rfl
  | cons a adds ih =>
    rw [runAdds, List.foldl_cons, ← runAdds, ih, List.map_cons, CacheAdd.run, CacheAdd.run,
      List.foldl_cons]
    rfl

theorem runAdds_cache (disk : Disk F) (adds : List Add) :
    ((runAdds resolve (GFS.new disk) adds).localCache,
      (runAdds resolve (GFS.new disk) adds).disk) =
      CacheAdd.run resolve (FileCache.new (ascii "./tmp")) disk (adds.map Add.toCacheAdd) :=
  runAdds_cache_from resolve (GFS.new disk) adds

/-- Two C calls after a sequence of adds: the file is reported as cached, and the array that is
returned has the given size and bytes. -/
def Fetches (gfs : GFS F) (fileName : Bytes) (ipAddr : Ipv4) (bytes : Bytes) : Prop :=
  isFileCached gfs fileName ipAddr = true ∧
  (getCachedFile resolve gfs fileName ipAddr).1.toNat = bytes.length ∧
  (getCachedFile resolve gfs fileName ipAddr).2 = some (bytes.map some)

/-- For a key that was stored, the C interface gives back the last content exactly when this is
empty, some file is stored under the C string of the name, and the entry that the lookup comes
upon, one of another address, is in memory or the file of that C string exists. -/
theorem storeAndFetch_iff (disk : Disk F) (adds : List Add) (fileName : Bytes) (ipAddr : Ipv4) :
    (∃ l, CacheAdd.last (adds.map Add.toCacheAdd) fileName ipAddr = some l ∧
      Fetches resolve (runAdds resolve (GFS.new disk) adds) fileName ipAddr l.bytes) ↔
    ∃ l, CacheAdd.last (adds.map Add.toCacheAdd) fileName ipAddr = some l ∧
      l.bytes = [] ∧ (∃ a ∈ adds, a.fileName = cStr fileName) ∧
      ∃ e, CacheAdd.otherFrom (adds.map Add.toCacheAdd) (cStr fileName) ipAddr = some e ∧
        (e.memoryShort = true → ∃ content, CacheAdd.diskAfter resolve disk
          (adds.map Add.toCacheAdd) (resolve (cStr fileName)) = some content) := by
  refine exists_congr fun l => and_congr_right fun _ => ?_
  have hrun := runAdds_cache resolve disk adds
  have hcache := congrArg Prod.fst hrun
  have hdisk := congrArg Prod.snd hrun
  simp only at hcache hdisk
  have hnames : (∃ a ∈ adds.map Add.toCacheAdd, a.name = cStr fileName) ↔
      ∃ a ∈ adds, a.fileName = cStr fileName := by simp [Add.toCacheAdd]
  rw [Fetches, isFileCached, getCachedFile, hcache, hdisk, CacheAdd.isFileCached_run, hnames]
  constructor
  · -- the size that comes back is zero, so the content is empty
    rintro ⟨⟨hname, e, he⟩, hsize, hdata⟩
    have hmem := List.mem_of_mem_filter (earliestLeast_mem he)
    obtain ⟨a, _, rfl⟩ := List.mem_map.mp hmem
    rw [CacheAdd.getCachedFile_run resolve disk _ (hnames.mpr hname) he] at hsize hdata
    refine ⟨List.eq_nil_of_length_eq_zero hsize.symm, hname, _, he, fun hshort => ?_⟩
    simp only [CacheAdd.served, if_pos hshort, cStr_eq_self (zero_notMem_cStr _),
      Option.map_eq_some_iff] at hdata
    exact hdata.imp fun content h => h.1
  · -- no byte is copied, whatever the entry that is found
    rintro ⟨hempty, hname, e, he, hread⟩
    have hmem := List.mem_of_mem_filter (earliestLeast_mem he)
    obtain ⟨a, _, rfl⟩ := List.mem_map.mp hmem
    refine ⟨⟨hname, _, he⟩, ?_⟩
    rw [CacheAdd.getCachedFile_run resolve disk _ (hnames.mpr hname) he, hempty]
    refine ⟨rfl, ?_⟩
    unfold CacheAdd.served
    split_ifs with hshort
    · obtain ⟨content, hcontent⟩ := hread hshort
      simp only [cStr_eq_self (zero_notMem_cStr _), hcontent]
      rfl
    · rfl

/-- A file of one byte, stored and asked for: it is not even reported as cached. With a second
node's copy beside it, it is reported, but with size zero. -/
theorem storeAndFetch_loses_file :
    (CacheAdd.last ([⟨ascii "a", ⟨10, 0, 0, 1⟩, [1], false⟩].map Add.toCacheAdd) (ascii "a")
      ⟨10, 0, 0, 1⟩).map CacheAdd.bytes = some [1] ∧
    ¬ Fetches id (runAdds id (GFS.new fun _ : Bytes => none)
        [⟨ascii "a", ⟨10, 0, 0, 1⟩, [1], false⟩]) (ascii "a") ⟨10, 0, 0, 1⟩ [1] ∧
    ¬ Fetches id (runAdds id (GFS.new fun _ : Bytes => none)
        [⟨ascii "a", ⟨10, 0, 0, 1⟩, [1], false⟩, ⟨ascii "a", ⟨10, 0, 0, 2⟩, [1], false⟩])
        (ascii "a") ⟨10, 0, 0, 1⟩ [1] := by
  refine ⟨by decide, ?_, ?_⟩
  · rintro ⟨hcached, _⟩
    exact absurd hcached (by decide)
  · rintro ⟨_, hsize, _⟩
    exact absurd hsize (by decide)

end CApi

end Guthi
