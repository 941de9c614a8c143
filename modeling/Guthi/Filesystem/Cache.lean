import Guthi.Filesystem.FileContent
import Guthi.Lib.Multimap

/-!
# Guthi — the file cache

`FileSystem::FileCache` of `filesystem/fs.hpp` and `filesystem/cache.cpp`: a multimap from file
names to entries, each either with its data in memory or with the data in a file.

The disk is what lies behind `fopen`: `resolve` says which file a path denotes and `Disk` gives
the content of every file. Whether memory is short and whether a file can be created is decided
outside the program, so both are arguments of the call. The cache directory is stored and never
used, and a cached file is written to the path that its name is.
-/

namespace Guthi

/-- The bytes of an allocated array or of a file; `none` is a byte that was never written. -/
abbrev Buffer := List (Option UInt8)

/-- The content of each file that is there. -/
abbrev Disk (F : Type*) := F → Option Buffer

/-- `CacheLocation`. -/
inductive CacheLocation where
  | onRAM
  | onDisk
  | unCached
deriving DecidableEq, Repr

/-- `struct FileCacheEntry`, without the timestamp, which nothing reads. -/
structure FileCacheEntry where
  location : CacheLocation
  size : Nat
  ipAddr : Ipv4
  fileName : Bytes
  data : Option Buffer := none
deriving DecidableEq, Repr

/-- `struct RawFile`; `data` is the array behind the pointer, `none` the null pointer. -/
structure RawFile where
  fileSize : Nat := 0
  fileName : Bytes := []
  data : Option Buffer := none
deriving DecidableEq, Repr

/-- `FileCache`. -/
structure FileCache where
  localCacheDirectory : Bytes
  offlineCache : Multimap Bytes FileCacheEntry

/-- A cache that was just made. -/
def FileCache.new (cacheDirectory : Bytes) : FileCache := ⟨cacheDirectory, Multimap.empty⟩

section

variable {F : Type*} [DecidableEq F] (resolve : Bytes → F)

/-- `fopen(path, "wb+")` and one `fwrite`. -/
def Disk.write (disk : Disk F) (path : Bytes) (content : Buffer) : Disk F :=
  Function.update disk (resolve (cStr path)) (some content)

/-- What `fopen(path, "rb")` gives access to. -/
def Disk.read (disk : Disk F) (path : Bytes) : Option Buffer := disk (resolve (cStr path))

/-- A new array of `n` bytes into which a source was copied, as far as the source goes. -/
def copyInto (n : Nat) (source : Buffer) : Buffer := source.takeD n none

namespace FileCache

/-- `AddFileToCache(file, ip_addr)`; `memoryShort` is the comparison with `memory_load`, and
`created` whether `fopen` succeeds. -/
def addFileToCache (cache : FileCache) (disk : Disk F) (file : RawFile) (ipAddr : Ipv4)
    (memoryShort created : Bool) : FileCache × Disk F :=
  let entry : FileCacheEntry :=
    { fileName := file.fileName, size := file.fileSize, ipAddr := ipAddr, location := .onRAM }
  if memoryShort then
    if !created then (cache, disk)
    else
      -- the file is created under the name itself, not in the cache directory
      ({ cache with
          offlineCache := cache.offlineCache.insert file.fileName
            { entry with location := .onDisk } },
        disk.write resolve file.fileName (copyInto file.fileSize (file.data.getD [])))
  else
    -- the entry takes over the array of the file
    ({ cache with
        offlineCache := cache.offlineCache.insert file.fileName { entry with data := file.data } },
      disk)

/-- The loop of the lookups: from `lower_bound` to the end of the map, the first entry for
which `memcmp` is not zero, so the first one with another address than `ipAddr`. -/
def findEntry (cache : FileCache) (file : Bytes) (ipAddr : Ipv4) :
    Option (Bytes × FileCacheEntry) :=
  (cache.offlineCache.lowerBound file).find? fun e => ipAddr ≠ e.2.ipAddr

/-- `IsFileCached(file, ip_addr)`. -/
def isFileCached (cache : FileCache) (file : Bytes) (ipAddr : Ipv4) : Bool :=
  if cache.offlineCache.count file = 0 then false else (cache.findEntry file ipAddr).isSome

/-- `GetCachedEntry(file, ip_addr)`. -/
def getCachedEntry (cache : FileCache) (file : Bytes) (ipAddr : Ipv4) : Option FileCacheEntry :=
  if cache.offlineCache.count file = 0 then none
  else (cache.findEntry file ipAddr).map Prod.snd

/-- `GetCachedFile(file, ip_addr)`. The file on disk is looked up by the name asked for, not by
the name of the entry. -/
def getCachedFile (cache : FileCache) (disk : Disk F) (file : Bytes) (ipAddr : Ipv4) : RawFile :=
  match cache.getCachedEntry file ipAddr with
  | none => {}
  | some entry =>
    let rFile : RawFile := { fileName := file, fileSize := entry.size }
    if entry.location = .onRAM then
      { rFile with data := some (copyInto rFile.fileSize (entry.data.getD [])) }
    else
      { rFile with data := (disk.read resolve rFile.fileName).map (copyInto rFile.fileSize) }

end FileCache

/-! ## A sequence of adds -/

/-- One call of `AddFileToCache` whose disk operations succeed: the fields of the `RawFile`, with
the bytes that its `data` points to, and the other arguments. -/
structure CacheAdd where
  name : Bytes
  ipAddr : Ipv4
  bytes : Bytes
  fileSize : Nat
  memoryShort : Bool
deriving DecidableEq, Repr

namespace CacheAdd

/-- The file that is added, with all its bytes. -/
def file (a : CacheAdd) : RawFile where
  fileSize := a.fileSize
  fileName := a.name
  data := some (a.bytes.map some)

/-- The entry that is made for it. -/
def entry (a : CacheAdd) : FileCacheEntry where
  fileName := a.name
  size := a.fileSize
  ipAddr := a.ipAddr
  location := if a.memoryShort then .onDisk else .onRAM
  data := if a.memoryShort then none else some (a.bytes.map some)

/-- Adds one after the other. -/
def run (cache : FileCache) (disk : Disk F) (adds : List CacheAdd) : FileCache × Disk F :=
  adds.foldl (fun s a => s.1.addFileToCache resolve s.2 a.file a.ipAddr a.memoryShort true)
    (cache, disk)

/-- The last call for exactly this name and address. -/
def last (adds : List CacheAdd) (name : Bytes) (ipAddr : Ipv4) : Option CacheAdd :=
  (adds.filter fun a => a.name = name ∧ a.ipAddr = ipAddr).getLast?

/-- The last call that wrote the given file. -/
def lastWrite (adds : List CacheAdd) (f : F) : Option CacheAdd :=
  (adds.filter fun a => a.memoryShort ∧ resolve (cStr a.name) = f).getLast?

/-- The disk after the calls: every file holds what was written last. -/
def diskAfter (disk : Disk F) (adds : List CacheAdd) : Disk F := fun f =>
  match lastWrite resolve adds f with
  | none => disk f
  | some a => some (copyInto a.fileSize (a.bytes.map some))

/-- Of the calls from `name` on for another address than `ipAddr`, the oldest of those with the
least name. -/
def otherFrom (adds : List CacheAdd) (name : Bytes) (ipAddr : Ipv4) : Option CacheAdd :=
  earliestLeast CacheAdd.name (adds.filter fun a => name ≤ a.name ∧ ipAddr ≠ a.ipAddr)

end CacheAdd

end

end Guthi
