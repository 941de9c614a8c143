import Guthi.Filesystem.CacheKeys
import Guthi.Lib.Path

/-!
# Guthi — where the cache puts its files

The cache is created for a directory, and a file that does not fit into memory should be put
there. This module follows the paths that the cache hands to `fopen`: when a file is added, and
when a file that is on disk is fetched.

* `opens` — the path of one call; `disk_step`, `getCachedFile_congr` — a call neither writes nor
  reads anything else;
* `opened_below_iff` — in a run of calls these paths stay in the cache directory exactly if the
  names that are used as paths lead there by themselves.
-/

namespace Guthi

open FileCache

/-- A call that may go to the disk. -/
inductive CacheCall where
  | add (file : RawFile) (ipAddr : Ipv4) (memoryShort created : Bool)
  | fetch (name : Bytes) (ipAddr : Ipv4)

namespace CacheCall

/-- The lookup finds an entry whose data are not in memory. -/
def LeadsToDisk (cache : FileCache) (name : Bytes) (ipAddr : Ipv4) : Prop :=
  ∃ e ∈ cache.getCachedEntry name ipAddr, e.location ≠ .onRAM

instance instDecidableLeadsToDisk (cache : FileCache) (name : Bytes) (ipAddr : Ipv4) :
    Decidable (LeadsToDisk cache name ipAddr) := by
  unfold LeadsToDisk
  infer_instance

/-- The name that the call uses as a path, if it goes to the disk: to create or overwrite the
file, or to read it. -/
def diskName (cache : FileCache) : CacheCall → Option Bytes
  | .add file _ memoryShort created => if memoryShort ∧ created then some file.fileName else none
  | .fetch name ipAddr => if LeadsToDisk cache name ipAddr then some name else none

/-- The path that the call hands to `fopen`. -/
def opens (cache : FileCache) (call : CacheCall) : Option Bytes := (call.diskName cache).map cStr

section

variable {F : Type*} [DecidableEq F] (resolve : Bytes → F)

def step (s : FileCache × Disk F) : CacheCall → FileCache × Disk F
  | .add file ip memoryShort created => s.1.addFileToCache resolve s.2 file ip memoryShort created
  | .fetch _ _ => s

/-- All paths that a run opens. -/
def opened : FileCache × Disk F → List CacheCall → List Bytes
  | _, [] => []
  | s, call :: calls => (call.opens s.1).toList ++ opened (call.step resolve s) calls

/-- No other file than the opened one changes. -/
theorem disk_step (s : FileCache × Disk F) (call : CacheCall) {f : F}
    (hf : ∀ path ∈ call.opens s.1, resolve path ≠ f) : (call.step resolve s).2 f = s.2 f := by
  cases call with
  | fetch name ip => rfl
  | add file ip memoryShort created =>
    unfold step FileCache.addFileToCache
    cases memoryShort <;> cases created
    case true.true =>
      have hne : f ≠ resolve (cStr file.fileName) := Ne.symm (hf _ (by simp [opens, diskName]))
      exact Function.update_of_ne hne _ _
    all_goals rfl

omit [DecidableEq F] in
/-- What a fetch returns depends on the opened file only. -/
theorem getCachedFile_congr (cache : FileCache) (name : Bytes) (ipAddr : Ipv4) {d d' : Disk F}
    (h : ∀ path ∈ (fetch name ipAddr).opens cache, d (resolve path) = d' (resolve path)) :
    cache.getCachedFile resolve d name ipAddr = cache.getCachedFile resolve d' name ipAddr := by
  unfold getCachedFile
  cases hentry : cache.getCachedEntry name ipAddr with
  | none => rfl
  | some e =>
    by_cases hram : e.location = .onRAM
    · simp [hram]
    · have hdisk : LeadsToDisk cache name ipAddr := ⟨e, hentry, hram⟩
      have hsame := h (cStr name) (by simp [opens, diskName, hdisk])
      simp only [Disk.read, hsame]

end

/-! ## Staying inside -/

/-- The name, taken as a path, leads below the directory: its normal form starts below it and
does not climb out, or comes down into it. -/
def PointsInto (cwd dir : List Bytes) (name : Bytes) : Prop :=
  (RelPath.ofPath (cStr name)).Enters (if isAbsolute (cStr name) then [] else cwd) dir

/-- If the call goes to the disk, its name leads below the directory. -/
def UsesInnerName (cwd dir : List Bytes) (cache : FileCache) (call : CacheCall) : Prop :=
  ∀ name ∈ call.diskName cache, PointsInto cwd dir name

theorem below_resolvePath_iff (cwd dir : List Bytes) (name : Bytes) :
    Below dir (resolvePath cwd (cStr name)) ↔ PointsInto cwd dir name := by
  rw [resolvePath_eq, below_startingAt_iff]
  rfl

theorem opens_below_iff (cwd dir : List Bytes) (cache : FileCache) (call : CacheCall) :
    (∀ path ∈ (call.opens cache).toList, Below dir (resolvePath cwd path)) ↔
      call.UsesInnerName cwd dir cache := by
  unfold opens UsesInnerName
  cases call.diskName cache with
  | none => simp
  | some name => simpa using below_resolvePath_iff cwd dir name

/-- For every cache directory and every sequence of adds and fetches, with any names: every path
that is created, overwritten or read lies below the cache directory if and only if every name
that is used as a path, of a file that goes to the disk or is found to be there, leads below the
cache directory by itself. The cache directory plays no part in the paths. -/
theorem opened_below_iff (cwd : List Bytes) (cacheDirectory : Bytes)
    (disk : Disk (List Bytes)) (calls : List CacheCall) :
    (∀ path ∈ opened (resolvePath cwd) (FileCache.new cacheDirectory, disk) calls,
      Below (resolvePath cwd (cStr cacheDirectory)) (resolvePath cwd path)) ↔
    EachTry (fun s call => some (step (resolvePath cwd) s call))
      (fun s call => call.UsesInnerName cwd (resolvePath cwd (cStr cacheDirectory)) s.1)
      (FileCache.new cacheDirectory, disk) calls := by
  generalize FileCache.new cacheDirectory = cache
  generalize resolvePath cwd (cStr cacheDirectory) = dir
  induction calls generalizing cache disk with
  | nil => exact ⟨fun _ => trivial, fun _ _ hpath => absurd hpath List.not_mem_nil⟩
  | cons call calls ih =>
    rw [eachTry_cons_total, ← opens_below_iff, ← ih, ← List.forall_mem_append]
    rfl

/-- The process runs in `/home/u` and the cache is in `/home/u/cache`; the two names lead there. -/
example :
    ∀ path ∈ opened (resolvePath [ascii "home", ascii "u"])
      (FileCache.new (ascii "./cache/"), fun _ => none)
      [.add { fileName := ascii "cache/a" } ⟨10, 0, 0, 1⟩ true true,
        .add { fileName := ascii "/home/u/x/../cache/b" } ⟨10, 0, 0, 2⟩ true true],
      Below (resolvePath [ascii "home", ascii "u"] (cStr (ascii "./cache/")))
        (resolvePath [ascii "home", ascii "u"] path) := by
  decide

/-- An ordinary file name leaves the cache directory, as do a name with `..` and an absolute one;
the file of the last one is read as well. -/
theorem cached_file_outside :
    ¬ (∀ path ∈ opened (resolvePath [ascii "home", ascii "u"])
        (FileCache.new (ascii "/home/u/cache"), fun _ => none)
        [.add { fileName := ascii "a.txt" } ⟨10, 0, 0, 1⟩ true true],
      Below (resolvePath [ascii "home", ascii "u"] (cStr (ascii "/home/u/cache")))
        (resolvePath [ascii "home", ascii "u"] path)) ∧
    opened (resolvePath [ascii "home", ascii "u"])
      (FileCache.new (ascii "/home/u/cache"), fun _ => none)
      [.add { fileName := ascii "cache/../../v/.profile" } ⟨10, 0, 0, 1⟩ true true,
        .add { fileName := ascii "/etc/passwd" } ⟨10, 0, 0, 1⟩ true true,
        .fetch (ascii "/etc/passwd") ⟨10, 0, 0, 2⟩] =
      [ascii "cache/../../v/.profile", ascii "/etc/passwd", ascii "/etc/passwd"] := by
  decide

end CacheCall

end Guthi
